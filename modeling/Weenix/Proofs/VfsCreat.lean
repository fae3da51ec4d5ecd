import Weenix.Proofs.NamevAgrees
import Weenix.Proofs.VfsTree

/-! Opening with `O_CREAT`, and what the calls that make a file store under its name. -/

namespace Weenix.Vfs

open Function Exec Fs Option

open SlotMap (Distinct)

section Creat

variable {fs g : Fs} {cwd p : VPtr} {path : CStr} {memory : Bool} {d : ℕ}

theorem origin_up (h : origin path = .up) : path.take 3 = [dot, dot, slash] := by
  unfold origin at h
  split_ifs at h with hcwd hup
  unfold finalPath at hcwd hup
  split_ifs at hcwd hup
  · exact absurd rfl hcwd
  · exact hup

/-- The state after a file has been made under the name in the directory `d`, with the reference that
`open_namev` takes to it. -/
def Fs.create (fs : Fs) (d i ino : ℕ) (name : CStr) : Fs :=
  (((fs.alloc ino (.data fun _ => 0)).grab ino).enter d i ino name).grab ino

/-- Where `open_namev` makes a file: it resolves the parent directory by `dir_namev`, and the
directory is in core after it has been put. -/
structure Fs.Creates (fs : Fs) (cwd : VPtr) (path : CStr) (memory : Bool) (d : ℕ) (e : ℕ → Dirent) (i ino : ℕ) :
    Prop where
  short : path.length ≤ maxPathLen
  here : path.take 2 ≠ [dot, slash]
  up : path.take 3 ≠ [dot, dot, slash]
  safe : fs.ParentSafe cwd path
  parent : fs.parent cwd path = .ok d
  core : (fs.vnodes d).isSome
  dir : fs.Dir (fs.ptr d) e
  new : findEntry e (baseName path) = none
  room : fs.Room e memory i ino

theorem openCreate_dir (hh : path.take 2 ≠ [dot, slash]) (hu : path.take 3 ≠ [dot, dot, slash]) :
    openCreate cwd path memory fs = .ok (.ok p) g ↔ ∃ dir fs1 fs2, dirNamev cwd path fs = .ok (.ok dir) fs1 ∧
      vput dir fs1 = .ok () fs2 ∧ (∃ v, deref dir fs2 = .ok v fs2 ∧ v.mode = .dir) ∧
        ∃ fs3, ramfsCreate dir (baseName path) memory fs2 = .ok (.ok p) fs3 ∧ vref p fs3 = .ok () g := by
  unfold openCreate
  rw [if_neg hh, if_neg hu]
  constructor
  · intro h
    obtain ⟨x, fs1, hx, h⟩ := bind_ok_iff.1 h
    cases x with
    | error f => cases h
    | ok dir =>
      obtain ⟨_, fs2, hput, h⟩ := bind_ok_iff.1 h
      obtain ⟨v, _, hd, h⟩ := bind_ok_iff.1 h
      obtain ⟨hv, rfl⟩ := need_ok.1 hd
      split_ifs at h with hmode
      · cases h
      obtain ⟨y, fs3, hy, h⟩ := bind_ok_iff.1 h
      cases y with
      | error e => cases h
      | ok vn =>
        obtain ⟨_, href, hp⟩ := bind_pure_iff.1 h
        cases hp
        exact ⟨dir, fs1, _, hx, hput, ⟨v, hd, not_not.1 hmode⟩, fs3, hy, href⟩
  · rintro ⟨dir, fs1, fs2, hx, hput, ⟨v, hd, hmode⟩, fs3, hy, href⟩
    rw [bind_ok _ hx]
    simp only
    rw [bind_ok _ hput, bind_ok _ hd, if_neg (not_not.2 hmode), bind_ok _ hy]
    simp only
    rw [bind_ok _ href]
    rfl

theorem openCreate_prefix (h : openCreate cwd path memory fs = .ok (.ok p) g) :
    path.take 2 ≠ [dot, slash] ∧ path.take 3 ≠ [dot, dot, slash] := by
  unfold openCreate at h
  split_ifs at h with hhere hup
  · obtain ⟨v, fs1, -, h⟩ := bind_ok_iff.1 h
    split_ifs at h <;> cases h
  · cases h
  · exact ⟨hhere, hup⟩

/-- `dir_namev` has found the directory `d`. -/
theorem dirNamev_found (h : Home fs cwd) (hu : path.take 3 ≠ [dot, dot, slash]) {dir : VPtr} :
    dirNamev cwd path fs = .ok (.ok dir) g ↔ fs.ParentSafe cwd path ∧
      ∃ d, fs.parent cwd path = .ok d ∧ (fs.node d).isSome ∧ dir = fs.ptr d ∧ g = fs.grab d := by
  constructor
  · intro hx
    rcases dirNamev_cases h hx with ⟨hsafe, hw⟩ | ⟨-, ho, -⟩
    · refine ⟨hsafe, ?_⟩
      cases hp : fs.parent cwd path with
      | error e =>
        rw [hp] at hw
        cases hw.1
      | ok d =>
        rw [hp] at hw
        obtain ⟨hl, hdir, rfl⟩ := hw
        exact ⟨d, rfl, hl, by simpa [Except.mapError] using hdir, rfl⟩
    · exact absurd (origin_up ho) hu
  · rintro ⟨hsafe, d, hp, hl, rfl, rfl⟩
    obtain ⟨r, g, hx⟩ := dirNamev_of_safe h hsafe
    rcases dirNamev_cases h hx with ⟨-, hw⟩ | ⟨hns, -⟩
    · rw [hp] at hw
      obtain ⟨-, hdir, rfl⟩ := hw
      cases r with
      | error f => cases hdir
      | ok dir =>
        obtain rfl : dir = fs.ptr d := by simpa [Except.mapError] using hdir
        exact hx
    · exact absurd hsafe hns

/-- The vnode that `ramfs_create` returns is in core. -/
theorem create_points {dir : VPtr} {e : ℕ → Dirent} {i ino : ℕ} (hv : fs.Valid) (he : fs.Dir dir e)
    (hr : fs.Room e memory i ino) (name : CStr) :
    (((fs.alloc ino (.data fun _ => 0)).grab ino).enter dir.vno i ino name).Points ⟨ino, fs.allocs⟩ := by
  obtain ⟨hv1, -, hcore, hnode⟩ := alloc_spec hv hr.2.1 (.data fun _ => 0)
  have hlive : ((fs.alloc ino (.data fun _ => 0)).node ino).isSome := by rw [hnode, update_self]; rfl
  have hptr : (fs.alloc ino (.data fun _ => 0)).ptr ino = ⟨ino, fs.allocs⟩ := by
    simp [Fs.ptr, Fs.alloc, Fs.setInode, hcore]
  obtain ⟨nd, hnd, hme⟩ := (he.alloc hr.2.1).grab.node
  obtain ⟨-, hvn, -⟩ := enter_spec hv1.grab hnd hme i ino name
  unfold Fs.Points
  rw [hvn, ← hptr]
  exact points_ptr hlive

theorem openNamev_create (h : Home fs cwd) : openNamev cwd path oCreat memory fs = .ok (.ok p) g ↔
    ∃ d e i ino, fs.Creates cwd path memory d e i ino ∧ p = ⟨ino, fs.allocs⟩ ∧ fs.create d i ino (baseName path) = g := by
  unfold openNamev
  by_cases hlen : maxPathLen < path.length
  · rw [if_pos hlen]
    refine ⟨nofun, ?_⟩
    rintro ⟨d, e, i, ino, hc, -⟩
    exact absurd hc.short (not_le.2 hlen)
  rw [if_neg hlen, if_pos rfl]
  constructor
  · intro hr
    obtain ⟨hh, hu⟩ := openCreate_prefix hr
    obtain ⟨dir, fs1, fs2, hx, hput, ⟨v, hd, -⟩, fs3, hy, href⟩ := (openCreate_dir hh hu).1 hr
    obtain ⟨hsafe, d, hp, hl, rfl, rfl⟩ := (dirNamev_found h hu).1 hx
    obtain rfl := (vput_dir h.valid hl).1 hput
    have hcore := (points_put h.valid h.linked hl).1 (deref_ok (over_put h.valid h.linked hl).valid hd).2.1
    rw [grab_release h.valid hcore] at hy
    obtain ⟨e, he, hnew, ⟨-, hy', -⟩ | ⟨i, ino, hroom, hy', rfl⟩⟩ := (ramfsCreate_ok h.valid).1 hy
    · cases hy'
    cases hy'
    obtain ⟨-, rfl⟩ := (vref_ok (create_net h.valid he hroom _).1.valid).1 href
    refine ⟨d, e, i, ino, ⟨not_lt.1 hlen, hh, hu, hsafe, hp, hcore, he, hnew, hroom⟩, rfl, ?_⟩
    rw [Fs.create, ptr_vno]
  · rintro ⟨d, e, i, ino, hc, rfl, rfl⟩
    obtain ⟨nd, hnd, hme⟩ := hc.dir.node
    rw [ptr_vno] at hnd
    have hl : (fs.node d).isSome := by rw [hnd]; rfl
    obtain ⟨v, hd⟩ := deref_of_points h.valid hc.dir.points (by rw [ptr_vno]; exact hnd)
    have hgr := grab_release h.valid hc.core
    refine (openCreate_dir hc.here hc.up).2 ⟨fs.ptr d, fs.grab d, fs, (dirNamev_found h hc.up).2 ⟨hc.safe, d, hc.parent, hl,
      rfl, rfl⟩, (vput_dir h.valid hl).2 hgr, ⟨v, hd.1, by rw [hd.2, hme]; rfl⟩, _,
      (ramfsCreate_ok h.valid).2 ⟨e, hc.dir, hc.new, .inr ⟨i, ino, hc.room, rfl, rfl⟩⟩, ?_⟩
    refine (vref_ok (create_net h.valid hc.dir hc.room _).1.valid).2 ⟨create_points h.valid hc.dir hc.room _, ?_⟩
    rw [Fs.create, ptr_vno]

/-! ### The directories -/

/-- The directory in which `open_namev` looks up the last name without `O_CREAT`. -/
def Fs.nameDir (fs : Fs) (cwd : VPtr) (path : CStr) : Except Errno ℕ :=
  if path = [dot] ∨ path = [dot, dot] then .ok cwd.vno else fs.parent cwd path

/-- Opening with `O_CREAT` comes back with what has the name in the directory `d`, or with a new file
that has it now. -/
def CreatOk (fs : Fs) (cwd : VPtr) (path : CStr) (memory : Bool) (d : ℕ) : Prop :=
  ∃ p g, openNamev cwd path oCreat memory fs = .ok (.ok p) g ∧ g.Points p ∧
    match (fs.dirs d).bind (· (baseName path)) with
    | some n => p.vno = n ∧ g.dirs = fs.dirs
    | none => fs.node p.vno = none ∧ Sound g ∧ g.dirs = fs.dirs.bind d (baseName path) p.vno

section
variable {e : ℕ → Dirent} {i ino : ℕ} (hc : fs.Creates cwd path memory d e i ino)
include hc

theorem Fs.Creates.name_pos : 0 < (baseName path).length := by
  refine List.length_pos_iff.2 fun hnil => ?_
  have hnew := hc.new
  rw [hnil, hc.room.1] at hnew
  cases hnew

theorem Fs.Creates.dirs_none : ∃ t, fs.dirs d = some t ∧ t (baseName path) = none := by
  obtain ⟨nd, hnd, hme⟩ := hc.dir.node
  rw [ptr_vno] at hnd
  exact ⟨_, dirs_of_dir hnd hme, lookupIn_none_of_find hc.new⟩

theorem Fs.Creates.dirs (hs : Sound fs)
    (hlen : (baseName path).length < nameLen) : Sound (fs.create d i ino (baseName path)) ∧
      (fs.create d i ino (baseName path)).dirs = fs.dirs.bind d (baseName path) ino := by
  have hnew := (hs.alloc hc.room.2.1 (.data fun _ => 0) nofun).grab (n := ino)
  obtain ⟨hs', hdirs⟩ := newName_step hs ⟨hc.name_pos, Nat.le_of_lt_succ hlen⟩ hc.dir hc.new hc.room rfl hnew grab_node
  rw [ptr_vno] at hs' hdirs
  exact ⟨hs'.grab, (dirs_congr grab_node).trans hdirs⟩

end

/-- A name that is cut when it is stored is not found. -/
theorem findEntry_cut {e : ℕ → Dirent} {i ino : ℕ} {name : CStr} (hnew : findEntry e name = none)
    (hfree : findEntry e [] = some i) (hlen : nameLen ≤ name.length) : findEntry (addTo e i ino name) name = none := by
  have hcut : name.take (nameLen - 1) ≠ name := by
    intro h
    have := congrArg List.length h
    rw [List.length_take] at this
    unfold nameLen at *
    omega
  have hne : (e i).name ≠ name := by
    rw [(findEntry_lt hfree).2]
    rintro rfl
    exact absurd hlen (by decide)
  rw [addTo, findEntry_update hne hcut, hnew]

theorem Fs.Creates.dirs_cut {e : ℕ → Dirent} {i ino : ℕ} (hc : fs.Creates cwd path memory d e i ino) (hv : fs.Valid)
    (hlen : nameLen ≤ (baseName path).length) :
    ∃ t, (fs.create d i ino (baseName path)).dirs d = some t ∧ t (baseName path) = none := by
  obtain ⟨hv1, -, -, -⟩ := alloc_spec hv hc.room.2.1 (.data fun _ => 0)
  have hdir : ((fs.alloc ino (.data fun _ => 0)).grab ino).Dir (fs.ptr d) e := (hc.dir.alloc hc.room.2.1).grab
  obtain ⟨nd, hnd, hme⟩ := hdir.node
  rw [ptr_vno] at hnd
  obtain ⟨-, -, hnode⟩ := enter_spec hv1.grab hnd hme i ino (baseName path)
  have hnode' : (fs.create d i ino (baseName path)).node d =
      some { nd with mem := .dir (addTo e i ino (baseName path)), size := nd.size + direntSize } := by
    rw [Fs.create, grab_node, hnode, update_self]
    rfl
  exact ⟨_, dirs_of_dir hnode' rfl, lookupIn_none_of_find (findEntry_cut hc.new hc.room.1 hlen)⟩

theorem bind_apply {t : Dirs} {m : CStr → Option ℕ} (h : t d = some m) (name : CStr) (n : ℕ) :
    t.bind d name n d = some (update m name (some n)) := by
  rw [Dirs.bind, update_self, h]
  rfl

/-- The directory in which a name is bound. -/
theorem bind_dir {t : Dirs} {m : CStr → Option ℕ} {name : CStr} {n d' : ℕ} (h : t d = some m) (hm : m name = none)
    (heq : t.bind d name n = t.bind d' name n) : d' = d := by
  by_contra hne
  have hd := bind_apply h name n
  rw [heq, Dirs.bind, update_of_ne (Ne.symm hne), h] at hd
  have := congrFun (Option.some.inj hd) name
  rw [hm, update_self] at this
  cases this

/-- It does so if and only if the path begins neither with `./` nor with `../`, the walk to the parent
directory is safe, the directory is in core at its end, the name is at most 27 bytes long and is new
there, and there is room. -/
theorem creatOk_iff (hs : Sound fs) (h : Home fs cwd) (hd : fs.nameDir cwd path = .ok d) (hdir : (fs.dirs d).isSome) :
    CreatOk fs cwd path memory d ↔
      (baseName path).length < nameLen ∧ ∃ e i ino, fs.Creates cwd path memory d e i ino := by
  constructor
  · rintro ⟨p, g, hr, -, hok⟩
    obtain ⟨d', e, i, ino, hc, rfl, rfl⟩ := (openNamev_create h).1 hr
    obtain ⟨t', ht', hnone'⟩ := hc.dirs_none
    by_cases hlen : (baseName path).length < nameLen
    · obtain ⟨-, hdirs⟩ := hc.dirs hs hlen
      obtain ⟨t, ht⟩ := isSome_iff_exists.1 hdir
      rw [ht, bind_some] at hok
      cases hname : t (baseName path) with
      | some n =>
        rw [hname] at hok
        have hsame := bind_apply ht' (baseName path) ino
        rw [← hdirs, hok.2, ht'] at hsame
        have := congrFun (Option.some.inj hsame) (baseName path)
        rw [hnone', update_self] at this
        cases this
      | none =>
        rw [hname] at hok
        obtain rfl := bind_dir ht hname (hok.2.2.symm.trans hdirs)
        exact ⟨hlen, e, i, ino, hc⟩
    · have hplain : ¬ (path = [dot] ∨ path = [dot, dot]) := by
        rintro (rfl | rfl) <;> exact hlen (by decide)
      rw [Fs.nameDir, if_neg hplain, hc.parent] at hd
      cases hd
      rw [ht', bind_some, hnone'] at hok
      obtain ⟨t, ht, hnone⟩ := hc.dirs_cut hs.valid (not_lt.1 hlen)
      rw [hok.2.2, bind_apply ht'] at ht
      cases ht
      rw [update_self] at hnone
      cases hnone
  · rintro ⟨hlen, e, i, ino, hc⟩
    obtain ⟨hs', hdirs⟩ := hc.dirs hs hlen
    obtain ⟨t, ht, hnone⟩ := hc.dirs_none
    refine ⟨_, _, (openNamev_create h).2 ⟨d, e, i, ino, hc, rfl, rfl⟩, ?_, ?_⟩
    · have := create_points h.valid hc.dir hc.room (baseName path)
      rw [ptr_vno] at this
      exact this.grab
    · rw [ht, bind_some, hnone]
      exact ⟨node_none.2 (freeInode_some hc.room.2.1).2, hs', hdirs⟩

theorem mounted_creates : mounted.Creates rootVn [slash, 97] true 0 (dotEntries 0 0) 2 1 where
  short := by decide
  here := by decide
  up := by decide
  safe := .inr ⟨by decide, fun _ => trivial⟩
  parent := rfl
  core := rfl
  dir := dir_iff.2 ⟨home_mounted.root, ⟨.dir (dotEntries 0 0), 64, 1⟩, rfl, rfl⟩
  new := rfl
  room := ⟨rfl, rfl, rfl⟩

theorem creatOk_mounted : CreatOk mounted rootVn [slash, 97] true 0 :=
  (creatOk_iff mounted_sound home_mounted rfl rfl).2 ⟨by decide, _, _, _, mounted_creates⟩

/-- Creating a name again is a failed assertion. -/
theorem creat_again_panics : ∃ p fs, openNamev rootVn [slash, 97] oCreat true mounted = .ok (.ok p) fs ∧ Sound fs ∧
    Home fs rootVn ∧ fs.nameDir rootVn [slash, 97] = .ok 0 ∧ (fs.dirs 0).bind (· [97]) = some p.vno ∧
      ∃ g, openNamev rootVn [slash, 97] oCreat true fs = .error .panic g := by
  have hr := (openNamev_create home_mounted).2 ⟨_, _, _, _, mounted_creates, rfl, rfl⟩
  obtain ⟨hs, -⟩ := mounted_creates.dirs mounted_sound (by decide)
  exact ⟨_, _, hr, hs, (openNamev_moved home_mounted hr).1.home home_mounted, rfl, rfl, _, rfl⟩

end Creat

/-! ### The names that are stored -/

/-- The calls that give a name to a new file. -/
inductive NewCall
  | mkdir (path : CStr) (memory : Bool)
  | mknod (path : CStr) (mode devid : ℕ) (memory stray : Bool)
  | creat (path : CStr) (memory : Bool)

namespace NewCall

def path : NewCall → CStr
  | mkdir path _ => path
  | mknod path _ _ _ _ => path
  | creat path _ => path

/-- The last component, which `dir_namev` hands on. -/
def name (c : NewCall) : CStr := baseName c.path

def Succeeds (c : NewCall) (cwd : VPtr) (fs fs' : Fs) : Prop :=
  match c with
  | mkdir path memory => doMkdir cwd path memory fs = .ok 0 fs'
  | mknod path mode devid memory stray => doMknod cwd path mode devid memory stray fs = .ok 0 fs'
  | creat path memory => ∃ p, openNamev cwd path oCreat memory fs = .ok (.ok p) fs'

end NewCall

/-- No two entries of a directory have the same name. -/
def StoredApart (fs : Fs) : Prop :=
  ∀ d e l, fs.look d = some (some e, l) → Distinct maxDirent [] fun i => (e i).name

/-- A new inode is found in the directory `d` under the name; whatever other name `dir_namev` accepts
is looked up as before. -/
structure StoresName (fs fs' : Fs) (d : ℕ) (name : CStr) : Prop where
  first : ∃ n, fs.node n = none ∧ fs'.entry d name = .ok n
  second : ∀ other, other ≠ name → other ≠ [] → other.length ≤ nameLen → fs'.entry d other = fs.entry d other
  apart : StoredApart fs'

section Names

variable {fs fs' base : Fs} {cwd : VPtr} {d i n : ℕ} {e : ℕ → Dirent} {l : ℤ} {name : CStr} {en : Option (ℕ → Dirent)}

theorem Made.of_begins (hb : Begins fs base cwd) (hm : Made base fs' d e i n name en) : Made fs fs' d e i n name en := by
  obtain ⟨hnew, hfree, hdead, lm, hlm, hlook⟩ := hm
  have heq := look_eq hb.node
  exact ⟨hnew, hfree, heq ▸ hdead, lm, heq ▸ hlm, heq ▸ hlook⟩

theorem doMkdir_made {path : CStr} {memory : Bool} (h : Home fs cwd) (hr : doMkdir cwd path memory fs = .ok 0 fs') :
    ∃ d e i n, fs.parent cwd path = .ok d ∧ Made fs fs' d e i n (baseName path) (some (dotEntries n d)) := by
  obtain ⟨base, hb, ⟨f, hf, -⟩ | ⟨m, hm, hl, hrest⟩⟩ := (dirNamev_reaches h path).after h (-·.errno.code)
    (fun dir => makeAt dir (baseName path) (ramfsMkdir dir (baseName path) memory)) hr
  · exact absurd hf.symm (neg_code_ne _)
  obtain ⟨-, ⟨h0, -⟩ | ⟨e, i, n, hmade, -⟩⟩ := makeAt_net hb.home hl
    (ramfsMkdir_makes (base.ptr m) (baseName path) memory) (mkdir_look (base.ptr m) (baseName path) memory) hrest
  · exact absurd rfl h0
  rw [ptr_vno] at hmade
  exact ⟨m, e, i, n, hm, hmade.of_begins hb⟩

theorem doMknod_made {path : CStr} {mode devid : ℕ} {memory stray : Bool} (h : Home fs cwd)
    (hr : doMknod cwd path mode devid memory stray fs = .ok 0 fs') :
    ∃ d e i n, fs.parent cwd path = .ok d ∧ Made fs fs' d e i n (baseName path) none := by
  unfold doMknod at hr
  split_ifs at hr with hspecial hlen hstray
  · exact absurd (pure_ok_iff.1 hr).1 (neg_code_ne _)
  · cases hr
  · obtain ⟨mem, hmem⟩ := specialMem_of_isSpecial devid hspecial
    obtain ⟨base, hb, ⟨f, hf, -⟩ | ⟨m, hm, hl, hrest⟩⟩ := (dirNamev_reaches h path).after h (-·.errno.code)
      (fun dir => makeAt dir (baseName path) (ramfsMknod dir (baseName path) mode devid memory)) hr
    · exact absurd hf.symm (neg_code_ne _)
    obtain ⟨-, ⟨h0, -⟩ | ⟨e, i, n, hmade, -⟩⟩ := makeAt_net hb.home hl
      (ramfsMknod_makes (base.ptr m) (baseName path) memory hmem)
      (mknod_look (base.ptr m) (baseName path) memory hmem) hrest
    · exact absurd rfl h0
    · exact ⟨m, e, i, n, hm, hmade.of_begins hb⟩
  · exact absurd (pure_ok_iff.1 hr).1 (neg_code_ne _)

theorem openNamev_made {path : CStr} {memory : Bool} {p : VPtr} (h : Home fs cwd)
    (hr : openNamev cwd path oCreat memory fs = .ok (.ok p) fs') :
    ∃ d e i n, fs.parent cwd path = .ok d ∧ Made fs fs' d e i n (baseName path) none := by
  obtain ⟨d, e, i, ino, hc, -, rfl⟩ := (openNamev_create h).1 hr
  obtain ⟨-, -, lm, hlm, hlook⟩ := create_net h.valid hc.dir hc.room (baseName path)
  rw [ptr_vno] at hlm hlook
  refine ⟨d, e, i, ino, hc.parent, hc.new, hc.room.1, ?_, lm, hlm, (look_eq grab_node).trans hlook⟩
  rw [Fs.look, node_none.2 (freeInode_some hc.room.2.1).2]
  rfl

/-- What a call that succeeds has done. -/
theorem NewCall.made {c : NewCall} (h : Home fs cwd) (hok : c.Succeeds cwd fs fs') : ∃ d e i n en,
    fs.parent cwd c.path = .ok d ∧ Made fs fs' d e i n c.name en ∧ (en = none ∨ en = some (dotEntries n d)) := by
  cases c with
  | mkdir path memory =>
    obtain ⟨d, e, i, n, hd, hm⟩ := doMkdir_made h hok
    exact ⟨d, e, i, n, _, hd, hm, .inr rfl⟩
  | mknod path mode devid memory stray =>
    obtain ⟨d, e, i, n, hd, hm⟩ := doMknod_made h hok
    exact ⟨d, e, i, n, _, hd, hm, .inl rfl⟩
  | creat path memory =>
    obtain ⟨p, hok⟩ := hok
    obtain ⟨d, e, i, n, hd, hm⟩ := openNamev_made h hok
    exact ⟨d, e, i, n, _, hd, hm, .inl rfl⟩

theorem entry_dir (hl : fs.look d = some (some e, l)) (b : CStr) : fs.entry d b =
    match findEntry e b with
    | none => .error .enoent
    | some i => .ok (e i).ino := by
  obtain ⟨nd, hnd, hen, -⟩ := node_of_look hl
  rw [Fs.entry, hnd, bind_some]
  exact hen ▸ rfl

/-- The table of the directory after the call. -/
theorem Made.table (hm : Made fs fs' d e i n name en) : ∃ lm, fs.look d = some (some e, lm) ∧
    fs'.look d = some (some (addTo e i n name), lm) := by
  obtain ⟨-, -, hdead, lm, hlm, hlook⟩ := hm
  have hne : d ≠ n := by
    rintro rfl
    rw [hlm] at hdead
    cases hdead
  refine ⟨lm, hlm, ?_⟩
  rw [hlook, update_of_ne hne, setTable, update_self]

theorem dotEntries_distinct (self parent : ℕ) : Distinct maxDirent [] fun i => (dotEntries self parent i).name :=
  (dotEntries_ok self parent).1.distinct

theorem Made.name_ne (hm : Made fs fs' d e i n name en) : name ≠ [] := by
  rintro rfl
  have hnew := hm.new
  rw [hm.free] at hnew
  cases hnew

section
variable (hm : Made fs fs' d e i n name en) (hen : en = none ∨ en = some (dotEntries n d))
  (hs : StoredApart fs) (hlen : name.length < nameLen)
include hm hen hs hlen

theorem Made.apart : StoredApart fs' := by
  obtain ⟨hnew, -, -, lm, hlm, hlook⟩ := hm
  have htake : name.take (nameLen - 1) = name := List.take_of_length_le (Nat.le_pred_of_lt hlen)
  intro d' e' l' hl'
  rw [hlook] at hl'
  by_cases hn : d' = n
  · subst hn
    rw [update_self] at hl'
    rcases hen with rfl | rfl
    · cases hl'
    cases hl'
    exact dotEntries_distinct _ _
  rw [update_of_ne hn, setTable] at hl'
  by_cases hd : d' = d
  · subst hd
    rw [update_self] at hl'
    cases hl'
    rw [addTo, htake, name_update]
    exact (hs _ _ _ hlm).insert hnew
  · rw [update_of_ne hd] at hl'
    exact hs _ _ _ hl'

theorem Made.storesName : StoresName fs fs' d name := by
  obtain ⟨lm, hlm, hlm'⟩ := hm.table
  have hapart := hm.apart hen hs hlen
  have htake : name.take (nameLen - 1) = name := List.take_of_length_le (Nat.le_pred_of_lt hlen)
  rw [addTo, htake] at hlm'
  obtain ⟨hi, hfree⟩ := findEntry_lt hm.free
  refine ⟨⟨n, ?_, ?_⟩, fun other hother hnil _ => ?_, hapart⟩
  · have hdead := hm.dead
    rw [Fs.look] at hdead
    simpa using hdead
  · have hfind : findEntry (update e i ⟨n, name⟩) name = some i := by
      have := SlotMap.slot_of_key (hapart _ _ _ hlm') hi (by simpa using hm.name_ne)
      simpa [findEntry_eq] using this
    rw [entry_dir hlm', hfind]
    simp
  have hne : (e i).name ≠ other := hfree.trans_ne hnil.symm
  rw [entry_dir hlm', entry_dir hlm, findEntry_update hne hother.symm]
  cases hfind : findEntry e other with
  | none => rfl
  | some j =>
    have hji : j ≠ i := by
      rintro rfl
      exact hne (findEntry_lt hfind).2
    simp only [update_of_ne hji]

end

/-- A call that succeeds stores its name if and only if the name is at most 27 bytes long; one of 28
bytes is cut. -/
theorem storesName_iff {c : NewCall} (h : Home fs cwd) (hs : StoredApart fs) (hd : fs.parent cwd c.path = .ok d)
    (hok : c.Succeeds cwd fs fs') : StoresName fs fs' d c.name ↔ c.name.length < nameLen := by
  obtain ⟨d', e, i, n, en, hd', hm, hen⟩ := c.made h hok
  rw [hd] at hd'
  cases hd'
  constructor
  · rintro ⟨⟨k, -, hfirst⟩, -⟩
    by_contra hlen
    obtain ⟨lm, -, hlm'⟩ := hm.table
    rw [entry_dir hlm', findEntry_cut hm.new hm.free (not_lt.1 hlen)] at hfirst
    cases hfirst
  · exact hm.storesName hen hs

theorem Sound.apart (hs : Sound fs) : StoredApart fs := by
  intro d e l hl
  obtain ⟨nd, hnd, hen, -⟩ := node_of_look hl
  exact (hs.dir hnd (Mem.entries_some.1 hen)).distinct

theorem storesName_mkdir : ∃ fs', (NewCall.mkdir [slash, 97] true).Succeeds rootVn mounted fs' ∧
    StoresName mounted fs' 0 [97] :=
  ⟨_, rfl, (storesName_iff (c := .mkdir [slash, 97] true) home_mounted mounted_sound.apart rfl rfl).2 (by decide)⟩

/-- A directory with a name of 28 bytes can be made twice: it is never found, and two entries have the
same name. -/
theorem long_name_twice : ∃ fs₁ fs₂, doMkdir rootVn (slash :: List.replicate 28 97) true mounted = .ok 0 fs₁ ∧
    fs₁.entry 0 (List.replicate 28 97) = .error .enoent ∧
      doMkdir rootVn (slash :: List.replicate 28 97) true fs₁ = .ok 0 fs₂ ∧ ¬ StoredApart fs₂ := by
  refine ⟨_, _, rfl, rfl, rfl, fun hapart => ?_⟩
  have := hapart 0 _ _ rfl 2 (by decide) 3 (by decide) rfl (by decide)
  exact absurd this (by decide)

end Names

end Weenix.Vfs
