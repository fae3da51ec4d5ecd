import Weenix.Lib.Run
import Weenix.Lib.SlotMap
import Weenix.Proofs.RamfsCalls

/-! Each directory of ramfs is a finite map from names to inode numbers, over every sequence of
the calls of ramfs and of references taken and dropped between them. -/

namespace Weenix.Vfs

open Function Exec Fs

open SlotMap (Distinct used)

/-- What is looked up in a directory: the entries in use have names. -/
def lookupIn (e : ℕ → Dirent) (name : CStr) : Option ℕ :=
  if name = [] then none else (findEntry e name).map fun i => (e i).ino

/-- The directories, each a map from names to inode numbers. -/
abbrev Dirs := ℕ → Option (CStr → Option ℕ)

def Fs.dirs (fs : Fs) : Dirs := fun d => (fs.inodes d).bind fun i => i.mem.entries.map lookupIn

def Dirs.bind (t : Dirs) (d : ℕ) (name : CStr) (n : ℕ) : Dirs :=
  update t d ((t d).map fun m => update m name (some n))

def Dirs.unbind (t : Dirs) (d : ℕ) (name : CStr) : Dirs :=
  update t d ((t d).map fun m => update m name none)

def dots (self parent : ℕ) (name : CStr) : Option ℕ :=
  if name = [dot] then some self else if name = [dot, dot] then some parent else none

inductive Call
  | create (dir : VPtr) (name : CStr) (memory : Bool)
  | mknod (dir : VPtr) (name : CStr) (mode devid : ℕ) (memory : Bool)
  | mkdir (dir : VPtr) (name : CStr) (memory : Bool)
  | link (old dir : VPtr) (name : CStr)
  | unlink (dir : VPtr) (name : CStr)
  | rmdir (dir : VPtr) (name : CStr)
  | lookup (dir : VPtr) (name : CStr)
  | vref (p : VPtr)
  | vput (p : VPtr)

abbrev Result := Except Errno (Option VPtr)

def Call.exec : Call → FsM Result
  | create dir name memory => do return (← ramfsCreate dir name memory).map some
  | mknod dir name mode devid memory => do return (← ramfsMknod dir name mode devid memory).map fun _ => none
  | mkdir dir name memory => do return (← ramfsMkdir dir name memory).map fun _ => none
  | link old dir name => do return (← ramfsLink old dir name).map fun _ => none
  | unlink dir name => do return (← ramfsUnlink dir name).map fun _ => none
  | rmdir dir name => do return (← ramfsRmdir dir name).map fun _ => none
  | lookup dir name => do return (← ramfsLookup dir name).map some
  | vref p => do
    Vfs.vref p
    return .ok none
  | vput p => do
    Vfs.vput p
    return .ok none

/-- The name is one to twenty-seven bytes long. -/
def Call.NameOk : Call → Prop
  | create _ name _ | mknod _ name _ _ _ | mkdir _ name _ | link _ _ name | unlink _ name | rmdir _ name |
    lookup _ name => 0 < name.length ∧ name.length ≤ 27
  | vref _ | vput _ => True

/-- The directory and the new name of a call that adds one, and whether it makes an inode. -/
def Call.adds : Call → Option (VPtr × CStr × Bool)
  | create dir name _ | mknod dir name _ _ _ | mkdir dir name _ => some (dir, name, true)
  | link _ dir name => some (dir, name, false)
  | _ => none

def Full (m : CStr → Option ℕ) : Prop := ∃ names : Finset CStr, names.card = maxDirent ∧ ∀ x ∈ names, m x ≠ none

/-- What a call that returns `r` may do to the directories. -/
inductive DirStep (t : Dirs) : Call → Result → Dirs → Prop
  | found {dir name m n p} : t dir.vno = some m → m name = some n → p.vno = n →
      DirStep t (.lookup dir name) (.ok (some p)) t
  | missing {dir name m} : t dir.vno = some m → m name = none → DirStep t (.lookup dir name) (.error .enoent) t
  | create {dir name memory m p} : t dir.vno = some m → m name = none → t p.vno = none →
      DirStep t (.create dir name memory) (.ok (some p)) (t.bind dir.vno name p.vno)
  | mknod {dir name mode devid memory m n} : t dir.vno = some m → m name = none → t n = none →
      DirStep t (.mknod dir name mode devid memory) (.ok none) (t.bind dir.vno name n)
  | mkdir {dir name memory m n} : t dir.vno = some m → m name = none → t n = none →
      DirStep t (.mkdir dir name memory) (.ok none)
        (update (t.bind dir.vno name n) n (some (dots n dir.vno)))
  | link {old dir name m} : t dir.vno = some m → m name = none →
      DirStep t (.link old dir name) (.ok none) (t.bind dir.vno name old.vno)
  | unlink {dir name m n} : t dir.vno = some m → m name = some n → t n = none →
      DirStep t (.unlink dir name) (.ok none) (t.unbind dir.vno name)
  /-- The removed directory is gone as soon as nothing refers to it. -/
  | rmdir {dir name m n m' t'} : t dir.vno = some m → m name = some n → n ≠ dir.vno → t n = some m' →
      (∀ x, m' x ≠ none → x = [dot] ∨ x = [dot, dot]) →
      t' = t.unbind dir.vno name ∨ t' = update (t.unbind dir.vno name) n none →
      DirStep t (.rmdir dir name) (.ok none) t'
  | vref {p} : DirStep t (.vref p) (.ok none) t
  | vput {p t'} : t' = t ∨ t' = update t p.vno none → DirStep t (.vput p) (.ok none) t'
  /-- There is no space for the new name; for a link that means that the directory is full. -/
  | noSpace {c dir name makes m} : c.adds = some (dir, name, makes) → t dir.vno = some m → m name = none →
      (makes = false → Full m) → DirStep t c (.error .enospc) t
  | rmdirMissing {dir name m} : t dir.vno = some m → m name = none → DirStep t (.rmdir dir name) (.error .enoent) t
  | rmdirFile {dir name m n} : t dir.vno = some m → m name = some n → t n = none →
      DirStep t (.rmdir dir name) (.error .enotdir) t
  | rmdirUsed {dir name m n m' x} : t dir.vno = some m → m name = some n → t n = some m' →
      m' x ≠ none → x ≠ [dot] → x ≠ [dot, dot] → DirStep t (.rmdir dir name) (.error .enotempty) t

/-- The entries in use have different names, and the size counts them. -/
structure DirOk (e : ℕ → Dirent) (size : ℤ) : Prop where
  distinct : Distinct maxDirent [] fun i => (e i).name
  size_eq : size = direntSize * used maxDirent [] fun i => (e i).name

theorem lookupIn_eq (e : ℕ → Dirent) :
    lookupIn e = SlotMap.toMap maxDirent [] (fun i => (e i).name) fun i => (e i).ino := rfl

theorem findEntry_eq (e : ℕ → Dirent) (name : CStr) :
    findEntry e name = SlotMap.slot maxDirent (fun i => (e i).name) name := rfl

theorem name_update (e : ℕ → Dirent) (i : ℕ) (x : Dirent) :
    (fun j => (update e i x j).name) = update (fun j => (e j).name) i x.name := by
  funext j
  by_cases hj : j = i
  · subst hj
    simp
  · simp [hj]

theorem ino_update (e : ℕ → Dirent) (i : ℕ) (x : Dirent) :
    (fun j => (update e i x j).ino) = update (fun j => (e j).ino) i x.ino := by
  funext j
  by_cases hj : j = i
  · subst hj
    simp
  · simp [hj]

section Entries

variable {e : ℕ → Dirent} {size : ℤ} {i : ℕ} {name : CStr}

theorem lookupIn_enter (hd : Distinct maxDirent [] fun j => (e j).name) (ino : ℕ) (hnew : findEntry e name = none)
    (hi : i < maxDirent) (hkey : (e i).name = []) (hname : name ≠ []) :
    lookupIn (update e i ⟨ino, name⟩) = update (lookupIn e) name (some ino) := by
  rw [lookupIn_eq, lookupIn_eq, name_update, ino_update]
  exact SlotMap.toMap_insert hd hi hkey hname hnew

theorem lookupIn_leave (hd : Distinct maxDirent [] fun j => (e j).name) (hf : findEntry e name = some i) :
    lookupIn (update e i ⟨(e i).ino, []⟩) = update (lookupIn e) name none := by
  obtain ⟨hi, hkey⟩ := SlotMap.slot_some hf
  have hino : update (fun j => (e j).ino) i (e i).ino = fun j => (e j).ino := update_eq_self i _
  rw [lookupIn_eq, lookupIn_eq, name_update, ino_update, hino, SlotMap.toMap_erase hd hi, hkey]

theorem DirOk.enter (h : DirOk e size) (ino : ℕ) (hnew : findEntry e name = none) (hi : i < maxDirent)
    (hkey : (e i).name = []) (hname : name ≠ []) : DirOk (update e i ⟨ino, name⟩) (size + direntSize) ∧
      lookupIn (update e i ⟨ino, name⟩) = update (lookupIn e) name (some ino) := by
  refine ⟨⟨?_, ?_⟩, lookupIn_enter h.distinct ino hnew hi hkey hname⟩
  · rw [name_update]
    exact h.distinct.insert hnew
  · rw [name_update, SlotMap.used_insert hi hkey hname, h.size_eq]
    push_cast
    ring

theorem DirOk.leave (h : DirOk e size) (hf : findEntry e name = some i) (hname : name ≠ []) :
    DirOk (update e i ⟨(e i).ino, []⟩) (size - direntSize) ∧
      lookupIn (update e i ⟨(e i).ino, []⟩) = update (lookupIn e) name none := by
  obtain ⟨hi, hkey⟩ := SlotMap.slot_some hf
  refine ⟨⟨?_, ?_⟩, lookupIn_leave h.distinct hf⟩
  · rw [name_update]
    exact h.distinct.erase
  · have hu : used maxDirent [] (update (fun j => (e j).name) i []) + 1 = used maxDirent [] fun j => (e j).name :=
      SlotMap.used_erase hi (by simpa [hkey] using hname)
    rw [name_update, h.size_eq, ← hu]
    push_cast
    ring

theorem lookupIn_some_of_find (hname : name ≠ []) (hf : findEntry e name = some i) :
    lookupIn e name = some (e i).ino := by
  rw [lookupIn, if_neg hname, hf]
  rfl

theorem lookupIn_none_of_find (hf : findEntry e name = none) : lookupIn e name = none := by
  unfold lookupIn
  split
  · rfl
  rw [hf]
  rfl

theorem noEntries_ok : DirOk noEntries 0 := by
  refine ⟨fun i _ j _ _ h => absurd rfl h, ?_⟩
  simp [used, noEntries]

theorem lookupIn_noEntries : lookupIn noEntries = fun _ => none := by
  funext name
  by_cases hname : name = []
  · exact if_pos hname
  · exact lookupIn_none_of_find (SlotMap.slot_none.2 fun i _ => Ne.symm hname)

/-- A new directory. -/
theorem dotEntries_ok (self parent : ℕ) :
    DirOk (dotEntries self parent) (2 * direntSize) ∧ lookupIn (dotEntries self parent) = dots self parent := by
  have hnew : findEntry noEntries [dot] = none := SlotMap.slot_none.2 fun i _ => by simp [noEntries]
  obtain ⟨hone, hlook1⟩ := noEntries_ok.enter self hnew (i := 0) (by decide) rfl (by simp)
  have hnew' : findEntry (update noEntries 0 ⟨self, [dot]⟩) [dot, dot] = none := by
    rw [findEntry_eq, name_update, SlotMap.slot_none]
    intro i _
    by_cases hi : i = 0
    · subst hi
      simp
    · simp [hi, noEntries]
  obtain ⟨htwo, hlook2⟩ := hone.enter parent hnew' (i := 1) (by decide) (by simp [noEntries]) (by simp)
  have heq : dotEntries self parent =
      update (update noEntries 0 ⟨self, [dot]⟩) 1 ⟨parent, [dot, dot]⟩ := by
    funext i
    match i with
    | 0 | 1 => simp [dotEntries]
    | i + 2 => simp [dotEntries, noEntries]
  rw [heq]
  have hsize : 2 * direntSize = 0 + direntSize + direntSize := by ring
  refine ⟨hsize ▸ htwo, ?_⟩
  rw [hlook2, hlook1, lookupIn_noEntries]
  funext name
  by_cases h1 : name = [dot]
  · subst h1
    simp [dots]
  by_cases h2 : name = [dot, dot]
  · subst h2
    simp [dots]
  · simp [dots, h1, h2]

end Entries

theorem Fs.dirs_node (fs : Fs) (d : ℕ) : fs.dirs d = (fs.node d).bind fun nd => nd.mem.entries.map lookupIn := by
  simp [Fs.dirs, Fs.node, Option.bind_map]

section Dirs

variable {fs fs' : Fs} {d n : ℕ} {nd : Node} {e : ℕ → Dirent}

theorem dirs_congr (h : fs'.node = fs.node) : fs'.dirs = fs.dirs := by
  funext m
  rw [dirs_node, dirs_node, h]

theorem dirs_update {o : Option Node} (h : fs'.node = update fs.node d o) :
    fs'.dirs = update fs.dirs d (o.bind fun nd => nd.mem.entries.map lookupIn) := by
  funext m
  rw [dirs_node, h]
  by_cases hm : m = d
  · subst hm
    simp
  · simp [hm, dirs_node]

theorem dirs_of_dir (hd : fs.node d = some nd) (he : nd.mem = .dir e) : fs.dirs d = some (lookupIn e) := by
  rw [dirs_node, hd]
  simp [he, Mem.entries]

theorem dirs_of_not (hd : fs.node d = some nd) (hm : nd.mem.mode ≠ .dir) : fs.dirs d = none := by
  rw [dirs_node, hd]
  cases hmem : nd.mem with
  | dir e => exact absurd (Mem.mode_dir.2 ⟨e, hmem⟩) hm
  | _ => simp [hmem, Mem.entries]

theorem dirs_of_none (hd : fs.node d = none) : fs.dirs d = none := by
  rw [dirs_node, hd]
  rfl

theorem refs_congr (h : fs'.vnodes = fs.vnodes) : fs'.refs = fs.refs := by
  funext m
  simp [Fs.refs, h]

structure Sound (fs : Fs) : Prop where
  valid : fs.Valid
  dir : ∀ {d nd e}, fs.node d = some nd → nd.mem = .dir e → DirOk e nd.size
  /-- What has no link left is in use. -/
  used : ∀ {n nd}, fs.node n = some nd → nd.links = 0 → 0 < fs.refs n

section
variable (h : Sound fs)
include h

theorem Sound.grab : Sound (fs.grab n) := by
  refine ⟨h.valid.grab, fun hd he => ?_, fun {m nd} hm hl => ?_⟩
  · rw [grab_node] at hd
    exact h.dir hd he
  rw [grab_node] at hm
  have hm' := h.used hm hl
  by_cases hn : (fs.node n).isSome
  · rw [grab_refs hn]
    by_cases hmn : m = n
    · subst hmn
      rw [update_self]
      omega
    · rwa [update_of_ne hmn]
  rw [node_isSome, Option.not_isSome_iff_eq_none] at hn
  have hcore : fs.vnodes n = none := by
    by_contra hc
    obtain ⟨v, hw⟩ := Option.ne_none_iff_exists'.1 hc
    obtain ⟨-, -, i, hi, -⟩ := h.valid.vnode hw
    rw [hn] at hi
    cases hi
  rwa [grab_eq_of_dead hcore hn]

/-- One node changes; it is a sound directory if it is one, and is in use or has links left. -/
theorem Sound.update (hv : fs'.Valid) (hn : fs'.node = update fs.node n (some nd))
    (hr : ∀ m, m ≠ n → fs'.refs m = fs.refs m) (hdir : ∀ e, nd.mem = .dir e → DirOk e nd.size)
    (huse : nd.links = 0 → 0 < fs'.refs n) : Sound fs' := by
  refine ⟨hv, fun {d nd' e} hd he => ?_, fun {m nd'} hm hl => ?_⟩
  · rw [hn] at hd
    by_cases hdn : d = n
    · subst hdn
      rw [update_self] at hd
      cases hd
      exact hdir e he
    · rw [update_of_ne hdn] at hd
      exact h.dir hd he
  rw [hn] at hm
  by_cases hmn : m = n
  · subst hmn
    rw [update_self] at hm
    cases hm
    exact huse hl
  · rw [update_of_ne hmn] at hm
    rw [hr m hmn]
    exact h.used hm hl

theorem Sound.release (hp : 0 < fs.refs n) : Sound (fs.release n) := by
  refine ⟨h.valid.release, fun {d nd e} hd he => ?_, fun {m nd} hm hl => ?_⟩
  · by_cases hdy : fs.Dying n
    · rw [release_node_of_dying hdy] at hd
      have hdn : d ≠ n := by
        rintro rfl
        rw [update_self] at hd
        cases hd
      rw [update_of_ne hdn] at hd
      exact h.dir hd he
    · rw [release_node_of_not h.valid hp hdy] at hd
      exact h.dir hd he
  rw [release_refs h.valid hp]
  by_cases hdy : fs.Dying n
  · rw [release_node_of_dying hdy] at hm
    have hmn : m ≠ n := by
      rintro rfl
      rw [update_self] at hm
      cases hm
    rw [update_of_ne hmn] at hm ⊢
    exact h.used hm hl
  rw [release_node_of_not h.valid hp hdy] at hm
  by_cases hmn : m = n
  · subst hmn
    rw [update_self]
    have : fs.refs m ≠ 1 := fun h1 => hdy ⟨h1, nd, hm, hl⟩
    omega
  · rw [update_of_ne hmn]
    exact h.used hm hl

/-- Writing an entry binds its name. -/
theorem Sound.enter (hd : fs.node d = some nd) (he : nd.mem = .dir e) (ino : ℕ) {i : ℕ} {name : CStr}
    (hnew : findEntry e name = none) (hfree : findEntry e [] = some i) (hlen : 0 < name.length ∧ name.length ≤ 27) :
    Sound (fs.enter d i ino name) ∧ (fs.enter d i ino name).dirs = fs.dirs.bind d name ino := by
  obtain ⟨hv, hvn, hn⟩ := enter_spec h.valid hd he i ino name
  have htake : name.take (nameLen - 1) = name := List.take_of_length_le hlen.2
  have hne : name ≠ [] := List.ne_nil_of_length_pos hlen.1
  obtain ⟨hi, hkey⟩ := SlotMap.slot_some hfree
  obtain ⟨hok, hlook⟩ := (h.dir hd he).enter ino hnew hi hkey hne
  rw [htake] at hn
  refine ⟨h.update hv hn (fun m _ => by rw [refs_congr hvn]) ?_ ?_, ?_⟩
  · intro e' he'
    obtain rfl := Mem.dir.inj he'
    exact hok
  · rw [refs_congr hvn]
    exact fun hl => h.used hd hl
  · rw [dirs_update hn, Dirs.bind, dirs_of_dir hd he]
    simp [Mem.entries, hlook]

/-- Freeing an entry unbinds its name. -/
theorem Sound.leave (hd : fs.node d = some nd) (he : nd.mem = .dir e) {i : ℕ} {name : CStr}
    (hf : findEntry e name = some i) (hne : name ≠ []) :
    Sound (fs.leave d i) ∧ (fs.leave d i).dirs = fs.dirs.unbind d name := by
  obtain ⟨hv, hvn, hn⟩ := leave_spec h.valid hd he i
  obtain ⟨hok, hlook⟩ := (h.dir hd he).leave hf hne
  refine ⟨h.update hv hn (fun m _ => by rw [refs_congr hvn]) ?_ ?_, ?_⟩
  · intro e' he'
    obtain rfl := Mem.dir.inj he'
    exact hok
  · rw [refs_congr hvn]
    exact fun hl => h.used hd hl
  · rw [dirs_update hn, Dirs.unbind, dirs_of_dir hd he]
    simp [Mem.entries, hlook]

theorem Sound.relink (hp : 0 < fs.refs n) (k : ℤ) : Sound (fs.relink n k) ∧ (fs.relink n k).dirs = fs.dirs := by
  obtain ⟨nd, hd⟩ := h.valid.live hp
  obtain ⟨hv, hvn, hn⟩ := relink_spec h.valid hd k
  refine ⟨h.update hv hn (fun m _ => by rw [refs_congr hvn]) ?_ ?_, ?_⟩
  · intro e he
    have hok : DirOk e nd.size := h.dir hd he
    exact hok
  · rw [refs_congr hvn]
    exact fun _ => hp
  · rw [dirs_update hn, ← update_eq_self n fs.dirs, dirs_node fs n, hd]
    simp

theorem dirs_release (hp : 0 < fs.refs n) :
    (fs.release n).dirs = fs.dirs ∨ (fs.release n).dirs = update fs.dirs n none := by
  by_cases hdy : fs.Dying n
  · exact .inr (dirs_update (release_node_of_dying hdy))
  · exact .inl (dirs_congr (release_node_of_not h.valid hp hdy))

/-- A fresh inode is no directory yet. -/
theorem Sound.alloc (hf : fs.freeInode = some n) (mem : Mem)
    (hm : ∀ e, mem = .dir e → DirOk e 0) : Sound (fs.alloc n mem) := by
  obtain ⟨hv, hvn, -, hn⟩ := alloc_spec h.valid hf mem
  exact h.update hv hn (fun m _ => by rw [refs_congr hvn]) hm (fun hl => absurd hl one_ne_zero)

end

end Dirs

section Calls

variable {fs fs' : Fs} {dir : VPtr} {name : CStr} {memory : Bool}

theorem dirs_freeInode {n : ℕ} (h : fs.freeInode = some n) : fs.dirs n = none :=
  dirs_of_none (node_none.2 (freeInode_some h).2)

theorem dirs_alloc {n : ℕ} {mem : Mem} (h : Sound fs) (hf : fs.freeInode = some n) (hm : mem.entries = none) :
    (fs.alloc n mem).dirs = fs.dirs := by
  obtain ⟨-, -, -, hn⟩ := alloc_spec h.valid hf mem
  rw [dirs_update hn]
  simp [hm, ← dirs_freeInode hf]

/-- A name for a new inode that is no directory. -/
theorem newName_step (h : Sound fs) (hlen : 0 < name.length ∧ name.length ≤ 27) {e : ℕ → Dirent} {i ino : ℕ} {mem : Mem}
    (he : fs.Dir dir e) (hnew : findEntry e name = none) (hroom : fs.Room e memory i ino) (hmem : mem.entries = none)
    {fs1 : Fs} (hs : Sound fs1) (hn : fs1.node = (fs.alloc ino mem).node) :
    Sound (fs1.enter dir.vno i ino name) ∧ (fs1.enter dir.vno i ino name).dirs = fs.dirs.bind dir.vno name ino := by
  obtain ⟨hfree, hino, -⟩ := hroom
  obtain ⟨nd, hd, hm⟩ := he.node
  have hd' : fs1.node dir.vno = some nd := by
    rw [hn, (alloc_spec h.valid hino _).2.2.2, update_of_ne (he.ne_freeInode hino)]
    exact hd
  obtain ⟨hs', hdirs⟩ := hs.enter hd' hm ino hnew hfree hlen
  refine ⟨hs', ?_⟩
  rw [hdirs, dirs_congr hn, dirs_alloc h hino hmem]

theorem create_step (h : Sound fs) (hlen : 0 < name.length ∧ name.length ≤ 27) {r : Except Errno VPtr}
    (hc : ramfsCreate dir name memory fs = .ok r fs') :
    Sound fs' ∧ DirStep fs.dirs (.create dir name memory) (r.map some) fs'.dirs := by
  obtain ⟨e, he, hnew, hc⟩ := (ramfsCreate_ok h.valid).1 hc
  obtain ⟨nd, hd, hm⟩ := he.node
  obtain ⟨-, rfl, rfl⟩ | ⟨i, ino, hroom, rfl, rfl⟩ := hc
  · exact ⟨h, .noSpace rfl (dirs_of_dir hd hm) (lookupIn_none_of_find hnew) nofun⟩
  have hs := (h.alloc hroom.2.1 (.data fun _ => 0) nofun).grab (n := ino)
  obtain ⟨hs', hdirs⟩ := newName_step h hlen he hnew hroom rfl hs grab_node
  refine ⟨hs', ?_⟩
  rw [hdirs]
  exact .create (dirs_of_dir hd hm) (lookupIn_none_of_find hnew) (dirs_freeInode hroom.2.1)

theorem specialMem_entries {mode devid : ℕ} {mem : Mem} (h : specialMem mode devid = some mem) : mem.entries = none := by
  unfold specialMem at h
  split at h
  · cases h
    rfl
  split at h
  · cases h
    rfl
  · cases h

theorem mknod_step (h : Sound fs) (hlen : 0 < name.length ∧ name.length ≤ 27) {mode devid : ℕ} {r : Except Errno Unit}
    (hc : ramfsMknod dir name mode devid memory fs = .ok r fs') :
    Sound fs' ∧ DirStep fs.dirs (.mknod dir name mode devid memory) (r.map fun _ => none) fs'.dirs := by
  obtain ⟨e, he, hnew, hc⟩ := (ramfsMknod_ok h.valid).1 hc
  obtain ⟨nd, hd, hm⟩ := he.node
  have hfull : DirStep fs.dirs (.mknod dir name mode devid memory) (.error .enospc) fs.dirs :=
    .noSpace rfl (dirs_of_dir hd hm) (lookupIn_none_of_find hnew) nofun
  cases hmem : specialMem mode devid with
  | none =>
    rw [hmem] at hc
    obtain ⟨-, rfl, rfl⟩ := hc
    exact ⟨h, hfull⟩
  | some mem =>
    rw [hmem] at hc
    obtain ⟨-, rfl, rfl⟩ | ⟨i, ino, hroom, rfl, rfl⟩ := hc
    · exact ⟨h, hfull⟩
    have hents := specialMem_entries hmem
    have hs := h.alloc hroom.2.1 mem fun e' he' => by
      rw [he'] at hents
      cases hents
    obtain ⟨hs', hdirs⟩ := newName_step h hlen he hnew hroom hents hs rfl
    refine ⟨hs', ?_⟩
    rw [hdirs]
    exact .mknod (dirs_of_dir hd hm) (lookupIn_none_of_find hnew) (dirs_freeInode hroom.2.1)

theorem lookupIn_slot {e : ℕ → Dirent} {i : ℕ} (hi : i < maxDirent) (hname : (e i).name ≠ []) :
    lookupIn e (e i).name ≠ none := by
  cases hf : findEntry e (e i).name with
  | none => exact absurd rfl (SlotMap.slot_none.1 hf i hi)
  | some j =>
    rw [lookupIn_some_of_find hname hf]
    exact Option.some_ne_none _

theorem full_of_find {e : ℕ → Dirent} {size : ℤ} (h : DirOk e size) (hf : findEntry e [] = none) : Full (lookupIn e) := by
  have hused := SlotMap.slot_none.1 hf
  refine ⟨(Finset.range maxDirent).image fun i => (e i).name, ?_, fun x hx => ?_⟩
  · rw [Finset.card_image_of_injOn, Finset.card_range]
    intro i hi j hj hij
    rw [Finset.coe_range] at hi hj
    exact h.distinct i hi j hj hij (hused i hi)
  obtain ⟨i, hi, rfl⟩ := Finset.mem_image.1 hx
  exact lookupIn_slot (Finset.mem_range.1 hi) (hused i (Finset.mem_range.1 hi))

theorem link_step (h : Sound fs) (hlen : 0 < name.length ∧ name.length ≤ 27) {old : VPtr} {r : Except Errno Unit}
    (hc : ramfsLink old dir name fs = .ok r fs') :
    Sound fs' ∧ DirStep fs.dirs (.link old dir name) (r.map fun _ => none) fs'.dirs := by
  obtain ⟨hp, e, he, hnew, hc⟩ := (ramfsLink_ok h.valid).1 hc
  obtain ⟨nd, hd, hm⟩ := he.node
  obtain ⟨hfree, rfl, rfl⟩ | ⟨i, hfree, rfl, rfl⟩ := hc
  · exact ⟨h, .noSpace rfl (dirs_of_dir hd hm) (lookupIn_none_of_find hnew) fun _ => full_of_find (h.dir hd hm) hfree⟩
  obtain ⟨hs, hdirs⟩ := h.enter hd hm old.vno hnew hfree hlen
  have hr : 0 < (fs.enter dir.vno i old.vno name).refs old.vno := by
    rw [refs_congr (enter_spec h.valid hd hm i old.vno name).2.1]
    exact hp.refs_pos h.valid
  obtain ⟨hs', hdirs'⟩ := hs.relink hr 1
  refine ⟨hs', ?_⟩
  rw [hdirs', hdirs]
  exact .link (dirs_of_dir hd hm) (lookupIn_none_of_find hnew)

/-- The name goes; what it named goes with it when nothing else keeps it. -/
theorem remove_step (h : Sound fs) {e : ℕ → Dirent} {i n : ℕ} (he : fs.Dir dir e) (hf : findEntry e name = some i)
    (hne : name ≠ []) (hl : (fs.node n).isSome) : Sound (fs.remove dir.vno i n) ∧
      ((fs.remove dir.vno i n).dirs = fs.dirs.unbind dir.vno name ∨
        (fs.remove dir.vno i n).dirs = update (fs.dirs.unbind dir.vno name) n none) := by
  obtain ⟨nd, hd, hm⟩ := he.node
  have hd' : (fs.grab n).node dir.vno = some nd := by
    rw [grab_node]
    exact hd
  obtain ⟨hs1, hdirs1⟩ := (h.grab (n := n)).leave hd' hm hf hne
  have hr1 : 0 < ((fs.grab n).leave dir.vno i).refs n := by
    rw [refs_congr (leave_spec (h.grab (n := n)).valid hd' hm i).2.1, grab_refs hl, update_self]
    exact Nat.succ_pos _
  obtain ⟨hs2, hdirs2⟩ := hs1.relink hr1 (-1)
  have hr2 : 0 < (((fs.grab n).leave dir.vno i).relink n (-1)).refs n := by
    obtain ⟨nd', hn'⟩ := hs1.valid.live hr1
    rw [refs_congr (relink_spec hs1.valid hn' (-1)).2.1]
    exact hr1
  refine ⟨hs2.release hr2, ?_⟩
  have hrel := dirs_release hs2 hr2
  rw [hdirs2, hdirs1, dirs_congr grab_node] at hrel
  exact hrel

theorem unlink_step (h : Sound fs) (hne : name ≠ []) {r : Except Errno Unit}
    (hc : ramfsUnlink dir name fs = .ok r fs') :
    Sound fs' ∧ DirStep fs.dirs (.unlink dir name) (r.map fun _ => none) fs'.dirs := by
  obtain ⟨e, i, nd', he, hf, hn, hmode, rfl, rfl⟩ := (ramfsUnlink_ok h.valid).1 hc
  obtain ⟨nd, hd, hm⟩ := he.node
  obtain ⟨hs, hdirs⟩ := remove_step h he hf hne (by rw [hn]; rfl)
  have hdn : (e i).ino ≠ dir.vno := by
    intro hdn
    rw [hdn, hd] at hn
    cases hn
    exact hmode (Mem.mode_dir.2 ⟨e, hm⟩)
  have hnone : fs.dirs (e i).ino = none := dirs_of_not hn hmode
  refine ⟨hs, ?_⟩
  have hsame : update (fs.dirs.unbind dir.vno name) (e i).ino none = fs.dirs.unbind dir.vno name := by
    rw [update_eq_self_iff, Dirs.unbind, update_of_ne hdn, hnone]
  rw [hsame, or_self] at hdirs
  rw [hdirs]
  exact .unlink (dirs_of_dir hd hm) (lookupIn_some_of_find hne hf) hnone

theorem dirEmpty_lookup {e : ℕ → Dirent} (h : dirEmpty e = true) (x : CStr) (hx : lookupIn e x ≠ none) :
    x = [dot] ∨ x = [dot, dot] := by
  by_cases hx0 : x = []
  · exact absurd (if_pos hx0) hx
  cases hf : findEntry e x with
  | none => exact absurd (lookupIn_none_of_find hf) hx
  | some j =>
    obtain ⟨hj, hkey⟩ := SlotMap.slot_some hf
    have := List.all_eq_true.1 h j (List.mem_range.2 hj)
    simp only [hkey, Bool.or_eq_true, decide_eq_true_eq] at this
    tauto

theorem lookup_of_not_dirEmpty {e : ℕ → Dirent} (h : dirEmpty e = false) :
    ∃ x, lookupIn e x ≠ none ∧ x ≠ [dot] ∧ x ≠ [dot, dot] := by
  obtain ⟨j, hj, hbad⟩ := List.all_eq_false.1 h
  simp only [Bool.or_eq_true, decide_eq_true_eq, not_or] at hbad
  exact ⟨(e j).name, lookupIn_slot (List.mem_range.1 hj) hbad.2, hbad.1⟩

theorem rmdir_step (h : Sound fs) (hne : name ≠ []) {r : Except Errno Unit} (hc : ramfsRmdir dir name fs = .ok r fs') :
    Sound fs' ∧ DirStep fs.dirs (.rmdir dir name) (r.map fun _ => none) fs'.dirs := by
  obtain ⟨⟨hd1, hd2⟩, e, he, hc⟩ := (ramfsRmdir_ok h.valid).1 hc
  obtain ⟨nd, hd, hm⟩ := he.node
  obtain ⟨hf, rfl, rfl⟩ | ⟨i, nd', hf, hn, hcase⟩ := hc
  · exact ⟨h, .rmdirMissing (dirs_of_dir hd hm) (lookupIn_none_of_find hf)⟩
  have hlook := lookupIn_some_of_find hne hf
  -- a reference taken and dropped again leaves every directory as it was
  have hback : Sound ((fs.grab (e i).ino).release (e i).ino) ∧
      ((fs.grab (e i).ino).release (e i).ino).dirs = fs.dirs := by
    have hl : (fs.node (e i).ino).isSome := by rw [hn]; rfl
    have hg := h.grab (n := (e i).ino)
    have hr : 0 < (fs.grab (e i).ino).refs (e i).ino := by
      rw [grab_refs hl, update_self]
      exact Nat.succ_pos _
    refine ⟨hg.release hr, ?_⟩
    have hdy : ¬ (fs.grab (e i).ino).Dying (e i).ino := by
      rintro ⟨h1, nd'', hn'', hl0⟩
      rw [grab_refs hl, update_self] at h1
      rw [grab_node] at hn''
      have := h.used hn'' hl0
      omega
    rw [dirs_congr (release_node_of_not hg.valid hr hdy), dirs_congr grab_node]
  obtain ⟨hmode, rfl, rfl⟩ | ⟨e', he', ⟨hempty, rfl, rfl⟩ | ⟨hused, rfl, rfl⟩⟩ := hcase
  · refine ⟨hback.1, ?_⟩
    rw [hback.2]
    exact .rmdirFile (dirs_of_dir hd hm) hlook (dirs_of_not hn hmode)
  · obtain ⟨hs, hdirs⟩ := remove_step h he hf hne (by rw [hn]; rfl)
    have hdn : (e i).ino ≠ dir.vno := by
      intro hdn
      rw [hdn, hd] at hn
      cases hn
      obtain rfl := Mem.dir.inj (hm.symm.trans he')
      rcases dirEmpty_lookup hempty name (by rw [hlook]; simp) with h' | h'
      · exact hd1 h'
      · exact hd2 h'
    exact ⟨hs, .rmdir (dirs_of_dir hd hm) hlook hdn (dirs_of_dir hn he') (dirEmpty_lookup hempty) hdirs⟩
  · refine ⟨hback.1, ?_⟩
    rw [hback.2]
    obtain ⟨x, hx, hx1, hx2⟩ := lookup_of_not_dirEmpty hused
    exact .rmdirUsed (dirs_of_dir hd hm) hlook (dirs_of_dir hn he') hx hx1 hx2

theorem mkdir_step (h : Sound fs) (hlen : 0 < name.length ∧ name.length ≤ 27) {r : Except Errno Unit}
    (hc : ramfsMkdir dir name memory fs = .ok r fs') :
    Sound fs' ∧ DirStep fs.dirs (.mkdir dir name memory) (r.map fun _ => none) fs'.dirs := by
  obtain ⟨e, he, hnew, hc⟩ := (ramfsMkdir_ok h.valid).1 hc
  obtain ⟨nd, hd, hm⟩ := he.node
  obtain ⟨-, rfl, rfl⟩ | ⟨i, ino, ⟨hfree, hino, -⟩, rfl, rfl⟩ := hc
  · exact ⟨h, .noSpace rfl (dirs_of_dir hd hm) (lookupIn_none_of_find hnew) nofun⟩
  have hne := he.ne_freeInode hino
  obtain ⟨-, hvn1, hcore, hn1⟩ := alloc_spec h.valid hino (.dir noEntries)
  have hs1 := h.alloc hino (.dir noEntries) fun e' he' => by
    obtain rfl := Mem.dir.inj he'
    exact noEntries_ok
  have hd1 : (fs.alloc ino (.dir noEntries)).node dir.vno = some nd := by
    rw [hn1, update_of_ne hne]
    exact hd
  obtain ⟨hs2, hdirs2⟩ := hs1.enter hd1 hm ino hnew hfree hlen
  obtain ⟨-, hvn2, hn2⟩ := enter_spec hs1.valid hd1 hm i ino name
  -- the inode that was just allocated gets its entries
  have hino2 : ((fs.alloc ino (.dir noEntries)).enter dir.vno i ino name).node ino =
      some ⟨.dir noEntries, 0, 1⟩ := by
    rw [hn2, update_of_ne (Ne.symm hne), hn1, update_self]
  obtain ⟨j, hj, hjn⟩ := node_some.1 hino2
  have hmem : j.mem = .dir noEntries := (congrArg Node.mem hjn).symm
  have hv3 : (((fs.alloc ino (.dir noEntries)).enter dir.vno i ino name).setInode ino
      (some ⟨2 * direntSize, ino, .dir (dotEntries ino dir.vno), 1⟩)).Valid :=
    hs2.valid.setInode hj (hs2.valid.inode hj).1.symm (by rw [hmem]; rfl)
  obtain ⟨hok, hlook⟩ := dotEntries_ok ino dir.vno
  have hcore2 : ((fs.alloc ino (.dir noEntries)).enter dir.vno i ino name).vnodes ino = none := by
    rw [hvn2, hvn1, hcore]
  refine ⟨hs2.update hv3 setInode_node (fun _ _ => rfl) ?_ ?_, ?_⟩
  · intro e' he'
    obtain rfl := Mem.dir.inj he'
    exact hok
  · intro hl
    rw [hcore2] at hl
    cases hl
  rw [dirs_update setInode_node, hdirs2]
  have hbind : update ((fs.alloc ino (.dir noEntries)).dirs.bind dir.vno name ino) ino
      (some (dots ino dir.vno)) = update (fs.dirs.bind dir.vno name ino) ino (some (dots ino dir.vno)) := by
    unfold Dirs.bind
    rw [dirs_update hn1, update_of_ne hne, update_comm hne, update_idem,
      update_comm hne]
  simp only [Option.bind_some, Mem.entries, Option.map_some, hlook, hbind]
  exact .mkdir (dirs_of_dir hd hm) (lookupIn_none_of_find hnew) (dirs_freeInode hino)

theorem lookup_step (h : Sound fs) (hne : name ≠ []) {r : Except Errno VPtr} (hc : ramfsLookup dir name fs = .ok r fs') :
    Sound fs' ∧ DirStep fs.dirs (.lookup dir name) (r.map some) fs'.dirs := by
  obtain ⟨e, he, ⟨hf, rfl, rfl⟩ | ⟨i, hf, -, rfl, rfl⟩⟩ := (ramfsLookup_ok h.valid).1 hc
  · obtain ⟨nd, hd, hm⟩ := he.node
    exact ⟨h, .missing (dirs_of_dir hd hm) (lookupIn_none_of_find hf)⟩
  obtain ⟨nd, hd, hm⟩ := he.node
  refine ⟨h.grab, ?_⟩
  rw [dirs_congr grab_node]
  exact .found (dirs_of_dir hd hm) (lookupIn_some_of_find hne hf) ptr_vno

theorem exec_step (h : Sound fs) {c : Call} {r : Result} (hname : c.NameOk) (hc : c.exec fs = .ok r fs') :
    Sound fs' ∧ DirStep fs.dirs c r fs'.dirs := by
  have hne : ∀ {name : CStr}, 0 < name.length ∧ name.length ≤ 27 → name ≠ [] := fun hl =>
    List.ne_nil_of_length_pos hl.1
  cases c with
  | create dir name memory =>
    obtain ⟨r', h', rfl⟩ := bind_pure_iff.1 hc
    exact create_step h hname h'
  | mknod dir name mode devid memory =>
    obtain ⟨r', h', rfl⟩ := bind_pure_iff.1 hc
    exact mknod_step h hname h'
  | mkdir dir name memory =>
    obtain ⟨r', h', rfl⟩ := bind_pure_iff.1 hc
    exact mkdir_step h hname h'
  | link old dir name =>
    obtain ⟨r', h', rfl⟩ := bind_pure_iff.1 hc
    exact link_step h hname h'
  | unlink dir name =>
    obtain ⟨r', h', rfl⟩ := bind_pure_iff.1 hc
    exact unlink_step h (hne hname) h'
  | rmdir dir name =>
    obtain ⟨r', h', rfl⟩ := bind_pure_iff.1 hc
    exact rmdir_step h (hne hname) h'
  | lookup dir name =>
    obtain ⟨r', h', rfl⟩ := bind_pure_iff.1 hc
    exact lookup_step h (hne hname) h'
  | vref p =>
    obtain ⟨u, h', rfl⟩ := bind_pure_iff.1 hc
    obtain ⟨-, rfl⟩ := (vref_ok h.valid).1 h'
    refine ⟨h.grab, ?_⟩
    rw [dirs_congr grab_node]
    exact .vref
  | vput p =>
    obtain ⟨u, h', rfl⟩ := bind_pure_iff.1 hc
    obtain ⟨hp, rfl⟩ := (vput_ok h.valid).1 h'
    exact ⟨h.release (hp.refs_pos h.valid), .vput (dirs_release h (hp.refs_pos h.valid))⟩

theorem ramfsMount_empty : ramfsMount true Fs.empty = .ok (.ok rootVn) mounted := by
  have hrun : ramfsMount true Fs.empty = .ok (.ok rootVn) _ := rfl
  rw [hrun]
  simp only [mounted, Fs.setInode, Fs.setVnode, Fs.empty, update_idem]
  rfl

theorem mounted_node : mounted.node =
    update (fun _ => none) 0 (some ⟨.dir (dotEntries 0 0), 2 * direntSize, 1⟩) := by
  funext n
  by_cases hn : n = 0
  · subst hn
    simp [Fs.node, mounted]
  · simp [Fs.node, mounted, hn]

theorem mounted_valid : mounted.Valid := by
  refine ⟨fun {n i} hi => ?_, fun {n v} hw => ?_⟩
  · by_cases hn : n = 0
    · subst hn
      obtain rfl : _ = i := by simpa [mounted] using hi
      exact ⟨rfl, by decide⟩
    · simp [mounted, hn] at hi
  by_cases hn : n = 0
  · subst hn
    obtain rfl : _ = v := by simpa [mounted] using hw
    exact ⟨Nat.one_pos, Nat.one_pos, _, by simp [mounted]; rfl, rfl⟩
  · simp [mounted, hn] at hw

theorem mounted_sound : Sound mounted := by
  refine ⟨mounted_valid, fun {d nd e} hd he => ?_, fun {n nd} hn hl => ?_⟩
  · rw [mounted_node] at hd
    by_cases hd0 : d = 0
    · subst hd0
      obtain rfl : _ = nd := by simpa using hd
      obtain rfl := Mem.dir.inj he
      exact (dotEntries_ok 0 0).1
    · simp [hd0] at hd
  · rw [mounted_node] at hn
    by_cases hn0 : n = 0
    · subst hn0
      obtain rfl : _ = nd := by simpa using hn
      cases hl
    · simp [hn0] at hn

def CallStep (fs : Fs) (c : Call) (fs' : Fs) : Prop := c.NameOk ∧ ∃ r, c.exec fs = .ok r fs'

/-- In every state that calls lead to from a new file system, the directories are sound and every
further call that comes back treats them as maps. -/
theorem ramfs_dirs_are_maps {cs : List Call} {fs : Fs} (h : Runs.Run CallStep mounted cs fs) :
    (∀ d inode e, fs.inodes d = some inode → inode.mem = .dir e → DirOk e inode.size) ∧
      ∀ c r fs', c.NameOk → c.exec fs = .ok r fs' → DirStep fs.dirs c r fs'.dirs := by
  have hs : Sound fs := h.invariant mounted_sound fun s c s' hs ⟨hname, r, hc⟩ => (exec_step hs hname hc).1
  refine ⟨fun d inode e hd he => ?_, fun c r fs' hname hc => (exec_step hs hname hc).2⟩
  have hn : fs.node d = some _ := node_some.2 ⟨inode, hd, rfl⟩
  exact hs.dir hn he

/-- After `mkdir a`, `create b`, `link b c` and `unlink b`, the name `c` is found and is no directory. -/
theorem ramfs_dirs_are_maps_link : ∃ fs, Runs.Run CallStep mounted
      [.mkdir rootVn [97] true, .create rootVn [98] true, .link ⟨2, 1⟩ rootVn [99], .unlink rootVn [98]] fs ∧
    ((∃ fs', (Call.lookup rootVn [99]).exec fs = .ok (.ok (some ⟨2, 1⟩)) fs' ∧
        DirStep fs.dirs (.lookup rootVn [99]) (.ok (some ⟨2, 1⟩)) fs'.dirs) ∧
      ∃ fs', (Call.rmdir rootVn [99]).exec fs = .ok (.error .enotdir) fs' ∧
        DirStep fs.dirs (.rmdir rootVn [99]) (.error .enotdir) fs'.dirs) := by
  have hname : ∀ b : UInt8, 0 < [b].length ∧ [b].length ≤ 27 := fun b => ⟨Nat.one_pos, Nat.le_of_lt_succ (by simp)⟩
  have hrun : Runs.Run CallStep mounted
      [.mkdir rootVn [97] true, .create rootVn [98] true, .link ⟨2, 1⟩ rootVn [99], .unlink rootVn [98]] _ :=
    .snoc (.snoc (.snoc (.snoc .nil ⟨hname 97, _, rfl⟩) ⟨hname 98, _, rfl⟩) ⟨hname 99, _, rfl⟩) ⟨hname 98, _, rfl⟩
  have hmaps := (ramfs_dirs_are_maps hrun).2
  exact ⟨_, hrun, ⟨_, rfl, hmaps _ _ _ (hname 99) rfl⟩, _, rfl, hmaps _ _ _ (hname 99) rfl⟩

end Calls

end Weenix.Vfs
