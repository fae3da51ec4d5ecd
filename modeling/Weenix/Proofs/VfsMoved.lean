import Weenix.Proofs.VfsNet

/-! What is left by the calls on paths that come back: the references they hold, and how the
directories have changed. -/

namespace Weenix.Vfs

open Function Exec Fs

/-- What a call does to the directories. -/
inductive Change (h g : Fs) : Prop
  | same (hlook : g.look = h.look)
  /-- An entry is removed; what it named is freed if that was the last link and no one else has it in core. -/
  | removed (m i : ℕ) (e : ℕ → Dirent) (lm ln : ℤ) (en : Option (ℕ → Dirent)) (t : Option (Option (ℕ → Dirent) × ℤ))
      (slot : i < maxDirent) (used : (e i).name ≠ []) (kind : en = none ∨ (e i).name ≠ [dot] ∧ (e i).name ≠ [dot, dot])
      (apart : m ≠ (e i).ino) (hm : h.look m = some (some e, lm)) (hn : h.look (e i).ino = some (en, ln))
      (ht : t = some (en, ln - 1) ∨ t = none ∧ h.refs (e i).ino = 0 ∧ ln = 1)
      (hlook : g.look = update (setTable h.look m (update e i ⟨(e i).ino, []⟩) lm) (e i).ino t)
  /-- A file has one more name. -/
  | added (m i n : ℕ) (e : ℕ → Dirent) (name : CStr) (hadded : NameAdded h g m e i n name)
  /-- There is a new inode; a directory stays in core. -/
  | made (m i n : ℕ) (e : ℕ → Dirent) (name : CStr) (en : Option (ℕ → Dirent)) (hmade : Made h g m e i n name en)
      (kind : en = none ∨ en = some (dotEntries n m) ∧ 0 < g.refs n)

/-- The state after a call that comes back. -/
structure Moved (h g : Fs) : Prop where
  holds : Holds h g
  linked : g.Linked
  change : Change h g

section Calls

variable {fs base g g' : Fs} {m : ℕ} {cwd : VPtr} {path name : CStr} {r : ℤ}

/-- A call begins in a state with the same directories, in which one more reference may be held. -/
structure Begins (fs base : Fs) (cwd : VPtr) : Prop where
  home : Home base cwd
  holds : Holds fs base
  node : base.node = fs.node

theorem Begins.refl (h : Home fs cwd) : Begins fs fs cwd := ⟨h, .refl h.valid, rfl⟩

theorem Begins.grab {n : ℕ} (h : Home fs cwd) (hl : (fs.node n).isSome) : Begins fs (fs.grab n) cwd :=
  ⟨h.grab, .grab h.valid hl, grab_node⟩

theorem Begins.trans {base' : Fs} (h : Begins fs base cwd) (h' : Begins base base' cwd) : Begins fs base' cwd :=
  ⟨h'.home, h.holds.trans h'.holds, h'.node.trans h.node⟩

theorem Fs.Same.begins (hs : fs.Same g) (h : Home fs cwd) : Begins fs g cwd :=
  ⟨hs.home h, hs.holds h.valid, hs.node⟩

theorem Begins.same (hb : Begins fs base cwd) (hh : Holds base g) (hk : g.Linked) (hlook : g.look = base.look) :
    Moved fs g :=
  ⟨hb.holds.trans hh, hk, .same (hlook.trans (look_eq hb.node))⟩

theorem linked_same (h : base.Linked) (hv : base.Valid) (hh : Holds base g) (hlook : g.look = base.look) : g.Linked := by
  rw [linked_iff hv] at h
  rw [linked_iff hh.valid]
  intro n e l h0 hl
  rw [hlook] at hl
  have := hh.refs n
  exact h n e l (by omega) hl

theorem Begins.still (hb : Begins fs base cwd) (hh : Holds base g) (hlook : g.look = base.look) : Moved fs g :=
  hb.same hh (linked_same hb.home.linked hb.home.valid hh hlook) hlook

/-- What a walk has found, and the state it started in. -/
theorem Reaches.begins {res : FsM (Except Failure VPtr)} {safe : Prop} {x : Except Errno ℕ} (hr : Reaches res fs safe x)
    (h : Home fs cwd) {y : Except Failure VPtr} (hok : res fs = .ok y g) :
    ∃ base, Begins fs base cwd ∧ base.Walks x (y.mapError Failure.errno) g := by
  rcases hr.cases hok with ⟨-, hw⟩ | ⟨-, n, hl, hw⟩
  · exact ⟨fs, .refl h, hw⟩
  · exact ⟨fs.grab n, .grab h hl, hw⟩

theorem Reaches.after {α : Type} {res : FsM (Except Failure VPtr)} {safe : Prop} {x : Except Errno ℕ}
    (hr : Reaches res fs safe x) (h : Home fs cwd) (fail : Failure → α) (rest : VPtr → FsM α) {a : α}
    (hok : Vfs.after res fail rest fs = .ok a g) : ∃ base, Begins fs base cwd ∧
      ((∃ f, a = fail f ∧ base.Same g ∧ ∃ e, x = .error e) ∨
        ∃ m, x = .ok m ∧ (base.node m).isSome ∧ rest (base.ptr m) (base.grab m) = .ok a g) := by
  obtain ⟨y, g1, hy, hrest⟩ := bind_ok_iff.1 hok
  obtain ⟨base, hb, hw⟩ := hr.begins h hy
  refine ⟨base, hb, ?_⟩
  cases y with
  | error f =>
    obtain ⟨rfl, rfl⟩ := pure_ok_iff.1 hrest
    cases x with
    | error e => exact .inl ⟨f, rfl, hw.2, e, rfl⟩
    | ok m => cases hw.2.1
  | ok p =>
    cases x with
    | error e => cases hw.1
    | ok m =>
      obtain ⟨hl, hp, rfl⟩ := hw
      obtain rfl : p = base.ptr m := by simpa [Except.mapError] using hp
      exact .inr ⟨m, rfl, hl, hrest⟩

theorem Begins.of_same (hb : Begins fs base cwd) (hs : base.Same g) : Moved fs g :=
  hb.still (hs.holds hb.home.valid) (look_eq hs.node)

theorem Begins.removed {i : ℕ} {e : ℕ → Dirent} {en : Option (ℕ → Dirent)} {l : ℤ} (hb : Begins fs base cwd)
    (hh : Holds base g) (hr : Removed base g m e i) (hn : base.look (e i).ino = some (en, l)) (hused : (e i).name ≠ [])
    (kind : en = none ∨ (e i).name ≠ [dot] ∧ (e i).name ≠ [dot, dot]) : Moved fs g := by
  have hk := hr.linked hh hb.home.valid hb.home.linked
  obtain ⟨hslot, hne, lm, en', ln, hm, hn', hlook⟩ := hr
  rw [hn] at hn'
  cases hn'
  have heq := look_eq hb.node
  refine ⟨hb.holds.trans hh, hk, .removed m i e lm l en _ hslot hused kind hne (heq ▸ hm) (heq ▸ hn) ?_ (heq ▸ hlook)⟩
  unfold leftOf
  split_ifs with hc
  · have := hb.holds.refs (e i).ino
    exact .inr ⟨rfl, by omega, hc.2⟩
  · exact .inl rfl

theorem ramfsStat_same {p : VPtr} {stat : Stat} (hr : ramfsStat p fs = .ok stat g) : fs = g := by
  obtain ⟨i, g1, hi, hr⟩ := bind_ok_iff.1 hr
  obtain ⟨v, hv, -⟩ := bind_pure_iff.1 hr
  obtain ⟨-, rfl⟩ := need_ok.1 hi
  exact (need_ok.1 hv).2

theorem doUnlink_moved (h : Home fs cwd) (hname : baseName path ≠ []) (hr : doUnlink cwd path fs = .ok r g) :
    Moved fs g := by
  obtain ⟨base, hb, ⟨f, -, hs, -⟩ | ⟨m, -, hl, hrest⟩⟩ :=
    (dirNamev_reaches h path).after h (-·.errno.code) (unlinkAt · (baseName path)) hr
  · exact hb.of_same hs
  obtain ⟨hh, hlook | ⟨e, i, l, hi, hn, hremoved⟩⟩ := unlinkAt_net hb.home hl hrest
  · exact hb.still hh hlook
  · exact hb.removed hh hremoved hn (by rw [(findEntry_lt hi).2]; exact hname) (.inl rfl)

theorem doRmdir_moved (h : Home fs cwd) (hname : baseName path ≠ []) (hr : doRmdir cwd path fs = .ok r g) :
    Moved fs g := by
  unfold doRmdir at hr
  by_cases hpath : path = [dot]
  · rw [if_pos hpath] at hr
    obtain ⟨rfl, rfl⟩ := pure_ok_iff.1 hr
    exact (Begins.refl h).of_same (.refl fs)
  by_cases hpath' : path = [dot, dot]
  · rw [if_neg hpath, if_pos hpath'] at hr
    obtain ⟨rfl, rfl⟩ := pure_ok_iff.1 hr
    exact (Begins.refl h).of_same (.refl fs)
  rw [if_neg hpath, if_neg hpath'] at hr
  obtain ⟨base, hb, ⟨f, -, hs, -⟩ | ⟨m, -, hl, hrest⟩⟩ :=
    (dirNamev_reaches h path).after h (-·.errno.code) (rmdirIn (baseName path)) hr
  · exact hb.of_same hs
  obtain ⟨hh, hlook | ⟨e, i, e', l, hi, hdot, hdots, hn, -, hremoved⟩⟩ := rmdirIn_net hb.home hl hrest hname
  · exact hb.still hh hlook
  have hkey := (findEntry_lt hi).2
  exact hb.removed hh hremoved hn (by rwa [hkey]) (.inr (by rw [hkey]; exact ⟨hdot, hdots⟩))

theorem Begins.made {e : ℕ → Dirent} {i ino : ℕ} {en : Option (ℕ → Dirent)} (hb : Begins fs base cwd) (hh : Holds base g)
    (hm : Made base g m e i ino name en) (kind : en = none ∨ en = some (dotEntries ino m) ∧ 0 < g.refs ino) :
    Moved fs g := by
  have hk := hm.linked hh hb.home.valid hb.home.linked
  obtain ⟨hnew, hfree, hdead, lm, hlm, hlook⟩ := hm
  have heq := look_eq hb.node
  exact ⟨hb.holds.trans hh, hk, .made m i ino e name en ⟨hnew, hfree, heq ▸ hdead, lm, heq ▸ hlm, heq ▸ hlook⟩ kind⟩

theorem doMknod_moved (h : Home fs cwd) {mode devid : ℕ} {memory stray : Bool}
    (hr : doMknod cwd path mode devid memory stray fs = .ok r g) : Moved fs g := by
  unfold doMknod at hr
  by_cases hspecial : isSpecial mode = true
  swap
  · rw [if_pos hspecial] at hr
    obtain ⟨rfl, rfl⟩ := pure_ok_iff.1 hr
    exact (Begins.refl h).of_same (.refl fs)
  by_cases hlen : maxPathLen < path.length
  · rw [if_neg (not_not.2 hspecial), if_pos hlen] at hr
    obtain ⟨rfl, rfl⟩ := pure_ok_iff.1 hr
    exact (Begins.refl h).of_same (.refl fs)
  rw [if_neg (not_not.2 hspecial), if_neg hlen] at hr
  cases stray with
  | true => cases hr
  | false =>
    obtain ⟨mem, hmem⟩ := specialMem_of_isSpecial devid hspecial
    obtain ⟨base, hb, ⟨f, -, hs, -⟩ | ⟨m, -, hl, hrest⟩⟩ := (dirNamev_reaches h path).after h (-·.errno.code)
      (fun dir => makeAt dir (baseName path) (ramfsMknod dir (baseName path) mode devid memory)) hr
    · exact hb.of_same hs
    obtain ⟨hh, ⟨-, hlook⟩ | ⟨e, i, ino, hmade, -⟩⟩ := makeAt_net hb.home hl
      (ramfsMknod_makes (base.ptr m) (baseName path) memory hmem) (mknod_look (base.ptr m) (baseName path) memory hmem) hrest
    · exact hb.still hh hlook
    · exact hb.made hh hmade (.inl rfl)

theorem doMkdir_moved (h : Home fs cwd) {memory : Bool} (hname : (baseName path).length < nameLen)
    (hr : doMkdir cwd path memory fs = .ok r g) : Moved fs g := by
  obtain ⟨base, hb, ⟨f, -, hs, -⟩ | ⟨m, -, hl, hrest⟩⟩ := (dirNamev_reaches h path).after h (-·.errno.code)
    (fun dir => makeAt dir (baseName path) (ramfsMkdir dir (baseName path) memory)) hr
  · exact hb.of_same hs
  obtain ⟨hh, ⟨-, hlook⟩ | ⟨e, i, ino, hmade, hcore⟩⟩ := makeAt_net hb.home hl
    (ramfsMkdir_makes (base.ptr m) (baseName path) memory) (mkdir_look (base.ptr m) (baseName path) memory) hrest
  · exact hb.still hh hlook
  rw [ptr_vno] at hmade
  exact hb.made hh hmade (.inr ⟨rfl, hcore hname⟩)

theorem Begins.added {e : ℕ → Dirent} {i n : ℕ} (hb : Begins fs base cwd) (hh : Holds base g)
    (hadded : NameAdded base g m e i n name) (hcore : 0 < base.refs n) : Moved fs g := by
  have hk := hadded.linked hh hb.home.valid hb.home.linked hcore
  obtain ⟨hnew, hfree, lm, ln, hlm, hn, hlook⟩ := hadded
  have heq := look_eq hb.node
  exact ⟨hb.holds.trans hh, hk, .added m i n e name ⟨hnew, hfree, lm, ln, heq ▸ hlm, heq ▸ hn, heq ▸ hlook⟩⟩

/-- The source is not a directory. -/
def Fs.FileSource (fs : Fs) (cwd : VPtr) (path : CStr) : Prop :=
  ∀ n, fs.source cwd path = .ok n → ∃ l, fs.look n = some (none, l)

theorem doLink_moved {target : CStr} (h : Home fs cwd) (hfile : fs.FileSource cwd path)
    (hr : doLink cwd path target fs = .ok r g) : Moved fs g := by
  obtain ⟨base, hb, ⟨f, -, hs, -⟩ | ⟨n, hn, hl, hrest⟩⟩ :=
    (openNamev_reaches h path false).after h (-·.errno.code) (linkFrom cwd target) hr
  · exact hb.of_same hs
  obtain ⟨l, hlook⟩ := hfile n hn
  obtain ⟨_, g1, hput, hrest⟩ := bind_ok_iff.1 hrest
  obtain rfl := (vput_dir hb.home.valid hl).1 hput
  have hs := same_grab_release hb.home.valid hb.home.linked hl
  have hb1 := hb.trans (hs.begins hb.home)
  obtain ⟨base2, hb2, ⟨f, -, hs2, -⟩ | ⟨m, -, hl2, hrest2⟩⟩ :=
    (dirNamev_reaches hb1.home target).after hb1.home (-·.errno.code) (linkAt (base.ptr n) · (baseName target)) hrest
  · exact (hb1.trans hb2).of_same hs2
  have hb3 := hb1.trans hb2
  have hfile2 : base2.look (base.ptr n).vno = some (none, l) := by
    rw [look_eq hb3.node, ptr_vno, hlook]
  obtain ⟨hh, hlook' | ⟨hcore, e, i, hadded⟩⟩ := linkAt_net hb2.home hl2 hfile2 hrest2
  · exact hb3.still hh hlook'
  · exact hb3.added hh hadded hcore

theorem doStat_moved (h : Home fs cwd) {x : ℤ × Option Stat} (hr : doStat cwd path fs = .ok x g) : Moved fs g := by
  obtain ⟨base, hb, ⟨f, -, hs, -⟩ | ⟨n, -, hl, hrest⟩⟩ :=
    (openNamev_reaches h path false).after h (fun e => (-e.errno.code, none)) statFrom hr
  · exact hb.of_same hs
  obtain ⟨stat, g1, hstat, hrest⟩ := bind_ok_iff.1 hrest
  obtain ⟨_, hput, rfl⟩ := bind_pure_iff.1 hrest
  obtain rfl : base.grab n = g1 := ramfsStat_same hstat
  obtain rfl := (vput_dir hb.home.valid hl).1 hput
  exact hb.of_same (same_grab_release hb.home.valid hb.home.linked hl)

theorem Moved.home (hm : Moved fs g) (h : Home fs cwd) : Home g cwd :=
  ⟨hm.holds.valid, hm.linked, hm.holds.points h.cwd, hm.holds.points h.root⟩

/-- There is a reference to `p` on top of those of `fs`. -/
structure Gives (fs g : Fs) (p : VPtr) : Prop where
  points : g.Points p
  refs : ∀ k, (fs.refs k + if k = p.vno then 1 else 0) ≤ g.refs k

theorem Holds.gives (hh : Holds fs base) {n : ℕ} (hl : (base.node n).isSome) : Gives fs (base.grab n) (base.ptr n) := by
  refine ⟨points_ptr hl, fun k => ?_⟩
  have := hh.refs k
  rw [grab_refs hl, update_apply, ptr_vno]
  split_ifs with hk
  · rw [← hk]
    omega
  · omega

/-- `ramfs_create` -/
theorem create_net {dir : VPtr} {e : ℕ → Dirent} {i ino : ℕ} {memory : Bool} (hv : g.Valid) (he : g.Dir dir e)
    (hr : g.Room e memory i ino) (name : CStr) :
    let made := ((g.alloc ino (.data fun _ => 0)).grab ino).enter dir.vno i ino name
    Holds g made ∧ (made.node ino).isSome ∧ ∃ lm, g.look dir.vno = some (some e, lm) ∧
      made.look = update (setTable g.look dir.vno (addTo e i ino name) lm) ino (some (none, 1)) := by
  intro made
  have hne := he.ne_freeInode hr.2.1
  obtain ⟨hv1, hvn1, -, hnode1⟩ := alloc_spec hv hr.2.1 (.data fun _ => 0)
  have hlive : ((g.alloc ino (.data fun _ => 0)).node ino).isSome := by rw [hnode1, update_self]; rfl
  obtain ⟨nd, hnd, hme⟩ := he.node
  have hnd1 : ((g.alloc ino (.data fun _ => 0)).grab ino).node dir.vno = some nd := by
    rw [grab_node, hnode1, update_of_ne hne, hnd]
  obtain ⟨hv2, hvn2, hnode2⟩ := enter_spec hv1.grab hnd1 hme i ino name
  have hholds : Holds g (g.alloc ino (.data fun _ => 0)) := (Holds.refl hv).of_vnodes hv1 hvn1
  refine ⟨(hholds.trans (.grab hv1 hlive)).of_vnodes hv2 hvn2, ?_, nd.links, look_dir hnd hme, ?_⟩
  · rw [hnode2, update_of_ne hne.symm, grab_node]
    exact hlive
  · rw [look_update hnode2, look_eq grab_node, look_update hnode1, setTable, update_comm hne.symm]
    rfl

/-- `open_namev` with `O_CREAT` makes a file, whose vnode is in core. -/
theorem openCreate_moved (h : Home fs cwd) {memory : Bool} {y : Except Failure VPtr}
    (hr : openCreate cwd path memory fs = .ok y g) :
    Moved fs g ∧ ∀ p, y = .ok p → Gives fs g p ∧ (fs.look p.vno = none → ∃ l, g.look p.vno = some (none, l)) := by
  unfold openCreate at hr
  by_cases hhere : path.take 2 = [dot, slash]
  · rw [if_pos hhere] at hr
    obtain ⟨v, g1, hd, hr⟩ := bind_ok_iff.1 hr
    obtain ⟨rfl, -⟩ := deref_ok h.valid hd
    split_ifs at hr
    · obtain ⟨rfl, rfl⟩ := pure_ok_iff.1 hr
      exact ⟨(Begins.refl h).of_same (.refl _), nofun⟩
    · cases hr
  rw [if_neg hhere] at hr
  by_cases hup : path.take 3 = [dot, dot, slash]
  · rw [if_pos hup] at hr
    cases hr
  rw [if_neg hup] at hr
  obtain ⟨x, g1, hx, hr⟩ := bind_ok_iff.1 hr
  obtain ⟨base, hb, hw⟩ := (dirNamev_reaches h path).begins h hx
  cases x with
  | error f =>
    obtain ⟨rfl, rfl⟩ := pure_ok_iff.1 hr
    cases hp : fs.parent cwd path with
    | error e =>
      rw [hp] at hw
      exact ⟨hb.of_same hw.2, nofun⟩
    | ok d =>
      rw [hp] at hw
      cases hw.2.1
  | ok dir =>
    cases hp : fs.parent cwd path with
    | error e =>
      rw [hp] at hw
      cases hw.1
    | ok d =>
      rw [hp] at hw
      obtain ⟨hl, hdir, rfl⟩ := hw
      obtain rfl : dir = base.ptr d := by simpa [Except.mapError] using hdir
      obtain ⟨_, g2, hput, hr⟩ := bind_ok_iff.1 hr
      obtain rfl := (vput_dir hb.home.valid hl).1 hput
      obtain ⟨v, g3, hd, hr⟩ := bind_ok_iff.1 hr
      have ho := over_put hb.home.valid hb.home.linked hl
      obtain ⟨rfl, -⟩ := deref_ok ho.valid hd
      split_ifs at hr
      · obtain ⟨rfl, rfl⟩ := pure_ok_iff.1 hr
        exact ⟨hb.of_same (same_grab_release hb.home.valid hb.home.linked hl), nofun⟩
      obtain ⟨z, g4, hz, hr⟩ := bind_ok_iff.1 hr
      obtain ⟨e, he, hnew, ⟨-, rfl, rfl⟩ | ⟨i, ino, hroom, rfl, rfl⟩⟩ := (ramfsCreate_ok ho.valid).1 hz
      · cases hr
      obtain ⟨_, href, rfl⟩ := bind_pure_iff.1 hr
      obtain ⟨hh, hlive, lm, hlm, hlook⟩ := create_net ho.valid he hroom (baseName path)
      obtain ⟨hp, rfl⟩ := (vref_ok hh.valid).1 href
      have hholds := ho.holds.trans hh
      rw [look_eq ho.node, ptr_vno] at hlm hlook
      have hdead : base.look ino = none := by
        rw [← look_eq ho.node, Fs.look, node_none.2 (freeInode_some hroom.2.1).2]
        rfl
      refine ⟨hb.made (hholds.trans (.grab hh.valid hlive)) ⟨hnew, hroom.1, hdead, lm, hlm, ?_⟩ (.inl rfl), ?_⟩
      · rw [← hlook, ptr_vno]
        exact look_eq grab_node
      intro p hp'
      cases hp'
      have hgives := (hb.holds.trans hholds).gives hlive
      refine ⟨⟨hp.grab, fun k => by simpa [ptr_vno] using hgives.refs k⟩, fun _ => ⟨1, ?_⟩⟩
      rw [look_eq grab_node, ptr_vno, hlook, update_self]

theorem openNamev_moved (h : Home fs cwd) {flag : ℤ} {memory : Bool} {y : Except Failure VPtr}
    (hr : openNamev cwd path flag memory fs = .ok y g) :
    Moved fs g ∧ ∀ p, y = .ok p → Gives fs g p ∧ (fs.look p.vno = none → ∃ l, g.look p.vno = some (none, l)) := by
  by_cases hflag : flag = oCreat
  · unfold openNamev at hr
    split_ifs at hr
    · obtain ⟨rfl, rfl⟩ := pure_ok_iff.1 hr
      exact ⟨(Begins.refl h).of_same (.refl _), nofun⟩
    · exact openCreate_moved h hr
  have hr : openNamev cwd path 0 memory fs = .ok y g := by
    unfold openNamev at hr ⊢
    rwa [if_neg hflag] at hr
  obtain ⟨base, hb, hw⟩ := (openNamev_reaches h path memory).begins h hr
  cases hx : fs.source cwd path with
  | error e =>
    rw [hx] at hw
    refine ⟨hb.of_same hw.2, ?_⟩
    rintro p rfl
    cases hw.1
  | ok n =>
    rw [hx] at hw
    obtain ⟨hl, hp, rfl⟩ := hw
    refine ⟨hb.still (.grab hb.home.valid hl) (look_eq grab_node), ?_⟩
    rintro p rfl
    obtain rfl : p = base.ptr n := by simpa [Except.mapError] using hp
    refine ⟨hb.holds.gives hl, fun hnone => ?_⟩
    rw [ptr_vno, ← look_eq hb.node] at hnone
    obtain ⟨nd, hnd⟩ := Option.isSome_iff_exists.1 hl
    rw [look_some hnd] at hnone
    cases hnone

theorem doRename_moved {target : CStr} (h : Home fs cwd) (hfile : fs.FileSource cwd path) (hname : baseName path ≠ [])
    (hr : doRename cwd path target fs = .ok r g) : ∃ g1, Moved fs g1 ∧ Moved g1 g := by
  obtain ⟨_, g1, hlink, hunlink⟩ := bind_ok_iff.1 hr
  have hm := doLink_moved h hfile hlink
  exact ⟨g1, hm, doUnlink_moved (hm.home h) hname hunlink⟩

/-- How `do_chdir` ends: the current directory stays, or a new one is in core and the old one is put. -/
theorem doChdir_moved (h : Home fs cwd) {x : ℤ × VPtr} (hr : doChdir cwd path fs = .ok x g) :
    (x.2 = cwd ∧ Moved fs g) ∨ ∃ g1, Moved fs g1 ∧ g1.look = fs.look ∧ Gives fs g1 x.2 ∧
      ((∃ e l, fs.look x.2.vno = some (some e, l)) ∨ fs.entry cwd.vno [dot, dot] = .ok x.2.vno) ∧
        g = g1.release cwd.vno := by
  unfold doChdir at hr
  by_cases hdot : path = [dot]
  · rw [if_pos hdot] at hr
    obtain ⟨rfl, rfl⟩ := pure_ok_iff.1 hr
    exact .inl ⟨rfl, (Begins.refl h).of_same (.refl _)⟩
  rw [if_neg hdot] at hr
  by_cases hdots : path = [dot, dot]
  · subst hdots
    obtain ⟨y, g1, hy, hr⟩ := bind_ok_iff.1 hr
    rw [lookup_ok h.valid h.cwd] at hy
    cases hentry : fs.entry cwd.vno [dot, dot] with
    | error e =>
      rw [hentry] at hy
      obtain ⟨rfl, rfl⟩ := hy
      obtain ⟨rfl, rfl⟩ := pure_ok_iff.1 hr
      exact .inl ⟨rfl, (Begins.refl h).of_same (.refl _)⟩
    | ok n =>
      rw [hentry] at hy
      obtain ⟨hl, rfl, rfl⟩ := hy
      obtain ⟨_, g2, hput, hr⟩ := bind_ok_iff.1 hr
      obtain ⟨rfl, rfl⟩ := pure_ok_iff.1 hr
      obtain ⟨-, rfl⟩ := (vput_ok h.valid.grab).1 hput
      refine .inr ⟨fs.grab n, (Begins.refl h).still (.grab h.valid hl) (look_eq grab_node), look_eq grab_node,
        (Holds.refl h.valid).gives hl, .inr ?_, rfl⟩
      rw [ptr_vno]
  rw [if_neg hdots] at hr
  obtain ⟨base, hb, ⟨f, rfl, hs, -⟩ | ⟨m, -, hl, hrest⟩⟩ := (dirNamev_reaches h path).after h (fun e => (-e.errno.code, cwd))
    (chdirIn cwd (baseName path)) hr
  · exact .inl ⟨rfl, hb.of_same hs⟩
  have hv := hb.home.valid
  have hk := hb.home.linked
  obtain ⟨e, hentry, hrest⟩ | ⟨n, hentry, hn, hrest⟩ := lookup_bind hv hl hrest
  · rw [put_dir hv hl] at hrest
    obtain ⟨rfl, rfl⟩ := pure_ok_iff.1 hrest
    exact .inl ⟨rfl, hb.of_same (same_grab_release hv hk hl)⟩
  obtain ⟨nd, hnd⟩ := Option.isSome_iff_exists.1 hn
  obtain ⟨v, hd, hmode⟩ := deref_put hv hk hl hnd
  have ho := over_found hv hk hl hn
  rw [put_dir_after hv hl] at hrest
  simp only at hrest
  rw [bind_ok _ hd, hmode] at hrest
  by_cases hdir : nd.mem.mode = .dir
  · rw [if_pos hdir] at hrest
    obtain ⟨_, hput, rfl⟩ := bind_pure_iff.1 hrest
    obtain ⟨-, rfl⟩ := (vput_ok ho.valid).1 hput
    obtain ⟨e, he⟩ := Mem.mode_dir.1 hdir
    refine .inr ⟨_, hb.still ho.holds (look_eq ho.node), (look_eq ho.node).trans (look_eq hb.node),
      ⟨points_found hv hl hn, fun k => ?_⟩, .inl ⟨e, nd.links, ?_⟩, rfl⟩
    · have := hb.holds.refs k
      rw [ho.refs, List.count_singleton, ptr_vno]
      simp only [beq_iff_eq, eq_comm (a := n)]
      omega
    · rw [ptr_vno, ← look_eq hb.node, look_dir hnd he]
  · rw [if_neg hdir, put_found hv hl hn] at hrest
    obtain ⟨rfl, rfl⟩ := pure_ok_iff.1 hrest
    exact .inl ⟨rfl, hb.still (over_put_found hv hk hl hn).holds (look_eq (over_put_found hv hk hl hn).node)⟩

end Calls

end Weenix.Vfs
