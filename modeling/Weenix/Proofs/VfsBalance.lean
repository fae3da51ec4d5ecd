import Weenix.Proofs.VfsRefs

/-! Which calls on paths leave the reference counts of the vnodes as they should be. -/

namespace Weenix.Vfs

open Exec Fs

/-! ### Resolving the whole path -/

section Source

variable {fs fs' base : Fs} {cwd : VPtr} {path : CStr} {d : ℕ} {r : Except Failure VPtr}

def Fs.source (fs : Fs) (cwd : VPtr) (path : CStr) : Except Errno ℕ :=
  if maxPathLen < path.length then .error .enametoolong
  else if path = [dot] ∨ path = [dot, dot] then fs.entry cwd.vno path
  else
    match fs.parent cwd path with
    | .error e => .error e
    | .ok d => fs.entry d (baseName path)

/-- The parent directory is found, and is in core when the last name is looked up in it. -/
def Fs.SourceSafe (fs : Fs) (cwd : VPtr) (path : CStr) : Prop :=
  maxPathLen < path.length ∨
    if path = [dot] ∨ path = [dot, dot] then FoundOk fs cwd.vno path
    else fs.ParentSafe cwd path ∧ ∃ d, fs.parent cwd path = .ok d ∧ (fs.vnodes d).isSome ∧ FoundOk fs d (baseName path)

theorem Fs.Finds.foundOk {name : CStr} {x : Except Errno VPtr} (hf : fs.Finds (fs.entry d name) x fs') :
    FoundOk fs d name := by
  intro n hn
  rw [hn] at hf
  exact hf.1

theorem finds_of_foundOk {name : CStr} (hf : FoundOk fs d name) : ∃ x fs', fs.Finds (fs.entry d name) x fs' := by
  cases hentry : fs.entry d name with
  | error e => exact ⟨.error e, fs, rfl, rfl⟩
  | ok n => exact ⟨.ok (fs.ptr n), fs.grab n, hf n hentry, rfl, rfl⟩

/-- The last name, looked up in a directory that has been put. -/
theorem lookup_put {name : CStr} {x : Except Errno VPtr} (hv : base.Valid) (hk : base.Linked) (hl : (base.node d).isSome) :
    lookup (base.ptr d) name ((base.grab d).release d) = .ok x fs' ↔
      (base.vnodes d).isSome ∧ base.Finds (base.entry d name) x fs' := by
  constructor
  · intro hx
    have hcore := (points_put hv hk hl).1 (lookup_points hx)
    rw [grab_release hv hcore, lookup_ok hv (points_of_core hcore), ptr_vno] at hx
    exact ⟨hcore, hx⟩
  · rintro ⟨hcore, hx⟩
    rw [grab_release hv hcore, lookup_ok hv (points_of_core hcore), ptr_vno]
    exact hx

theorem openNamev_eq (memory : Bool) (hlen : ¬ maxPathLen < path.length) :
    openNamev cwd path 0 memory = openLookup cwd path := by
  unfold openNamev
  rw [if_neg hlen, if_neg (by decide)]

theorem openLookup_of_ne (hdots : ¬ (path = [dot] ∨ path = [dot, dot])) : openLookup cwd path fs = .ok r fs' ↔
    ∃ dir fs1, dirNamev cwd path fs = .ok (.ok dir) fs1 ∧ ∃ fs2 x, vput dir fs1 = .ok () fs2 ∧
      lookup dir (baseName path) fs2 = .ok x fs' ∧ r = x.mapError (⟨·, true⟩) := by
  unfold openLookup
  rw [if_neg hdots, bind_ok_iff]
  constructor
  · rintro ⟨y, fs1, hy, hr⟩
    cases y with
    | error e => cases hr
    | ok dir =>
      obtain ⟨_, fs2, hput, hr⟩ := bind_ok_iff.1 hr
      obtain ⟨x, hx, rfl⟩ := bind_pure_iff.1 hr
      exact ⟨dir, fs1, hy, fs2, x, hput, hx, rfl⟩
  · rintro ⟨dir, fs1, hy, fs2, x, hput, hx, rfl⟩
    exact ⟨_, _, hy, bind_ok_iff.2 ⟨(), _, hput, bind_ok_iff.2 ⟨_, _, hx, rfl⟩⟩⟩

theorem mapError_errno (x : Except Errno VPtr) : (x.mapError (⟨·, true⟩ : Errno → Failure)).mapError Failure.errno = x := by
  cases x <;> rfl

/-- What a walk to a directory has found, put and used. -/
theorem Fs.Walks.last (hb : Home base cwd) {x : Except Errno ℕ} {dir : VPtr} {fs1 fs2 : Fs} {y : Except Errno VPtr}
    {name : CStr} (hw : base.Walks x (.ok dir) fs1) (hput : vput dir fs1 = .ok () fs2)
    (hy : lookup dir name fs2 = .ok y fs') :
    ∃ d, x = .ok d ∧ (base.vnodes d).isSome ∧ base.Finds (base.entry d name) y fs' := by
  cases x with
  | error e => cases hw.1
  | ok d =>
    obtain ⟨hl, hdir, rfl⟩ := hw
    cases hdir
    have h2 := (vput_dir hb.valid hl).1 hput
    subst h2
    exact ⟨d, rfl, (lookup_put hb.valid hb.linked hl).1 hy⟩

theorem openNamev_reaches (h : Home fs cwd) (path : CStr) (memory : Bool) :
    Reaches (openNamev cwd path 0 memory) fs (fs.SourceSafe cwd path) (fs.source cwd path) := by
  by_cases hlen : maxPathLen < path.length
  · have hrun : openNamev cwd path 0 memory fs = .ok (.error ⟨.enametoolong, false⟩) fs := by
      unfold openNamev
      rw [if_pos hlen]
      rfl
    refine ⟨fun {r fs'} hr => .inl ⟨.inl hlen, ?_⟩, fun _ => ⟨_, _, hrun⟩⟩
    rw [hrun] at hr
    cases hr
    rw [Fs.source, if_pos hlen]
    exact ⟨rfl, .refl fs⟩
  rw [openNamev_eq memory hlen]
  by_cases hdots : path = [dot] ∨ path = [dot, dot]
  · have hrun : ∀ r fs', openLookup cwd path fs = .ok r fs' ↔
        ∃ x, fs.Finds (fs.entry cwd.vno path) x fs' ∧ r = x.mapError (⟨·, true⟩) := by
      intro r fs'
      unfold openLookup
      rw [if_pos hdots]
      simp only [bind_ok_iff, lookup_ok h.valid h.cwd, pure_ok_iff]
      constructor
      · rintro ⟨x, fs1, hx, rfl, rfl⟩
        exact ⟨x, hx, rfl⟩
      · rintro ⟨x, hx, rfl⟩
        exact ⟨x, fs', hx, rfl, rfl⟩
    unfold Fs.SourceSafe Fs.source
    rw [if_pos hdots, if_neg hlen, if_pos hdots]
    refine ⟨fun {r fs'} hr => ?_, fun hsafe => ?_⟩
    · obtain ⟨x, hx, rfl⟩ := (hrun r fs').1 hr
      rw [mapError_errno]
      exact .inl ⟨.inr hx.foundOk, hx.walks⟩
    · obtain ⟨x, fs', hx⟩ := finds_of_foundOk (hsafe.resolve_left hlen)
      exact ⟨_, fs', (hrun _ fs').2 ⟨x, hx, rfl⟩⟩
  have hreach := dirNamev_reaches h path
  have hentry : ∀ n, (fs.grab n).entry = fs.entry := fun n => entry_node grab_node
  unfold Fs.SourceSafe Fs.source
  rw [if_neg hdots, if_neg hlen, if_neg hdots]
  refine ⟨fun {r fs'} hr => ?_, fun hsafe => ?_⟩
  · obtain ⟨dir, fs1, hdir, fs2, x, hput, hx, rfl⟩ := (openLookup_of_ne hdots).1 hr
    rw [mapError_errno]
    rcases hreach.cases hdir with ⟨hsafe, hw⟩ | ⟨hsafe, n, hl, hw⟩
    · obtain ⟨d, hd, hcore, hfind⟩ := hw.last h hput hx
      rw [hd]
      exact .inl ⟨.inr ⟨hsafe, d, rfl, hcore, hfind.foundOk⟩, hfind.walks⟩
    obtain ⟨d, hd, hcore, hfind⟩ := hw.last h.grab hput hx
    rw [hd]
    rw [hentry] at hfind
    refine .inr ⟨fun hs => ?_, n, hl, hfind.walks⟩
    exact hsafe (hs.resolve_left hlen).1
  obtain ⟨hsafe, d, hd, hcore, hfound⟩ := hsafe.resolve_left hlen
  obtain ⟨y, fs1, hy⟩ := hreach.run hsafe
  rcases hreach.cases hy with ⟨-, hw⟩ | ⟨hsafe', -⟩
  swap
  · exact absurd hsafe hsafe'
  rw [hd] at hw
  obtain ⟨hl, hptr, rfl⟩ := hw
  obtain ⟨x, fs', hx⟩ := finds_of_foundOk hfound
  cases y with
  | error e => cases hptr
  | ok dir =>
    obtain rfl : dir = fs.ptr d := by simpa [Except.mapError] using hptr
    exact ⟨_, fs', (openLookup_of_ne hdots).2 ⟨_, _, hy, _, x, (vput_dir h.valid hl).2 rfl,
      (lookup_put h.valid h.linked hl).2 ⟨hcore, hx⟩, rfl⟩⟩

end Source

/-! ### When the functions come back -/

/-- The path fits in its buffer, the walk starts in the state `fs₁`, and each directory on the way is in core when
it is used. -/
def Fs.Passes (fs : Fs) (cwd : VPtr) (path : CStr) (fs₁ : Fs) : Prop :=
  (finalPath path).length < maxPathLen ∧ ∃ dir, fs.Starts cwd path dir fs₁ ∧ fs₁.SafeWay dir.vno path

/-- Moreover the last of them is found and in core, and what it names is allocated. -/
def Fs.Returns (fs : Fs) (cwd : VPtr) (path : CStr) : Prop :=
  ∃ fs₁ d, fs.Passes cwd path fs₁ ∧ fs.parent cwd path = .ok d ∧ (fs₁.vnodes d).isSome ∧ FoundOk fs d (baseName path)

section Returns

variable {fs fs' fs₁ : Fs} {cwd dir : VPtr} {path : CStr} {d : ℕ} {r : Except Failure VPtr}

theorem Fs.Starts.home (hs : fs.Starts cwd path dir fs₁) (h : Home fs cwd) : Home fs₁ cwd := by
  unfold Fs.Starts at hs
  cases ho : origin path with
  | root | cwd =>
    rw [ho] at hs
    exact hs.2 ▸ h
  | up =>
    rw [ho] at hs
    obtain ⟨n, -, -, -, rfl⟩ := hs
    exact h.grab

theorem Fs.Walks.found {x : Except Errno ℕ} (hw : fs.Walks x (.ok dir) fs') : ∃ d, x = .ok d := by
  cases x with
  | error e => cases hw.1
  | ok d => exact ⟨d, rfl⟩

theorem parent_length (hd : fs.parent cwd path = .ok d) : path.length ≤ 1024 := by
  unfold Fs.parent at hd
  split_ifs at hd with hlen
  omega

theorem Fs.Starts.parent (hs : fs.Starts cwd path dir fs₁) (hlen : path.length ≤ 1024) :
    fs.parent cwd path = fs.way dir.vno path := by
  unfold Fs.Starts at hs
  unfold Fs.parent
  rw [if_neg (by omega)]
  cases ho : origin path with
  | root | cwd =>
    rw [ho] at hs
    rw [hs.1]
  | up =>
    rw [ho] at hs
    obtain ⟨n, hn, -, rfl, -⟩ := hs
    simp only [hn, Fs.ptr_vno]

theorem Fs.Starts.reached (hs : fs.Starts cwd path dir fs₁) (h : Home fs cwd) (hd : fs.parent cwd path = .ok d)
    (hr : dirNamevFrom path dir (fileName path) fs₁ = .ok r fs') :
    fs₁.SafeWay dir.vno path ∧ (fs₁.node d).isSome ∧ r = .ok (fs₁.ptr d) ∧ fs' = fs₁.grab d := by
  obtain ⟨hv, hk, hp, hnode⟩ := hs.spec h
  obtain ⟨hsafe, hw, -⟩ := dirNamevFrom_ok hv hk hp hr
  rw [way_node hnode, ← hs.parent (parent_length hd), hd] at hw
  obtain ⟨hl, hptr, rfl⟩ := hw
  cases r with
  | error e => cases hptr
  | ok p =>
    cases hptr
    exact ⟨hsafe, hl, rfl, rfl⟩

theorem Fs.Passes.node (hp : fs.Passes cwd path fs₁) (h : Home fs cwd) : fs₁.node = fs.node := by
  obtain ⟨-, dir, hs, -⟩ := hp
  exact (hs.spec h).2.2.2

theorem Fs.Passes.home (hp : fs.Passes cwd path fs₁) (h : Home fs cwd) : Home fs₁ cwd := by
  obtain ⟨-, dir, hs, -⟩ := hp
  exact hs.home h

theorem Fs.Passes.live (hp : fs.Passes cwd path fs₁) (h : Home fs cwd) (hd : fs.parent cwd path = .ok d) :
    (fs₁.node d).isSome := by
  obtain ⟨-, dir, hs, hsafe⟩ := hp
  obtain ⟨hv, -, hp, -⟩ := hs.spec h
  obtain ⟨r, fs', hr⟩ := dirNamevFrom_of_safe hv hp hsafe
  exact (hs.reached h hd hr).2.1

theorem dirNamev_passes (h : Home fs cwd) (hd : fs.parent cwd path = .ok d) : dirNamev cwd path fs = .ok r fs' ↔
    ∃ fs₁, fs.Passes cwd path fs₁ ∧ r = .ok (fs₁.ptr d) ∧ fs' = fs₁.grab d := by
  have hlen := parent_length hd
  constructor
  · intro hr
    rcases (dirNamev_ok h).1 hr with ⟨hlong, -⟩ | ⟨-, hfinal, ⟨e, ho, he, -⟩ | ⟨dir, fs₁, hs, hr⟩⟩
    · omega
    · rw [Fs.parent, if_neg (by omega), ho] at hd
      simp only [he] at hd
      cases hd
    obtain ⟨hsafe, -, hend⟩ := hs.reached h hd hr
    exact ⟨fs₁, ⟨hfinal, dir, hs, hsafe⟩, hend⟩
  · rintro ⟨fs₁, ⟨hfinal, dir, hs, hsafe⟩, rfl, rfl⟩
    obtain ⟨hv, -, hp, -⟩ := hs.spec h
    obtain ⟨r, fs', hr⟩ := dirNamevFrom_of_safe hv hp hsafe
    obtain ⟨-, -, rfl, rfl⟩ := hs.reached h hd hr
    exact (dirNamev_ok h).2 (.inr ⟨hlen, hfinal, .inr ⟨dir, fs₁, hs, hr⟩⟩)

theorem openNamev_passes (h : Home fs cwd) (hd : fs.parent cwd path = .ok d)
    (hdots : ¬ (path = [dot] ∨ path = [dot, dot])) (memory : Bool) : openNamev cwd path 0 memory fs = .ok r fs' ↔
      ∃ fs₁ x, fs.Passes cwd path fs₁ ∧ (fs₁.vnodes d).isSome ∧ fs₁.Finds (fs.entry d (baseName path)) x fs' ∧
        r = x.mapError (⟨·, true⟩) := by
  have hmax : ¬ maxPathLen < path.length := by
    have := parent_length hd
    rw [maxPathLen]
    omega
  rw [openNamev_eq memory hmax, openLookup_of_ne hdots]
  simp only [dirNamev_passes h hd]
  constructor
  · rintro ⟨_, _, ⟨fs₁, hp, hdir, rfl⟩, fs2, x, hput, hx, rfl⟩
    cases hdir
    have hb := hp.home h
    obtain rfl := (vput_dir hb.valid (hp.live h hd)).1 hput
    obtain ⟨hcore, hx⟩ := (lookup_put hb.valid hb.linked (hp.live h hd)).1 hx
    rw [entry_node (hp.node h)] at hx
    exact ⟨fs₁, x, hp, hcore, hx, rfl⟩
  · rintro ⟨fs₁, x, hp, hcore, hx, rfl⟩
    have hb := hp.home h
    rw [← entry_node (hp.node h)] at hx
    exact ⟨_, _, ⟨fs₁, hp, rfl, rfl⟩, _, x, (vput_dir hb.valid (hp.live h hd)).2 rfl,
      (lookup_put hb.valid hb.linked (hp.live h hd)).2 ⟨hcore, hx⟩, rfl⟩

theorem openNamev_returns (h : Home fs cwd) (hlen : path.length ≤ 1024) (hdots : ¬ (path = [dot] ∨ path = [dot, dot]))
    (memory : Bool) : (∃ r fs', openNamev cwd path 0 memory fs = .ok r fs') ↔ fs.Returns cwd path := by
  have hmax : ¬ maxPathLen < path.length := by
    rw [maxPathLen]
    omega
  constructor
  · rintro ⟨r, fs', hr⟩
    obtain ⟨dir, fs1, hdir, -⟩ := (openLookup_of_ne hdots).1 (openNamev_eq memory hmax ▸ hr)
    obtain ⟨d, hd⟩ : ∃ d, fs.parent cwd path = .ok d := by
      rcases (dirNamev_reaches h path).cases hdir with ⟨-, hw⟩ | ⟨-, n, -, hw⟩ <;> exact hw.found
    obtain ⟨fs₁, x, hp, hcore, hx, -⟩ := (openNamev_passes h hd hdots memory).1 hr
    refine ⟨fs₁, d, hp, hd, hcore, fun n hn => ?_⟩
    rw [hn] at hx
    rw [← hp.node h]
    exact hx.1
  · rintro ⟨fs₁, d, hp, hd, hcore, hfound⟩
    have hfound₁ : FoundOk fs₁ d (baseName path) := by
      unfold FoundOk at hfound ⊢
      rwa [entry_node (hp.node h), hp.node h]
    obtain ⟨x, fs', hx⟩ := finds_of_foundOk hfound₁
    rw [entry_node (hp.node h)] at hx
    exact ⟨_, fs', (openNamev_passes h hd hdots memory).2 ⟨fs₁, x, hp, hcore, hx, rfl⟩⟩

end Returns

/-! ### Moving and looking -/

section Ends

variable {h g : Fs} {m n : ℕ} {cwd : VPtr}

def taken (r : Except Failure VPtr) (k : ℕ) : ℤ :=
  match r with
  | .error _ => 0
  | .ok p => if k = p.vno then 1 else 0

/-- On success, one reference goes from the old current directory to the new one. -/
def moved (cwd : VPtr) (r : ℤ × VPtr) (k : ℕ) : ℤ :=
  if r.1 = 0 then (if k = r.2.vno then 1 else 0) - (if k = cwd.vno then 1 else 0) else 0

theorem moved_error (cwd p : VPtr) (e : Errno) (k : ℕ) : moved cwd (-e.code, p) k = 0 := by
  have := e.code_pos
  exact if_neg (by simp only; omega)

theorem take_spec (cwd : VPtr) : EndSpec cwd (fun p => return .ok p) taken fun _ _ => True := by
  intro h m hh hl
  refine Accounts.intro (fun _ => ⟨_, _, rfl, fun k => ?_⟩) fun hc => absurd trivial hc
  simp only [taken, ptr_vno, grab_refs hl, Function.update_apply]
  split_ifs with hk
  · rw [hk]
    rfl
  · rw [add_zero]

def statFrom (res : VPtr) : FsM (ℤ × Option Stat) := do
  let stat ← ramfsStat res
  vput res
  return (0, some stat)

theorem statFrom_spec (cwd : VPtr) : EndSpec cwd statFrom still fun _ _ => True := by
  intro h m hh hl
  refine Accounts.intro (fun _ => ?_) fun hc => absurd trivial hc
  have hp := points_ptr hl
  obtain ⟨nd, hnd⟩ := hh.valid.grab.live (hp.refs_pos hh.valid.grab)
  obtain ⟨i, hi, -⟩ := node_some.1 hnd
  obtain ⟨v, hd, -⟩ := deref_of_points hh.valid.grab hp hnd
  have hino : inodeOf (h.ptr m) (h.grab m) = .ok i (h.grab m) := need_ok.2 ⟨inodeOf_some.2 ⟨hp, hi⟩, rfl⟩
  refine ⟨_, _, bind_ok_iff.2 ⟨_, _, bind_ok_iff.2 ⟨_, _, hino, bind_ok_iff.2 ⟨_, _, hd, rfl⟩⟩,
    bind_ok_iff.2 ⟨(), _, (vput_dir hh.valid hl).2 rfl, rfl⟩⟩, ?_⟩
  exact exact_still (over_put hh.valid hh.linked hl).refs_eq _

/-- `vput(curproc->p_cwd)` once there is a reference to the new one. -/
theorem vput_cwd (hh : Home h cwd) (ho : Over h g [n]) {p : VPtr} (hp : p.vno = n) :
    ∃ g', vput cwd g = .ok () g' ∧ Exact h g' (moved cwd (0, p)) := by
  have hcwd := ho.points hh.cwd
  refine ⟨_, (vput_ok ho.valid).2 ⟨hcwd, rfl⟩, fun k => ?_⟩
  have hpos := hh.cwd.refs_pos hh.valid
  rw [release_refs ho.valid (hcwd.refs_pos ho.valid), Function.update_apply, moved, if_pos rfl, hp]
  by_cases hk : k = cwd.vno
  · subst hk
    simp only [if_true, ho.refs, List.count_singleton, beq_iff_eq, eq_comm (a := n)]
    split_ifs <;> omega
  · simp only [hk, if_false, ho.refs, List.count_singleton, beq_iff_eq, eq_comm (a := n)]
    split_ifs <;> omega

def chdirIn (cwd : VPtr) (name : CStr) (dir : VPtr) : FsM (ℤ × VPtr) := do
  let found ← lookup dir name
  vput dir
  match found with
  | .error e => return (-e.code, cwd)
  | .ok result =>
    if (← deref result).mode = .dir then do
      vput cwd
      return (0, result)
    else do
      vput result
      return (-Errno.enotdir.code, cwd)

theorem exact_of_refs {d : ℕ → ℤ} (hrefs : ∀ k, g.refs k = h.refs k) (hd : ∀ k, d k = 0) : Exact h g d := by
  intro k
  rw [hrefs, hd, add_zero]

theorem chdirIn_spec (cwd : VPtr) (name : CStr) : EndSpec cwd (chdirIn cwd name) (moved cwd) (FoundOk · · name) := by
  intro h m hh hl
  have hv := hh.valid
  have hk := hh.linked
  apply Accounts.intro
  · intro hfound
    unfold chdirIn
    cases hentry : h.entry m name with
    | error e =>
      rw [bind_ok _ (lookup_missing hv hl hentry), put_dir hv hl]
      exact ⟨_, _, rfl, exact_of_refs (over_put hv hk hl).refs_eq (moved_error cwd cwd e)⟩
    | ok n =>
      have hn := hfound n hentry
      obtain ⟨nd, hnd⟩ := Option.isSome_iff_exists.1 hn
      obtain ⟨v, hd, hmode⟩ := deref_put hv hk hl hnd
      rw [bind_ok _ (lookup_found hv hl hentry hn), put_dir_after hv hl]
      simp only
      rw [bind_ok _ hd, hmode]
      by_cases hdir : nd.mem.mode = .dir
      · have hptr : ((h.grab m).ptr n).vno = n := ptr_vno
        obtain ⟨g', hput, hexact⟩ := vput_cwd hh (over_found hv hk hl hn) hptr
        rw [if_pos hdir, bind_ok _ hput]
        exact ⟨_, g', rfl, hexact⟩
      · rw [if_neg hdir, put_found hv hl hn]
        exact ⟨_, _, rfl, exact_of_refs (over_put_found hv hk hl hn).refs_eq (moved_error cwd cwd .enotdir)⟩
  · intro hfound r g' hr
    obtain ⟨x, g, hx, -⟩ := bind_ok_iff.1 hr
    exact absurd (foundOk_of_lookup hv hl hx) hfound

def chdirUp (cwd : VPtr) (name : CStr) : FsM (ℤ × VPtr) := do
  match ← lookup cwd name with
  | .error e => return (-e.code, cwd)
  | .ok result =>
    vput cwd
    return (0, result)

theorem chdirUp_accounts (hh : Home h cwd) (name : CStr) :
    Accounts (chdirUp cwd name) h h (moved cwd) (FoundOk h cwd.vno name) := by
  apply Accounts.intro
  · intro hfound
    unfold chdirUp
    cases hentry : h.entry cwd.vno name with
    | error e =>
      have hlook : lookup cwd name h = .ok (.error e) h := by
        rw [lookup_ok hh.valid hh.cwd, hentry]
        exact ⟨rfl, rfl⟩
      rw [bind_ok _ hlook]
      exact ⟨_, _, rfl, exact_of_refs (fun _ => rfl) (moved_error cwd cwd e)⟩
    | ok n =>
      have hn := hfound n hentry
      have hlook : lookup cwd name h = .ok (.ok (h.ptr n)) (h.grab n) := by
        rw [lookup_ok hh.valid hh.cwd, hentry]
        exact ⟨hn, rfl, rfl⟩
      have hptr : (h.ptr n).vno = n := ptr_vno
      obtain ⟨g', hput, hexact⟩ := vput_cwd hh (over_grab hh.valid hn) hptr
      rw [bind_ok _ hlook]
      simp only
      rw [bind_ok _ hput]
      exact ⟨_, g', rfl, hexact⟩
  · intro hfound r g' hr
    obtain ⟨x, g, hx, -⟩ := bind_ok_iff.1 hr
    rw [lookup_ok hh.valid hh.cwd] at hx
    exact absurd hx.foundOk hfound

end Ends

/-! ### All of them -/

/-- A call on paths, with what it is given by the rest of the kernel. -/
inductive PathCall
  | mknod (path : CStr) (mode devid : ℕ) (memory stray : Bool)
  | mkdir (path : CStr) (memory : Bool)
  | rmdir (path : CStr)
  | unlink (path : CStr)
  | link (source target : CStr)
  | stat (path : CStr)
  | chdir (path : CStr)
  | dirNamev (path : CStr)

/-- The call comes back, so that it has used no vnode that was gone, and the counts have changed by `delta`. -/
def Settles {α : Type} (call : FsM α) (fs : Fs) (delta : α → ℕ → ℤ) : Prop :=
  ∃ r fs', call fs = .ok r fs' ∧ Exact fs fs' (delta r)

/-- What each call is to do with the references. -/
def PathCall.Settled (cwd : VPtr) (fs : Fs) : PathCall → Prop
  | mknod path mode devid memory stray => Settles (doMknod cwd path mode devid memory stray) fs still
  | mkdir path memory => Settles (doMkdir cwd path memory) fs still
  | rmdir path => Settles (doRmdir cwd path) fs still
  | unlink path => Settles (doUnlink cwd path) fs still
  | link source target => Settles (doLink cwd source target) fs still
  | stat path => Settles (doStat cwd path) fs still
  | chdir path => Settles (doChdir cwd path) fs (moved cwd)
  | dirNamev path => Settles (Vfs.dirNamev cwd path) fs taken

/-- The parent directory is found safely, and `cond` holds of it. -/
def Fs.InParent (fs : Fs) (cwd : VPtr) (path : CStr) (cond : Fs → ℕ → Prop) : Prop :=
  fs.ParentSafe cwd path ∧ ∀ m, fs.parent cwd path = .ok m → cond fs m

def PathCall.Tidy (cwd : VPtr) (fs : Fs) : PathCall → Prop
  | mknod path mode _ memory stray => isSpecial mode = true → path.length ≤ maxPathLen →
      stray = false ∧ fs.InParent cwd path (MakeOk (baseName path) memory)
  | mkdir path memory => fs.InParent cwd path (MakeOk (baseName path) memory)
  | rmdir path => path ≠ [dot] → path ≠ [dot, dot] → fs.InParent cwd path (RmdirOk (baseName path))
  | unlink path => fs.InParent cwd path (FoundOk · · (baseName path))
  | link source target => fs.SourceSafe cwd source ∧ ∀ n, fs.source cwd source = .ok n → LinkFromOk cwd target fs n
  | stat path => fs.SourceSafe cwd path
  | chdir path => path ≠ [dot] → if path = [dot, dot] then FoundOk fs cwd.vno path
      else fs.InParent cwd path (FoundOk · · (baseName path))
  | dirNamev path => fs.ParentSafe cwd path

section Calls

variable {fs : Fs} {cwd : VPtr} {α : Type} {rest : VPtr → FsM α} {delta : α → ℕ → ℤ} {cond : Fs → ℕ → Prop}

theorem EndSpec.settles (spec : EndSpec cwd rest delta cond) (h : Home fs cwd) (path : CStr) (fail : Failure → α)
    (hfail : ∀ e k, delta (fail e) k = 0) :
    Settles (after (dirNamev cwd path) fail rest) fs delta ↔ fs.InParent cwd path cond :=
  ((dirNamev_reaches h path).accounts h spec fail hfail).iff

theorem after_return (res : FsM (Except Failure VPtr)) : after res .error (fun p => return .ok p) = res := by
  refine Eq.trans ?_ (bind_pure res)
  unfold after
  congr 1
  funext x
  cases x <;> rfl

/-- A call that refuses its arguments. -/
theorem settles_pure {a : α} (ha : ∀ k, delta a k = 0) : Settles (pure a) fs delta :=
  ⟨a, fs, rfl, exact_of_refs (fun _ => rfl) ha⟩

theorem specialMem_of_isSpecial {mode : ℕ} (devid : ℕ) (hspecial : isSpecial mode = true) :
    ∃ mem, specialMem mode devid = some mem := by
  rw [isSpecial] at hspecial
  unfold specialMem at hspecial ⊢
  split_ifs at hspecial ⊢
  · exact ⟨_, rfl⟩
  · exact ⟨_, rfl⟩
  · cases hspecial

theorem mknod_settles (h : Home fs cwd) (path : CStr) (mode devid : ℕ) (memory stray : Bool) :
    Settles (doMknod cwd path mode devid memory stray) fs still ↔
      (PathCall.mknod path mode devid memory stray).Tidy cwd fs := by
  unfold PathCall.Tidy doMknod
  by_cases hspecial : isSpecial mode = true
  swap
  · rw [if_pos hspecial]
    exact iff_of_true (settles_pure fun _ => rfl) fun h' => absurd h' hspecial
  by_cases hlen : maxPathLen < path.length
  · rw [if_neg (not_not.2 hspecial), if_pos hlen]
    exact iff_of_true (settles_pure fun _ => rfl) fun _ h' => absurd h' (by omega)
  rw [if_neg (not_not.2 hspecial), if_neg hlen]
  cases stray with
  | true =>
    refine iff_of_false ?_ fun h' => Bool.noConfusion (h' hspecial (by omega)).1
    rintro ⟨r, fs', hr, -⟩
    cases hr
  | false =>
    obtain ⟨mem, hmem⟩ := specialMem_of_isSpecial devid hspecial
    have hspec := makeAt_spec cwd (baseName path) memory fun dir => ramfsMknod_makes dir (baseName path) memory hmem
    refine (hspec.settles h path (-·.errno.code) fun _ _ => rfl).trans ?_
    exact ⟨fun h' _ _ => ⟨rfl, h'⟩, fun h' => (h' hspecial (by omega)).2⟩

theorem rmdir_settles (h : Home fs cwd) (path : CStr) :
    Settles (doRmdir cwd path) fs still ↔ (PathCall.rmdir path).Tidy cwd fs := by
  unfold PathCall.Tidy doRmdir
  by_cases hdot : path = [dot]
  · rw [if_pos hdot]
    exact iff_of_true (settles_pure fun _ => rfl) fun h' => absurd hdot h'
  by_cases hdots : path = [dot, dot]
  · rw [if_neg hdot, if_pos hdots]
    exact iff_of_true (settles_pure fun _ => rfl) fun _ h' => absurd hdots h'
  rw [if_neg hdot, if_neg hdots]
  refine ((rmdirIn_spec cwd (baseName path)).settles h path (-·.errno.code) fun _ _ => rfl).trans ?_
  exact ⟨fun h' _ _ => h', fun h' => h' hdot hdots⟩

theorem chdir_settles (h : Home fs cwd) (path : CStr) :
    Settles (doChdir cwd path) fs (moved cwd) ↔ (PathCall.chdir path).Tidy cwd fs := by
  rw [PathCall.Tidy, doChdir]
  by_cases hdot : path = [dot]
  · rw [if_pos hdot]
    refine iff_of_true (settles_pure fun k => ?_) fun h' => absurd hdot h'
    rw [moved, if_pos rfl, sub_self]
  rw [if_neg hdot]
  by_cases hdots : path = [dot, dot]
  · rw [if_pos hdots, if_pos hdots]
    refine (chdirUp_accounts h path).iff.trans ?_
    exact ⟨fun h' _ => h', fun h' => h' hdot⟩
  rw [if_neg hdots, if_neg hdots]
  refine ((chdirIn_spec cwd (baseName path)).settles h path (fun e => (-e.errno.code, cwd)) fun e k =>
    moved_error cwd cwd e.errno k).trans ?_
  exact ⟨fun h' _ => h', fun h' => h' hdot⟩

end Calls

/-- In every state in which the root and the current directory are in core, each call leaves the counts as it
should in exactly the cases that `Tidy` gives. -/
theorem settled_iff_tidy {fs : Fs} {cwd : VPtr} (h : Home fs cwd) (c : PathCall) : c.Settled cwd fs ↔ c.Tidy cwd fs := by
  cases c with
  | mknod path mode devid memory stray => exact mknod_settles h path mode devid memory stray
  | mkdir path memory =>
    have hspec := makeAt_spec cwd (baseName path) memory fun dir => ramfsMkdir_makes dir (baseName path) memory
    exact hspec.settles h path (-·.errno.code) fun _ _ => rfl
  | rmdir path => exact rmdir_settles h path
  | unlink path => exact (unlinkAt_spec cwd (baseName path)).settles h path (-·.errno.code) fun _ _ => rfl
  | link source target =>
    exact ((openNamev_reaches h source false).accounts h (linkFrom_spec cwd target) (-·.errno.code) fun _ _ => rfl).iff
  | stat path =>
    refine ((openNamev_reaches h path false).accounts h (statFrom_spec cwd) (fun e => (-e.errno.code, none))
      fun _ _ => rfl).iff.trans ?_
    exact and_iff_left fun _ _ => trivial
  | chdir path => exact chdir_settles h path
  | dirNamev path =>
    have hsettles := (take_spec cwd).settles h path .error fun _ _ => rfl
    rw [after_return] at hsettles
    exact hsettles.trans (and_iff_left fun _ _ => trivial)

theorem home_mounted : Home mounted rootVn := by
  have hroot : mounted.Points rootVn := ⟨_, rfl, rfl⟩
  refine ⟨mounted_valid, fun n nd hcore hnd => ?_, hroot, hroot⟩
  rw [mounted_node] at hnd
  by_cases hn : n = 0
  · subst hn
    cases hcore
  · rw [Function.update_of_ne hn] at hnd
    cases hnd

/-- Nothing is left over when a name that does not exist is removed. -/
theorem unlink_missing_settles : (PathCall.unlink [slash, 120]).Settled rootVn mounted := by
  have hentry : mounted.entry 0 [120] = .error .enoent := rfl
  have hparent : mounted.parent rootVn [slash, 120] = .ok 0 := rfl
  refine (settled_iff_tidy home_mounted _).2 ⟨.inr ⟨by decide, fun _ => trivial⟩, fun m hm n hn => ?_⟩
  cases hm
  exact absurd (hentry.symm.trans hn) (by simp)

/-- `do_mkdir` keeps the reference of its second lookup: the vnode of the new directory stays in core. -/
theorem mkdir_leaks : Home mounted rootVn ∧ ∃ fs', doMkdir rootVn [slash, 97] true mounted = .ok 0 fs' ∧
    mounted.refs 1 = 0 ∧ fs'.refs 1 = 1 :=
  ⟨home_mounted, _, rfl, rfl, rfl⟩

end Weenix.Vfs
