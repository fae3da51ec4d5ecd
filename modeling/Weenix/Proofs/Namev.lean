import Weenix.Spec.Namev
import Weenix.Proofs.RamfsCalls

/-! What path resolution does when it comes back: the directories it goes through by name, and the
reference it takes at the end. -/

namespace Weenix.Vfs

open Function Exec List Fs

namespace Fs

variable {fs fs' : Fs} {p : VPtr} {n d : ℕ} {name : CStr}

def entry (fs : Fs) (d : ℕ) (name : CStr) : Except Errno ℕ :=
  match (fs.node d).bind (·.mem.entries) with
  | none => .error .enotdir
  | some e =>
    match findEntry e name with
    | none => .error .enoent
    | some i => .ok (e i).ino

def step (fs : Fs) (d : ℕ) (piece : CStr) : Except Errno ℕ :=
  if nameLen < piece.length then .error .enametoolong else fs.entry d piece

/-- Where a path leads, component by component. -/
def follow (fs : Fs) : ℕ → List CStr → Except Errno ℕ
  | d, [] => .ok d
  | d, piece :: rest =>
    match fs.step d piece with
    | .error e => .error e
    | .ok n => fs.follow n rest

/-- What a call that finds `x` returns: a reference to it. -/
def Finds (fs : Fs) (x : Except Errno ℕ) (r : Except Errno VPtr) (fs' : Fs) : Prop :=
  match x with
  | .error e => r = .error e ∧ fs = fs'
  | .ok n => (fs.node n).isSome ∧ r = .ok (fs.ptr n) ∧ fs.grab n = fs'

theorem ptr_of_points (hp : fs.Points p) : fs.ptr p.vno = p := by
  obtain ⟨v, hv, hid⟩ := hp
  simp [ptr, hv, hid]

theorem points_of_core (h : (fs.vnodes n).isSome) : fs.Points (fs.ptr n) := by
  obtain ⟨v, hv⟩ := Option.isSome_iff_exists.1 h
  exact ⟨v, by simp [ptr, hv], by simp [ptr, hv]⟩

/-- A reference to a vnode that is in core is taken and dropped. -/
theorem grab_release (hv : fs.Valid) (h : (fs.vnodes n).isSome) : (fs.grab n).release n = fs := by
  obtain ⟨v, hw⟩ := Option.isSome_iff_exists.1 h
  obtain ⟨hr, -, i, hi, -⟩ := hv.vnode hw
  have hcore : (fs.grab n).vnodes n = some { v with refcount := v.refcount + 1 } := by
    simp [grab_eq_of_core hw, replace]
  have hino : (fs.grab n).inodes n = some i := by
    simpa [grab_eq_of_core hw, replace] using hi
  rw [release_eq_of_many hcore hino (by simp only; omega), grab_eq_of_core hw]
  simp only [replace, update_idem, Nat.add_sub_cancel]
  rw [← hi, ← hw, update_eq_self, update_eq_self]

/-- But for the number of vnodes allocated so far. -/
structure Same (fs fs' : Fs) : Prop where
  inodes : fs'.inodes = fs.inodes
  vnodes : fs'.vnodes = fs.vnodes
  allocs : fs.allocs ≤ fs'.allocs

namespace Same

theorem refl (fs : Fs) : Same fs fs := ⟨rfl, rfl, le_refl _⟩

section
variable (h : Same fs fs')
include h

theorem valid (hv : fs.Valid) : fs'.Valid := by
  refine ⟨fun {n i} hi => hv.inode (h.inodes ▸ hi), fun {n v} hw => ?_⟩
  obtain ⟨hr, hid, i, hi, hm⟩ := hv.vnode (h.vnodes ▸ hw)
  exact ⟨hr, lt_of_lt_of_le hid h.allocs, i, h.inodes ▸ hi, hm⟩

theorem points : fs'.Points p ↔ fs.Points p := by
  unfold Points
  rw [h.vnodes]

theorem node : fs'.node = fs.node := by
  funext n
  unfold Fs.node
  rw [h.inodes, h.vnodes]

theorem refs : fs'.refs = fs.refs := by
  funext n
  unfold Fs.refs
  rw [h.vnodes]

theorem entry : fs'.entry = fs.entry := by
  funext d name
  unfold Fs.entry
  rw [h.node]

theorem step : fs'.step = fs.step := by
  funext d piece
  unfold Fs.step
  rw [h.entry]

end

end Same

/-- No inode is without links and not in core. -/
def Linked (fs : Fs) : Prop := ∀ n nd, fs.vnodes n = none → fs.node n = some nd → nd.links ≠ 0

theorem grab_vnodes_ne {m : ℕ} (hm : m ≠ n) : (fs.grab n).vnodes m = fs.vnodes m := by
  unfold grab
  split
  · simp [setVnode, hm]
  · simp [setVnode, setInode, hm]
  · rfl

theorem Linked.grab (hv : fs.Valid) (hk : fs.Linked) : (fs.grab n).Linked := by
  intro m nd hcore hnd
  rw [grab_node] at hnd
  by_cases hm : m = n
  · subst hm
    have hl : (fs.node m).isSome := by rw [hnd]; rfl
    have hp := (points_ptr hl).refs_pos hv.grab
    rw [ptr_vno, refs_pos hv.grab, hcore] at hp
    cases hp
  · rw [grab_vnodes_ne hm] at hcore
    exact hk m nd hcore hnd

/-- A reference is taken and dropped. -/
theorem same_grab_release (hv : fs.Valid) (hk : fs.Linked) (hl : (fs.node n).isSome) :
    Same fs ((fs.grab n).release n) := by
  cases h : fs.vnodes n with
  | some v =>
    rw [grab_release hv (by rw [h]; rfl)]
    exact Same.refl fs
  | none =>
    obtain ⟨nd, hnd⟩ := Option.isSome_iff_exists.1 hl
    obtain ⟨i, hi, rfl⟩ := node_some.1 hnd
    have hne := hk n _ h hnd
    simp only [h, Option.isSome_none, Bool.false_eq_true, if_false, sub_zero] at hne
    have hcore : (fs.grab n).vnodes n = some ⟨fs.allocs, 1, i.mem.mode, i.size⟩ := by
      simp [grab_eq_of_not_core h hi, replace]
    have hino : (fs.grab n).inodes n = some { i with linkcount := i.linkcount + 1 } := by
      simp [grab_eq_of_not_core h hi, replace]
    rw [release_eq_of_one hcore hino (by simp), grab_eq_of_not_core h hi]
    refine ⟨?_, ?_, Nat.le_succ _⟩
    · simp only [replace, update_idem, add_sub_cancel_right, hne, if_false]
      rw [← hi, update_eq_self]
    · simp only [replace, update_idem]
      rw [← h, update_eq_self]

/-- A vnode that is not in core is read and freed again; the pointer to it is of no use any more. -/
theorem not_points_release (hv : fs.Valid) (h : fs.vnodes n = none) (hl : (fs.node n).isSome) :
    ¬ ((fs.grab n).release n).Points (fs.ptr n) := by
  have hrefs : fs.refs n = 0 := by simp [refs, h]
  rw [points_release hv.grab, ptr_vno, grab_refs hl, update_self, hrefs]
  simp

end Fs

section Lookup

variable {fs fs' : Fs} {p dir : VPtr} {n d : ℕ} {name : CStr} {r : Except Errno VPtr}

theorem lookup_ok (hv : fs.Valid) (hp : fs.Points dir) :
    lookup dir name fs = .ok r fs' ↔ fs.Finds (fs.entry dir.vno name) r fs' := by
  obtain ⟨nd, hnd⟩ := hv.live (hp.refs_pos hv)
  obtain ⟨v, hd, hm⟩ := deref_of_points hv hp hnd
  unfold lookup
  rw [bind_ok _ hd, hm]
  by_cases hdir : nd.mem.mode = .dir
  · obtain ⟨e, he⟩ := Mem.mode_dir.1 hdir
    have hD : fs.Dir dir e := dir_iff.2 ⟨hp, nd, hnd, he⟩
    have hentry : fs.entry dir.vno name = match findEntry e name with
        | none => .error .enoent
        | some i => .ok (e i).ino := by
      simp [Fs.entry, hnd, he, Mem.entries]
    rw [if_neg (not_not.2 hdir), ramfsLookup_ok hv, hentry]
    cases hf : findEntry e name with
    | none =>
      constructor
      · rintro ⟨e', he', ⟨-, rfl, rfl⟩ | ⟨i, hi, -⟩⟩
        · exact ⟨rfl, rfl⟩
        rw [← hD.inj he', hf] at hi
        cases hi
      · rintro ⟨rfl, rfl⟩
        exact ⟨e, hD, .inl ⟨hf, rfl, rfl⟩⟩
    | some i =>
      constructor
      · rintro ⟨e', he', ⟨hno, -⟩ | ⟨j, hj, hl, rfl, rfl⟩⟩
        · rw [← hD.inj he', hf] at hno
          cases hno
        obtain rfl := hD.inj he'
        obtain rfl : i = j := Option.some.inj (hf.symm.trans hj)
        rw [← node_isSome] at hl
        exact ⟨hl, rfl, rfl⟩
      · rintro ⟨hl, rfl, rfl⟩
        rw [node_isSome] at hl
        exact ⟨e, hD, .inr ⟨i, hf, hl, rfl, rfl⟩⟩
  · have hentry : fs.entry dir.vno name = .error .enotdir := by
      have : nd.mem.entries = none := by
        cases hmem : nd.mem with
        | dir e => exact absurd (Mem.mode_dir.2 ⟨e, hmem⟩) hdir
        | data _ => rfl
        | chr _ => rfl
        | blk _ => rfl
      simp [Fs.entry, hnd, this]
    rw [if_pos hdir, pure_ok_iff, hentry]
    exact and_congr_left' eq_comm

theorem lookup_points (h : lookup dir name fs = .ok r fs') : fs.Points dir := by
  obtain ⟨v, _, hd, -⟩ := bind_ok_iff.1 h
  obtain ⟨hv, -⟩ := need_ok.1 hd
  obtain ⟨hw, hid⟩ := deref_some.1 hv
  exact ⟨v, hw, hid⟩

/-- The directory is not used for a name that is too long. -/
theorem lookupPiece_ok {piece : CStr} (hv : fs.Valid) (hp : piece.length ≤ nameLen → fs.Points dir) :
    lookupPiece dir piece fs = .ok r fs' ↔ piece.length ≤ nameLen + 1 ∧ fs.Finds (fs.step dir.vno piece) r fs' := by
  unfold lookupPiece Fs.step
  by_cases hlong : nameLen + 1 < piece.length
  · rw [if_pos hlong, throw_ok_iff]
    exact ⟨False.elim, fun h => absurd h.1 (by omega)⟩
  rw [if_neg hlong]
  by_cases hname : nameLen < piece.length
  · rw [if_pos hname, if_pos hname, pure_ok_iff]
    exact ⟨fun h => ⟨by omega, h.1.symm, h.2⟩, fun h => ⟨h.2.1.symm, h.2.2⟩⟩
  · rw [if_neg hname, if_neg hname, lookup_ok hv (hp (by omega))]
    exact ⟨fun h => ⟨by omega, h⟩, And.right⟩

/-! ### The walk -/

/-- The loop of `dir_namev` and the lookup after it, over the components. Where there is none, another
reference to the directory is taken. -/
def walkPieces (dir : VPtr) : List CStr → FsM (Except Errno VPtr)
  | [] => do
    vref dir
    return .ok dir
  | [piece] => lookupPiece dir piece
  | piece :: rest => do
    match ← lookupPiece dir piece with
    | .error e => return .error e
    | .ok p =>
      vput p
      walkPieces p rest

/-- What is done with the end of the loop. -/
def finish (x : Except Errno (VPtr × CStr)) : FsM (Except Errno VPtr) :=
  match x with
  | .error e => return .error e
  | .ok (dir, piece) => lookupPiece dir piece

theorem walkLoop_pieces (dir : VPtr) (seen chars : CStr) :
    (walkLoop dir seen chars >>= finish) = walkPieces dir ((chars.splitOn slash).modifyHead (seen ++ ·)) := by
  induction chars generalizing dir seen with
  | nil => simp [walkLoop, finish, walkPieces]
  | cons c rest ih =>
    rw [walkLoop, splitOn_cons_eq_if_modifyHead]
    obtain ⟨q, qs, hq⟩ := exists_cons_of_ne_nil (splitOn_ne_nil slash rest)
    by_cases hc : c = slash
    · subst hc
      have hrest := fun p => ih p []
      simp only [hq, modifyHead_cons, nil_append] at hrest
      simp only [if_true, beq_self_eq_true, modifyHead_cons, append_nil, hq, bind_assoc]
      rw [walkPieces]
      · congr 1
        funext x
        cases x with
        | error e => rfl
        | ok p =>
          simp only [bind_assoc, hrest]
      · simp
    · have hbeq : (c == slash) = false := by simpa using hc
      simp only [hc, if_false, hbeq, Bool.false_eq_true]
      rw [ih, hq]
      simp

/-- Every lookup of a walk copies no more than its buffer holds and finds an inode that is allocated;
every directory in which a lookup is made, after the first, is in core. -/
def Fs.Safe (fs : Fs) : ℕ → List CStr → Prop
  | _, [] => True
  | d, piece :: rest => piece.length ≤ nameLen + 1 ∧ ∀ n, fs.step d piece = .ok n → (fs.node n).isSome ∧
      (∀ q ∈ rest.head?, q.length ≤ nameLen → (fs.vnodes n).isSome) ∧ fs.Safe n rest

/-- What a walk returns that finds `x`. -/
def Fs.Walks (fs : Fs) (x : Except Errno ℕ) (r : Except Errno VPtr) (fs' : Fs) : Prop :=
  match x with
  | .error e => r = .error e ∧ fs.Same fs'
  | .ok n => (fs.node n).isSome ∧ r = .ok (fs.ptr n) ∧ fs.grab n = fs'

theorem Fs.Finds.walks {x : Except Errno ℕ} (h : fs.Finds x r fs') : fs.Walks x r fs' := by
  cases x with
  | error e =>
    obtain ⟨rfl, rfl⟩ := h
    exact ⟨rfl, .refl fs⟩
  | ok n => exact h

theorem lookupPiece_points {piece : CStr} (hlen : piece.length ≤ nameLen) (h : lookupPiece dir piece fs = .ok r fs') :
    fs.Points dir := by
  unfold lookupPiece at h
  rw [if_neg (by omega), if_neg (by omega)] at h
  exact lookup_points h

theorem walkPieces_points {q : CStr} {qs : List CStr} (hlen : q.length ≤ nameLen)
    (h : walkPieces dir (q :: qs) fs = .ok r fs') : fs.Points dir := by
  cases qs with
  | nil => exact lookupPiece_points hlen h
  | cons q' qs =>
    rw [walkPieces] at h
    · obtain ⟨x, fs₁, hx, -⟩ := bind_ok_iff.1 h
      exact lookupPiece_points hlen hx
    · simp

theorem step_long {piece : CStr} (h : ¬ piece.length ≤ nameLen) : fs.step d piece = .error .enametoolong :=
  if_pos (by omega)

theorem lookupPiece_long {piece : CStr} (hlen : ¬ piece.length ≤ nameLen) :
    lookupPiece dir piece fs = .ok r fs' ↔ piece.length ≤ nameLen + 1 ∧ r = .error .enametoolong ∧ fs = fs' := by
  unfold lookupPiece
  by_cases hlong : nameLen + 1 < piece.length
  · rw [if_pos hlong, throw_ok_iff]
    exact ⟨False.elim, fun h => absurd h.1 (by omega)⟩
  · rw [if_neg hlong, if_pos (by omega), pure_ok_iff]
    exact ⟨fun h => ⟨by omega, h.1.symm, h.2⟩, fun h => ⟨h.2.1.symm, h.2.2⟩⟩

theorem walkPieces_long {q : CStr} {qs : List CStr} (hlen : ¬ q.length ≤ nameLen) :
    walkPieces dir (q :: qs) fs = .ok r fs' ↔ q.length ≤ nameLen + 1 ∧ r = .error .enametoolong ∧ fs = fs' := by
  cases qs with
  | nil => exact lookupPiece_long hlen
  | cons q' qs =>
    rw [walkPieces]
    · simp only [bind_ok_iff, lookupPiece_long hlen]
      constructor
      · rintro ⟨_, _, ⟨hle, rfl, rfl⟩, h⟩
        obtain ⟨rfl, rfl⟩ := pure_ok_iff.1 h
        exact ⟨hle, rfl, rfl⟩
      · rintro ⟨hle, rfl, rfl⟩
        exact ⟨_, _, ⟨hle, rfl, rfl⟩, rfl⟩
    · simp

theorem walkPieces_walks {ps : List CStr} (hps : ps ≠ []) (hv : fs.Valid) (hk : fs.Linked)
    (hp : ∀ q ∈ ps.head?, q.length ≤ nameLen → fs.Points dir) (h : walkPieces dir ps fs = .ok r fs') :
    fs.Safe dir.vno ps ∧ fs.Walks (fs.follow dir.vno ps) r fs' := by
  induction ps generalizing dir with
  | nil => exact absurd rfl hps
  | cons piece rest ih =>
    have hp' := hp piece rfl
    cases rest with
    | nil =>
      obtain ⟨hlen, hfind⟩ := (lookupPiece_ok hv hp').1 h
      unfold Fs.Safe Fs.follow
      cases hstep : fs.step dir.vno piece with
      | error e =>
        rw [hstep] at hfind
        exact ⟨⟨hlen, nofun⟩, hfind.walks⟩
      | ok n =>
        rw [hstep] at hfind
        refine ⟨⟨hlen, fun m hm => ?_⟩, hfind⟩
        cases hm
        exact ⟨hfind.1, nofun, trivial⟩
    | cons q qs =>
      rw [walkPieces] at h
      · obtain ⟨x, fs₁, hx, h⟩ := bind_ok_iff.1 h
        obtain ⟨hlen, hfind⟩ := (lookupPiece_ok hv hp').1 hx
        unfold Fs.Safe Fs.follow
        cases hstep : fs.step dir.vno piece with
        | error e =>
          rw [hstep] at hfind
          obtain ⟨rfl, rfl⟩ := hfind
          obtain ⟨rfl, rfl⟩ := pure_ok_iff.1 h
          exact ⟨⟨hlen, nofun⟩, rfl, .refl fs⟩
        | ok n =>
          rw [hstep] at hfind
          obtain ⟨hl, rfl, rfl⟩ := hfind
          obtain ⟨_, fs2, hput, h⟩ := bind_ok_iff.1 h
          obtain ⟨-, rfl⟩ := (vput_ok hv.grab).1 hput
          rw [ptr_vno] at h
          cases hcore : fs.vnodes n with
          | some v =>
            -- nothing has changed, and the walk goes on
            have hc : (fs.vnodes n).isSome := by rw [hcore]; rfl
            rw [grab_release hv hc] at h
            obtain ⟨hsafe, hwalk⟩ := ih (by simp) (fun _ _ _ => points_of_core hc) h
            rw [ptr_vno] at hsafe hwalk
            refine ⟨⟨hlen, fun m hm => ?_⟩, hwalk⟩
            cases hm
            exact ⟨hl, fun _ _ _ => hc, hsafe⟩
          | none =>
            -- the pointer is stale; only a name that is too long does not need it
            have hq : ¬ q.length ≤ nameLen := fun hq =>
              not_points_release hv hcore hl (walkPieces_points hq h)
            have hsame := same_grab_release hv hk hl
            obtain ⟨hlen', rfl, rfl⟩ := (walkPieces_long hq).1 h
            have hfollow : fs.follow n (q :: qs) = .error .enametoolong := by
              rw [Fs.follow, step_long hq]
            simp only [hfollow]
            refine ⟨⟨hlen, fun m hm => ?_⟩, rfl, hsame⟩
            cases hm
            refine ⟨hl, fun q' hq' hle => ?_, hlen', fun m hm => ?_⟩
            · cases hq'
              exact absurd hle hq
            · rw [step_long hq] at hm
              cases hm
      · simp

/-- A safe walk comes back. -/
theorem walkPieces_of_safe {ps : List CStr} (hps : ps ≠ []) (hv : fs.Valid)
    (hp : ∀ q ∈ ps.head?, q.length ≤ nameLen → fs.Points dir) (h : fs.Safe dir.vno ps) :
    ∃ r fs', walkPieces dir ps fs = .ok r fs' := by
  induction ps generalizing dir with
  | nil => exact absurd rfl hps
  | cons piece rest ih =>
    have hp' := hp piece rfl
    obtain ⟨hlen, hnext⟩ := h
    cases rest with
    | nil =>
      unfold walkPieces
      simp only [lookupPiece_ok hv hp']
      cases hstep : fs.step dir.vno piece with
      | error e => exact ⟨_, _, hlen, rfl, rfl⟩
      | ok n => exact ⟨_, _, hlen, (hnext n hstep).1, rfl, rfl⟩
    | cons q qs =>
      rw [walkPieces]
      · cases hstep : fs.step dir.vno piece with
        | error e =>
          refine ⟨.error e, fs, bind_ok_iff.2 ⟨.error e, fs, (lookupPiece_ok hv hp').2 ⟨hlen, ?_⟩, rfl⟩⟩
          rw [hstep]
          exact ⟨rfl, rfl⟩
        | ok n =>
          obtain ⟨hl, hcore, hsafe⟩ := hnext n hstep
          have hfind : lookupPiece dir piece fs = .ok (.ok (fs.ptr n)) (fs.grab n) := by
            rw [lookupPiece_ok hv hp', hstep]
            exact ⟨hlen, hl, rfl, rfl⟩
          have hput : vput (fs.ptr n) (fs.grab n) = .ok () ((fs.grab n).release n) :=
            (vput_ok hv.grab).2 ⟨points_ptr hl, by rw [ptr_vno]⟩
          rw [bind_ok _ hfind]
          simp only [bind_ok _ hput]
          by_cases hq : q.length ≤ nameLen
          · have hc := hcore q rfl hq
            rw [grab_release hv hc]
            exact ih (by simp) (fun _ _ _ => points_of_core hc) (by rw [ptr_vno]; exact hsafe)
          · exact ⟨_, _, (walkPieces_long hq).2 ⟨hsafe.1, rfl, rfl⟩⟩
      · simp

/-- The walk from a directory that is in core. -/
theorem walk_ok {ps : List CStr} (hv : fs.Valid) (hk : fs.Linked) (hp : fs.Points dir)
    (h : walkPieces dir ps fs = .ok r fs') : fs.Safe dir.vno ps ∧ fs.Walks (fs.follow dir.vno ps) r fs' := by
  cases ps with
  | nil =>
    obtain ⟨_, fs₁, href, h⟩ := bind_ok_iff.1 h
    obtain ⟨-, rfl⟩ := (vref_ok hv).1 href
    obtain ⟨rfl, rfl⟩ := pure_ok_iff.1 h
    obtain ⟨nd, hnd⟩ := hv.live (hp.refs_pos hv)
    exact ⟨trivial, by rw [hnd]; rfl, by rw [ptr_of_points hp], rfl⟩
  | cons q qs => exact walkPieces_walks (by simp) hv hk (fun _ _ _ => hp) h

theorem walk_of_safe {ps : List CStr} (hv : fs.Valid) (hp : fs.Points dir) (h : fs.Safe dir.vno ps) :
    ∃ r fs', walkPieces dir ps fs = .ok r fs' := by
  cases ps with
  | nil => exact ⟨.ok dir, _, bind_ok_iff.2 ⟨(), _, (vref_ok hv).2 ⟨hp, rfl⟩, rfl⟩⟩
  | cons q qs => exact walkPieces_of_safe (by simp) hv (fun _ _ _ => hp) h

end Lookup

/-! ### The parent directory -/

/-- Where resolution starts. -/
inductive Origin
  | root
  | cwd
  | up

def origin (pathname : CStr) : Origin :=
  if (finalPath pathname).take 2 = [dot, slash] then .cwd
  else if (finalPath pathname).take 3 = [dot, dot, slash] then .up
  else .root

def fileName (pathname : CStr) : CStr :=
  match origin pathname with
  | .root => finalPath pathname
  | .cwd => (finalPath pathname).drop 1
  | .up => (finalPath pathname).drop 2

/-- The components that are looked up on the way to the parent directory. -/
def parentPieces (pathname : CStr) : List CStr :=
  if pathname = [dot] ∨ pathname = [dot, dot] then [pathname]
  else if dupPath (fileName pathname) (baseName pathname).length = [] then []
  else (compress (dupPath (fileName pathname) (baseName pathname).length)).tail.splitOn slash

theorem walkPieces_eq (dir : VPtr) (chars : CStr) :
    walkPieces dir (chars.splitOn slash) = (walkLoop dir [] chars >>= finish) := by
  rw [walkLoop_pieces]
  obtain ⟨q, qs, hq⟩ := exists_cons_of_ne_nil (splitOn_ne_nil slash chars)
  rw [hq]
  simp

theorem dirNamevFrom_eq (pathname : CStr) (dir : VPtr) : dirNamevFrom pathname dir (fileName pathname) =
    if nameLen < (baseName pathname).length then return .error ⟨.enametoolong, true⟩
    else do return (← walkPieces dir (parentPieces pathname)).mapError (⟨·, true⟩) := by
  unfold dirNamevFrom parentPieces
  by_cases hlong : nameLen < (baseName pathname).length
  · simp only [if_pos hlong]
  simp only [if_neg hlong]
  by_cases hdots : pathname = [dot] ∨ pathname = [dot, dot]
  · have hdup : dupPath (fileName pathname) (baseName pathname).length = pathname := by
      rcases hdots with rfl | rfl
      · rw [show fileName [dot] = [dot] by decide, show baseName [dot] = [dot] by decide]
        exact take_of_length_le (by norm_num)
      · rw [show fileName [dot, dot] = [dot, dot] by decide, show baseName [dot, dot] = [dot, dot] by decide]
        exact take_of_length_le (by norm_num)
    have hne : pathname ≠ [] := by
      rintro rfl
      rcases hdots with h | h <;> cases h
    rw [hdup, if_neg hne]
    rcases hdots with rfl | rfl
    · rfl
    · rfl
  · simp only [if_neg hdots]
    by_cases hdup : dupPath (fileName pathname) (baseName pathname).length = []
    · rw [if_pos hdup, if_pos hdup]
      simp [walkPieces]
      rfl
    rw [if_neg hdup, if_neg hdup, walkPieces_eq, bind_assoc]
    congr 1
    funext x
    cases x with
    | error e => rfl
    | ok x => rfl

/-- Where a process calls from: it holds its current directory, and the mount holds the root. -/
structure Home (fs : Fs) (cwd : VPtr) : Prop where
  valid : fs.Valid
  linked : fs.Linked
  cwd : fs.Points cwd
  root : fs.Points rootVn

/-- What the walk finds from the directory where it starts. -/
def Fs.way (fs : Fs) (d : ℕ) (path : CStr) : Except Errno ℕ :=
  if nameLen < (baseName path).length then .error .enametoolong else fs.follow d (parentPieces path)

def Fs.SafeWay (fs : Fs) (d : ℕ) (path : CStr) : Prop :=
  (baseName path).length ≤ nameLen → fs.Safe d (parentPieces path)

/-- The directory where the walk starts, and the state in which it does. -/
def Fs.Starts (fs : Fs) (cwd : VPtr) (path : CStr) (dir : VPtr) (fs₁ : Fs) : Prop :=
  match origin path with
  | .root => dir = rootVn ∧ fs₁ = fs
  | .cwd => dir = cwd ∧ fs₁ = fs
  | .up => ∃ n, fs.entry cwd.vno [dot, dot] = .ok n ∧ (fs.node n).isSome ∧ dir = fs.ptr n ∧ fs₁ = fs.grab n

section Parent

variable {fs fs' fs₁ : Fs} {cwd dir : VPtr} {path : CStr} {r : Except Failure VPtr}

theorem dirNamevFrom_ok (hv : fs.Valid) (hk : fs.Linked) (hp : fs.Points dir)
    (h : dirNamevFrom path dir (fileName path) fs = .ok r fs') :
    fs.SafeWay dir.vno path ∧ fs.Walks (fs.way dir.vno path) (r.mapError Failure.errno) fs' ∧
      ∀ e, r = .error e → e.cleared = true := by
  rw [dirNamevFrom_eq] at h
  unfold Fs.SafeWay Fs.way
  by_cases hlong : nameLen < (baseName path).length
  · rw [if_pos hlong] at h ⊢
    obtain ⟨rfl, rfl⟩ := pure_ok_iff.1 h
    refine ⟨fun h => by omega, ⟨rfl, .refl fs⟩, ?_⟩
    rintro _ ⟨⟩
    rfl
  rw [if_neg hlong] at h ⊢
  obtain ⟨x, hwalk, rfl⟩ := bind_pure_iff.1 h
  obtain ⟨hsafe, hw⟩ := walk_ok hv hk hp hwalk
  refine ⟨fun _ => hsafe, ?_, ?_⟩
  · cases x with
    | error e => exact hw
    | ok p => exact hw
  cases x with
  | error e =>
    rintro _ ⟨⟩
    rfl
  | ok p => rintro _ ⟨⟩

theorem dirNamevFrom_of_safe (hv : fs.Valid) (hp : fs.Points dir) (h : fs.SafeWay dir.vno path) :
    ∃ r fs', dirNamevFrom path dir (fileName path) fs = .ok r fs' := by
  rw [dirNamevFrom_eq]
  by_cases hlong : nameLen < (baseName path).length
  · rw [if_pos hlong]
    exact ⟨_, _, rfl⟩
  rw [if_neg hlong]
  obtain ⟨x, fs₁, hwalk⟩ := walk_of_safe hv hp (h (by omega))
  exact ⟨_, fs₁, bind_ok_iff.2 ⟨x, fs₁, hwalk, rfl⟩⟩

theorem dirNamev_eq (hlen : path.length ≤ 1024) (hfinal : (finalPath path).length < maxPathLen) :
    dirNamev cwd path =
      match origin path with
      | .root => dirNamevFrom path rootVn (fileName path)
      | .cwd => dirNamevFrom path cwd (fileName path)
      | .up => (lookup cwd [dot, dot] >>= fun
          | .error e => return .error ⟨e, false⟩
          | .ok p => dirNamevFrom path p (fileName path)) := by
  unfold dirNamev startDir origin fileName
  rw [if_neg (by omega), if_neg (by omega)]
  by_cases hcwd : (finalPath path).take 2 = [dot, slash]
  · simp only [origin, if_pos hcwd]
    rfl
  by_cases hup : (finalPath path).take 3 = [dot, dot, slash]
  · simp only [origin, if_neg hcwd, if_pos hup, bind_assoc]
    congr 1
    funext x
    cases x with
    | error e => rfl
    | ok p => rfl
  · simp only [origin, if_neg hcwd, if_neg hup]
    rfl

theorem dirNamev_ok (h : Home fs cwd) : dirNamev cwd path fs = .ok r fs' ↔
    (1024 < path.length ∧ r = .error ⟨.enametoolong, true⟩ ∧ fs = fs') ∨
      (path.length ≤ 1024 ∧ (finalPath path).length < maxPathLen ∧
        ((∃ e, origin path = .up ∧ fs.entry cwd.vno [dot, dot] = .error e ∧ r = .error ⟨e, false⟩ ∧ fs = fs') ∨
          ∃ dir fs₁, fs.Starts cwd path dir fs₁ ∧ dirNamevFrom path dir (fileName path) fs₁ = .ok r fs')) := by
  by_cases hlen : 1024 < path.length
  · unfold dirNamev
    rw [if_pos hlen, pure_ok_iff]
    constructor
    · rintro ⟨rfl, rfl⟩
      exact .inl ⟨hlen, rfl, rfl⟩
    rintro (⟨-, rfl, rfl⟩ | ⟨h', -⟩)
    · exact ⟨rfl, rfl⟩
    · omega
  by_cases hfinal : maxPathLen ≤ (finalPath path).length
  · unfold dirNamev
    rw [if_neg hlen, if_pos hfinal, throw_ok_iff]
    exact ⟨False.elim, fun h' => by omega⟩
  rw [dirNamev_eq (by omega) (by omega)]
  simp only [hlen, false_and, false_or, not_lt.1 hlen, true_and, not_le.1 hfinal, Fs.Starts]
  cases origin path with
  | root => simp
  | cwd => simp
  | up =>
    simp only [bind_ok_iff, lookup_ok h.valid h.cwd, true_and]
    constructor
    · rintro ⟨x, fs₁, hx, h'⟩
      cases hentry : fs.entry cwd.vno [dot, dot] with
      | error e =>
        rw [hentry] at hx
        obtain ⟨rfl, rfl⟩ := hx
        obtain ⟨rfl, rfl⟩ := pure_ok_iff.1 h'
        exact .inl ⟨e, rfl, rfl, rfl⟩
      | ok n =>
        rw [hentry] at hx
        obtain ⟨hl, rfl, rfl⟩ := hx
        exact .inr ⟨fs.ptr n, fs.grab n, ⟨n, rfl, hl, rfl, rfl⟩, h'⟩
    · rintro (⟨e, hentry, rfl, rfl⟩ | ⟨_, _, ⟨n, hentry, hl, rfl, rfl⟩, h'⟩)
      · refine ⟨.error e, fs, ?_, rfl⟩
        rw [hentry]
        exact ⟨rfl, rfl⟩
      refine ⟨.ok (fs.ptr n), fs.grab n, ?_, h'⟩
      rw [hentry]
      exact ⟨hl, rfl, rfl⟩

/-- The walk starts in a directory that is in core, in a state with the same nodes. -/
theorem Fs.Starts.spec (h : Home fs cwd) (hs : fs.Starts cwd path dir fs₁) :
    fs₁.Valid ∧ fs₁.Linked ∧ fs₁.Points dir ∧ fs₁.node = fs.node := by
  unfold Fs.Starts at hs
  cases ho : origin path with
  | root =>
    rw [ho] at hs
    obtain ⟨rfl, rfl⟩ := hs
    exact ⟨h.valid, h.linked, h.root, rfl⟩
  | cwd =>
    rw [ho] at hs
    obtain ⟨rfl, rfl⟩ := hs
    exact ⟨h.valid, h.linked, h.cwd, rfl⟩
  | up =>
    rw [ho] at hs
    obtain ⟨n, -, hl, rfl, rfl⟩ := hs
    exact ⟨h.valid.grab, h.linked.grab h.valid, points_ptr hl, grab_node⟩

/-- What `dir_namev` finds. -/
def Fs.parent (fs : Fs) (cwd : VPtr) (path : CStr) : Except Errno ℕ :=
  if 1024 < path.length then .error .enametoolong
  else
    match origin path with
    | .root => fs.way rootVn.vno path
    | .cwd => fs.way cwd.vno path
    | .up =>
      match fs.entry cwd.vno [dot, dot] with
      | .error e => .error e
      | .ok n => fs.way n path

/-- Where `dir_namev` comes back and drops every reference it does not return: the path fits in its
buffer, the walk is safe, and the path does not begin with the parent of the current directory. -/
def Fs.ParentSafe (fs : Fs) (cwd : VPtr) (path : CStr) : Prop :=
  1024 < path.length ∨ ((finalPath path).length < maxPathLen ∧
    match origin path with
    | .root => fs.SafeWay rootVn.vno path
    | .cwd => fs.SafeWay cwd.vno path
    | .up => ∃ e, fs.entry cwd.vno [dot, dot] = .error e)

theorem way_entry (hentry : fs₁.entry = fs.entry) : fs₁.way = fs.way := by
  have hstep : fs₁.step = fs.step := by
    funext d piece
    unfold Fs.step
    rw [hentry]
  have hfollow : ∀ d ps, fs₁.follow d ps = fs.follow d ps := by
    intro d ps
    induction ps generalizing d with
    | nil => rfl
    | cons q qs ih =>
      unfold Fs.follow
      rw [hstep]
      split
      · rfl
      · exact ih _
  funext d path
  unfold Fs.way
  rw [hfollow]

theorem entry_node (h : fs₁.node = fs.node) : fs₁.entry = fs.entry := by
  funext d name
  unfold Fs.entry
  rw [h]

theorem way_node (h : fs₁.node = fs.node) : fs₁.way = fs.way := way_entry (entry_node h)

/-- The reference to the parent of the current directory is never dropped. -/
theorem dirNamev_cases (h : Home fs cwd) (hok : dirNamev cwd path fs = .ok r fs') :
    (fs.ParentSafe cwd path ∧ fs.Walks (fs.parent cwd path) (r.mapError Failure.errno) fs') ∨
      (¬ fs.ParentSafe cwd path ∧ origin path = .up ∧ ∃ n, (fs.node n).isSome ∧
        (fs.grab n).Walks (fs.parent cwd path) (r.mapError Failure.errno) fs') := by
  unfold Fs.ParentSafe Fs.parent
  rcases (dirNamev_ok h).1 hok with ⟨hlen, rfl, rfl⟩ | ⟨hlen, hfinal, ⟨e, ho, hentry, rfl, rfl⟩ | ⟨dir, fs₁, hs, hfrom⟩⟩
  · rw [if_pos hlen]
    exact .inl ⟨.inl hlen, rfl, .refl fs⟩
  · rw [if_neg (by omega), ho, hentry]
    exact .inl ⟨.inr ⟨hfinal, e, rfl⟩, rfl, .refl fs⟩
  obtain ⟨hv, hk, hp, hnode⟩ := hs.spec h
  obtain ⟨hsafe, hwalk, -⟩ := dirNamevFrom_ok hv hk hp hfrom
  rw [way_node hnode] at hwalk
  rw [if_neg (by omega)]
  unfold Fs.Starts at hs
  cases ho : origin path with
  | root | cwd =>
    rw [ho] at hs
    obtain ⟨rfl, rfl⟩ := hs
    exact .inl ⟨.inr ⟨hfinal, hsafe⟩, hwalk⟩
  | up =>
    rw [ho] at hs
    obtain ⟨n, hentry, hl, rfl, rfl⟩ := hs
    rw [ptr_vno] at hwalk
    simp only [hentry]
    refine .inr ⟨?_, trivial, n, hl, hwalk⟩
    rintro (h' | ⟨-, e, he⟩)
    · omega
    · cases he

theorem dirNamev_of_safe (h : Home fs cwd) (hsafe : fs.ParentSafe cwd path) : ∃ r fs', dirNamev cwd path fs = .ok r fs' := by
  simp only [dirNamev_ok h]
  by_cases hlen : 1024 < path.length
  · exact ⟨_, _, .inl ⟨hlen, rfl, rfl⟩⟩
  obtain ⟨hfinal, hway⟩ := hsafe.resolve_left hlen
  cases ho : origin path with
  | root =>
    rw [ho] at hway
    obtain ⟨r, fs', hfrom⟩ := dirNamevFrom_of_safe h.valid h.root hway
    refine ⟨r, fs', .inr ⟨by omega, hfinal, .inr ⟨rootVn, fs, ?_, hfrom⟩⟩⟩
    rw [Fs.Starts, ho]
    exact ⟨rfl, rfl⟩
  | cwd =>
    rw [ho] at hway
    obtain ⟨r, fs', hfrom⟩ := dirNamevFrom_of_safe h.valid h.cwd hway
    refine ⟨r, fs', .inr ⟨by omega, hfinal, .inr ⟨cwd, fs, ?_, hfrom⟩⟩⟩
    rw [Fs.Starts, ho]
    exact ⟨rfl, rfl⟩
  | up =>
    rw [ho] at hway
    obtain ⟨e, he⟩ := hway
    exact ⟨_, fs, .inr ⟨by omega, hfinal, .inl ⟨e, rfl, he, rfl, rfl⟩⟩⟩

end Parent

end Weenix.Vfs
