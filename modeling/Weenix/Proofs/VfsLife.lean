import Weenix.Proofs.VfsCount
import Weenix.Proofs.VfsTree

/-! The directories and the link counts over every sequence of calls. -/

namespace Weenix.Vfs

open Function Exec Fs Option

open Tally (Counted)

/-- Who holds a vnode: a process holds its current directory and an open file its vnode. The reference that
`do_mkdir` takes of a new directory is never given back, so that a directory is held for good. -/
inductive Holder
  | proc (pid : ℕ)
  | file (f : ℕ)
  | pin (d : ℕ)
deriving DecidableEq

/-- The first `n` processes are in use. -/
def World.held (w : World) (n : ℕ) : Holder → Option ℕ
  | .proc pid => if pid < n then some (w.proc pid).cwd.vno else none
  | .file f => (w.file f).bind fun x => x.vnode.map (·.vno)
  | .pin d => if isDir (w.fs.look d) then some d else none

structure Alive (n : ℕ) (w : World) : Prop where
  valid : w.fs.Valid
  linked : w.fs.Linked
  tree : TreeInv w.fs.look
  cwd : ∀ {pid}, pid < n → w.fs.Points (w.proc pid).cwd
  dir : ∀ {pid}, pid < n → isDir (w.fs.look (w.proc pid).cwd.vno) = true
  root : w.fs.Points rootVn
  vnode : ∀ {f x vn}, w.file f = some x → x.vnode = some vn → w.fs.Points vn
  fresh : w.Fresh
  counts : ∃ c, Counted (w.held n) c ∧ ∀ k, c k ≤ w.fs.refs k

section Holders

variable {n : ℕ} {w w' : World} {g : Fs} {pid f k : ℕ} {x y : File} {vn p : VPtr}

theorem held_pin {d : ℕ} (hd : isDir (w.fs.look d) = true) : w.held n (.pin d) = some d := by
  rw [World.held, if_pos hd]

theorem held_proc (hpid : pid < n) : w.held n (.proc pid) = some (w.proc pid).cwd.vno := by
  rw [World.held, if_pos hpid]

theorem held_file (hf : w.file f = some x) (hx : x.vnode = some vn) : w.held n (.file f) = some vn.vno := by
  simp [World.held, hf, hx]

theorem look_isSome (hv : g.Valid) (hk : 0 < g.refs k) : (g.look k).isSome := by
  obtain ⟨nd, hnd⟩ := hv.live hk
  rw [look_some hnd]
  rfl

/-- A reference is dropped that is not the last. -/
theorem release_look_many (hv : g.Valid) (hk : 1 < g.refs k) : (g.release k).look = g.look := by
  obtain ⟨⟨en, l⟩, hn⟩ := isSome_iff_exists.1 (look_isSome hv (by omega : 0 < g.refs k))
  rw [release_look hv hn (by omega), if_neg (by omega), ← hn, update_eq_self]

theorem Fs.Linked.release (h : g.Linked) (hv : g.Valid) (hk : 0 < g.refs k) : (g.release k).Linked := by
  obtain ⟨⟨en, l⟩, hn⟩ := isSome_iff_exists.1 (look_isSome hv hk)
  rw [linked_iff hv] at h
  rw [linked_iff hv.release, release_look hv hn hk, release_refs hv hk]
  intro m e l' h0 hl
  rw [update_apply] at h0 hl
  split_ifs at h0 hl with hm hd
  · cases hl
    intro hl0
    exact hd ⟨by omega, hl0⟩
  · exact h m e l' h0 hl

namespace Alive

section
variable (h : Alive n w)
include h

theorem home (hpid : pid < n) : Home w.fs (w.proc pid).cwd := ⟨h.valid, h.linked, h.cwd hpid, h.root⟩

theorem refs_pos {i : Holder} (hi : w.held n i = some k) : 0 < w.fs.refs k := by
  obtain ⟨c, hc, hle⟩ := h.counts
  exact (hc.pos hi).trans_le (hle k)

theorem pinned (d : ℕ) (hd : isDir (w.fs.look d) = true) : 0 < w.fs.refs d := h.refs_pos (held_pin hd)

theorem shared {i j : Holder} (hi : w.held n i = some k) (hj : w.held n j = some k) (hij : i ≠ j) :
    1 < w.fs.refs k := by
  obtain ⟨c, hc, hle⟩ := h.counts
  exact (hc.two_le hi hj hij).trans (hle k)

theorem not_held (hk : w.fs.look k = none) (i : Holder) : w.held n i ≠ some k := by
  intro hi
  obtain ⟨nd, hnd⟩ := h.valid.live (h.refs_pos hi)
  rw [look_some hnd] at hk
  cases hk

/-- After a call on a path the same is held, and each new directory. -/
theorem counts_moved (hm : Moved w.fs g) : ∃ c, Counted ({ w with fs := g }.held n) c ∧
    ∀ k, c k ≤ g.refs k ∧ (c k ≤ w.fs.refs k ∨ w.fs.look k = none ∧ isDir (g.look k) = true) := by
  obtain ⟨htree, hdirs, hnew⟩ := hm.change.grows h.tree h.pinned
  obtain ⟨c, hc, hle⟩ := h.counts
  refine ⟨fun k => if w.fs.look k = none ∧ isDir (g.look k) = true then 1 else c k, fun k => ?_, fun k => ?_⟩
  · beta_reduce
    split_ifs with hk
    · have hpin : Tally.holders ({ w with fs := g }.held n) k = {.pin k} := by
        ext i
        rw [Set.mem_singleton_iff]
        constructor
        · intro hi
          cases i with
          | proc pid => exact absurd hi (h.not_held hk.1 (.proc pid))
          | file f => exact absurd hi (h.not_held hk.1 (.file f))
          | pin d =>
            simp only [Tally.holders, Set.mem_ofPred_eq, World.held, ite_none_right_eq_some, Option.some.injEq] at hi
            rw [hi.2]
        · rintro rfl
          exact held_pin (w := { w with fs := g }) hk.2
      rw [hpin, Set.encard_singleton]
      rfl
    · have hsame : Tally.holders ({ w with fs := g }.held n) k = Tally.holders (w.held n) k := by
        ext i
        cases i with
        | proc pid => rfl
        | file f => rfl
        | pin d =>
          simp only [Tally.holders, Set.mem_ofPred_eq, World.held, ite_none_right_eq_some, Option.some.injEq]
          refine and_congr_left fun hd => ?_
          subst hd
          exact ⟨fun hd => (hnew d hd).resolve_right fun hn => hk ⟨hn.1, hd⟩, hdirs d⟩
      rw [hsame]
      exact hc k
  · beta_reduce
    split_ifs with hk
    · rcases hnew k hk.2 with hd | hd
      · rw [hk.1] at hd
        cases hd
      · exact ⟨hd.2, .inr hk⟩
    · exact ⟨(hle k).trans (hm.holds.refs k), .inl (hle k)⟩

theorem moved (hm : Moved w.fs g) : Alive n { w with fs := g } := by
  obtain ⟨htree, hdirs, -⟩ := hm.change.grows h.tree h.pinned
  obtain ⟨c, hc, hle⟩ := h.counts_moved hm
  exact ⟨hm.holds.valid, hm.linked, htree, fun hp => hm.holds.points (h.cwd hp), fun hp => hdirs _ (h.dir hp),
    hm.holds.points h.root, fun hf hx => hm.holds.points (h.vnode hf hx), h.fresh, c, hc, fun k => (hle k).1⟩

/-- Nothing else holds a vnode than the files and the processes. -/
theorem kept (hfs : w'.fs = w.fs) (hcwd : ∀ q, (w'.proc q).cwd = (w.proc q).cwd)
    (hfile : ∀ f, (w'.file f).bind (·.vnode) = (w.file f).bind (·.vnode)) (hfresh : w'.Fresh) : Alive n w' := by
  have hof : ∀ (u : World) f, u.held n (.file f) = ((u.file f).bind (·.vnode)).map (·.vno) := by
    intro u f
    rw [World.held, map_bind]
    rfl
  have hheld : w'.held n = w.held n := by
    funext i
    cases i with
    | proc q => simp only [World.held, hcwd]
    | file f => rw [hof, hof, hfile]
    | pin d => simp only [World.held, hfs]
  refine ⟨hfs ▸ h.valid, hfs ▸ h.linked, hfs ▸ h.tree, fun hp => ?_, fun hp => ?_, hfs ▸ h.root,
    fun {f x vn} hf hx => ?_, hfresh, ?_⟩
  · rw [hfs, hcwd]
    exact h.cwd hp
  · rw [hfs, hcwd]
    exact h.dir hp
  · have hvn : (w'.file f).bind (·.vnode) = some vn := by rw [hf]; exact hx
    rw [hfile] at hvn
    obtain ⟨x', hf', hx'⟩ := bind_eq_some_iff.1 hvn
    rw [hfs]
    exact h.vnode hf' hx'
  · rw [hfs, hheld]
    exact h.counts

/-- Descriptors hold no vnode. -/
theorem setFd (fd : ℕ) (o : Option ℕ) : Alive n (w.setFd pid fd o) := by
  refine h.kept rfl (fun q => ?_) (fun _ => rfl) h.fresh
  by_cases hq : q = pid
  · rw [hq, setFd_cwd]
  · simp [World.setFd, hq]

theorem putFd (fd : ℤ) (o : Option ℕ) : Alive n (w.putFd pid fd o) := by
  unfold World.putFd
  split_ifs
  · exact h
  · exact h.setFd _ o

/-- A file is changed but for its vnode, or one that has none is freed. -/
theorem setFile {o : Option File} (hx : w.file f = some x) (ho : o.bind (·.vnode) = x.vnode) :
    Alive n (w.setFile f o) := by
  refine h.kept rfl (fun _ => rfl) (fun f' => ?_) fun f' hle => none_update rfl hx (h.fresh f' hle)
  by_cases hf : f' = f
  · simp [World.setFile, hf, hx, ho]
  · simp [World.setFile, hf]

/-- The last reference of a file is dropped, and with it the reference of its vnode. -/
theorem drop (hf : w.file f = some x) (hx : x.vnode = some vn) :
    Alive n ({ w with fs := w.fs.release vn.vno }.setFile f none) := by
  have hheld := held_file (n := n) hf hx
  have hpos := h.refs_pos hheld
  obtain ⟨⟨en, links⟩, hn⟩ := isSome_iff_exists.1 (look_isSome h.valid hpos)
  have hlook := release_look h.valid hn hpos
  have hfile : w.fs.refs vn.vno = 1 → en = none := by
    intro h1
    by_contra hen
    obtain ⟨e, rfl⟩ := ne_none_iff_exists'.1 hen
    have := h.shared hheld (held_pin (n := n) (d := vn.vno) (by rw [hn]; rfl)) (by simp)
    omega
  have htree : TreeInv (w.fs.release vn.vno).look := by
    rw [hlook]
    split_ifs with hd
    · exact h.tree.freed (by rw [hn, hfile hd.1, hd.2])
    rw [← hn, update_eq_self]
    exact h.tree
  have hdir : ∀ d, isDir ((w.fs.release vn.vno).look d) = isDir (w.fs.look d) := by
    intro d
    rw [hlook, update_apply]
    split_ifs with hd hdying
    · rw [hd, hn, hfile hdying.1]
      rfl
    · rw [hd, hn]
    · rfl
  -- whoever else holds this vnode has a reference of its own
  have hpoints : ∀ {i q}, w.held n i = some q.vno → i ≠ .file f → w.fs.Points q → (w.fs.release vn.vno).Points q := by
    intro i q hi hne hq
    refine (points_release h.valid).2 ⟨hq, fun heq => ?_⟩
    rw [heq] at hi
    exact h.shared hheld hi hne.symm
  obtain ⟨c, hc, hle⟩ := h.counts
  have hheld' : ({ w with fs := w.fs.release vn.vno }.setFile f none).held n = update (w.held n) (.file f) none := by
    funext i
    cases i with
    | proc pid => rfl
    | pin d => simp [World.held, World.setFile, hdir]
    | file f' =>
      by_cases hf' : f' = f
      · simp [World.held, World.setFile, hf']
      · simp [World.held, World.setFile, hf']
  refine ⟨h.valid.release, h.linked.release h.valid hpos, htree, fun hp => ?_, fun hp => ?_, ?_,
    fun {f' x' vn'} hf' hx' => ?_, fun f' hle' => ?_, _, hheld' ▸ hc.drop hheld, fun k => ?_⟩
  · exact hpoints (held_proc hp) (by simp) (h.cwd hp)
  · exact (hdir _).trans (h.dir hp)
  · exact hpoints (held_pin h.tree.root) (by simp) h.root
  · have hne : f' ≠ f := by
      rintro rfl
      simp [World.setFile] at hf'
    simp only [World.setFile, update_of_ne hne] at hf'
    exact hpoints (held_file hf' hx') (by simpa using hne) (h.vnode hf' hx')
  · exact none_update rfl hf (h.fresh f' hle')
  have := hle k
  simp only [World.setFile]
  rw [release_refs h.valid hpos, update_apply, update_apply]
  split_ifs with hk
  · rw [← hk]
    omega
  · exact this

/-- A process goes to another directory. -/
theorem chdir (hpid : pid < n) (hm : Moved w.fs g) (hlook : g.look = w.fs.look) (hg : Gives w.fs g p)
    (hdir : isDir (w.fs.look p.vno) = true) :
    Alive n ({ w with fs := g.release (w.proc pid).cwd.vno }.setCwd pid p) := by
  have hv := hm.holds.valid
  have hmany : 1 < g.refs (w.proc pid).cwd.vno := by
    have := h.shared (held_proc hpid) (held_pin (h.dir hpid)) (by simp)
    exact this.trans_le (hm.holds.refs _)
  have hlook' := (release_look_many hv hmany).trans hlook
  have hpoints : ∀ {q}, g.Points q → (g.release (w.proc pid).cwd.vno).Points q :=
    fun hq => (points_release hv).2 ⟨hq, fun _ => hmany⟩
  have hheld : ({ w with fs := g.release (w.proc pid).cwd.vno }.setCwd pid p).held n =
      update (update (w.held n) (.proc pid) none) (.proc pid) (some p.vno) := by
    funext i
    cases i with
    | file f => rfl
    | pin d => simp [World.held, World.setCwd, hlook']
    | proc q =>
      by_cases hq : q = pid
      · simp [World.held, World.setCwd, hq, hpid]
      · simp [World.held, World.setCwd, hq]
  obtain ⟨c, hc, hle⟩ := h.counts
  have hcount := (hc.drop (held_proc hpid)).take (i := .proc pid) (a := p.vno) (update_self ..)
  refine ⟨hv.release, hm.linked.release hv (by omega), hlook' ▸ h.tree, fun {q} hq => ?_, fun {q} hq => ?_,
    hpoints (hm.holds.points h.root), fun hf hx => hpoints (hm.holds.points (h.vnode hf hx)), h.fresh, _, hheld ▸ hcount,
    fun k => ?_⟩
  · by_cases hqp : q = pid
    · simp only [World.setCwd, hqp, update_self]
      exact hpoints hg.points
    · simp only [World.setCwd, update_of_ne hqp]
      exact hpoints (hm.holds.points (h.cwd hq))
  · by_cases hqp : q = pid
    · simp only [World.setCwd, hqp, update_self, hlook']
      exact hdir
    · simp only [World.setCwd, update_of_ne hqp, hlook']
      exact h.dir hq
  have hk := hle k
  have hgk := hg.refs k
  simp only [World.setCwd, release_refs hv (by omega : 0 < g.refs (w.proc pid).cwd.vno), update_apply]
  generalize (w.proc pid).cwd.vno = o at *
  generalize p.vno = q at *
  by_cases hkq : k = q
  · subst hkq
    rw [if_pos rfl] at hgk ⊢
    split_ifs with ho
    · subst ho
      omega
    · omega
  · split_ifs with ho
    · subst ho
      omega
    · omega

/-- A new file, without a vnode. -/
theorem made (memory : Bool) : Alive n (w.made memory) := by
  cases memory with
  | false => exact h
  | true =>
    have hnone := h.fresh w.allocs (le_refl _)
    refine h.kept rfl (fun _ => rfl) (fun f => ?_) fun f hle => ?_
    · by_cases hf : f = w.allocs
      · simp [World.made, World.setFile, hf, hnone]
      · simp [World.made, World.setFile, hf]
    have hlt : w.allocs + 1 ≤ f := hle
    have hne : f ≠ w.allocs := by omega
    simpa [World.made, World.setFile, hne] using h.fresh f (by omega)

/-- A file without a vnode takes the one that a call has found or made. -/
theorem take (hm : Moved w.fs g) (hg : Gives w.fs g p)
    (hnew : w.fs.look p.vno = none → ∃ l, g.look p.vno = some (none, l)) (hf : w.file f = some x) (hx : x.vnode = none)
    (hy : y.vnode = some p) : Alive n ({ w with fs := g }.setFile f (some y)) := by
  have hg' := h.moved hm
  have hheld : ({ w with fs := g }.setFile f (some y)).held n =
      update (World.held { w with fs := g } n) (Holder.file f) (some p.vno) := by
    funext i
    cases i with
    | proc q => rfl
    | pin d => rfl
    | file f' =>
      by_cases hf' : f' = f
      · simp [World.held, World.setFile, hf', hy]
      · simp [World.held, World.setFile, hf']
  obtain ⟨c, hc, hle⟩ := h.counts_moved hm
  have hcount := hc.take (i := .file f) (a := p.vno) (by simp [World.held, hf, hx])
  refine ⟨hg'.valid, hg'.linked, hg'.tree, hg'.cwd, hg'.dir, hg'.root, fun {f' x' vn} hf' hx' => ?_, fun f' hlt => ?_, _,
    hheld ▸ hcount, fun k => ?_⟩
  · by_cases hff : f' = f
    · subst hff
      simp only [World.setFile, update_self, Option.some.injEq] at hf'
      subst hf'
      obtain rfl : p = vn := Option.some.inj (hy.symm.trans hx')
      exact hg.points
    · simp only [World.setFile, update_of_ne hff] at hf'
      exact hg'.vnode hf' hx'
  · exact none_update rfl hf (h.fresh f' hlt)
  have hgk := hg.refs k
  simp only [World.setFile]
  rw [update_apply]
  split_ifs with hk
  · rw [if_pos hk] at hgk
    subst hk
    rcases (hle p.vno).2 with hck | ⟨hnone, hdir⟩
    · omega
    obtain ⟨l, hl⟩ := hnew hnone
    rw [hl] at hdir
    cases hdir
  · exact (hle k).1

end

end Alive

theorem Change.of_look {fs g' : Fs} (hc : Change fs g) (hlook : g'.look = g.look) (hrefs : ∀ m, 0 < g.refs m → 0 < g'.refs m) :
    Change fs g' := by
  cases hc with
  | same h => exact .same (hlook.trans h)
  | removed m i e lm ln en t slot used kind apart hm hn ht h =>
    exact .removed m i e lm ln en t slot used kind apart hm hn ht (hlook.trans h)
  | added m i n e name ha =>
    obtain ⟨hnew, hfree, lm, ln, hm, hn, h⟩ := ha
    exact .added m i n e name ⟨hnew, hfree, lm, ln, hm, hn, hlook.trans h⟩
  | made m i n e name en hmade kind =>
    obtain ⟨hnew, hfree, hdead, lm, hm, h⟩ := hmade
    exact .made m i n e name en ⟨hnew, hfree, hdead, lm, hm, hlook.trans h⟩ (kind.imp id fun hk => ⟨hk.1, hrefs n hk.2⟩)

/-- A directory that has been found is put again. -/
theorem Alive.put (h : Alive n w) (hm : Moved w.fs g) (hg : Gives w.fs g p) (hdir : isDir (w.fs.look p.vno) = true) :
    Alive n { w with fs := g.release p.vno } := by
  have hpin := h.pinned _ hdir
  have hgk := hg.refs p.vno
  rw [if_pos rfl] at hgk
  have hv := hm.holds.valid
  refine h.moved ⟨hm.holds.release h.valid (by omega), hm.linked.release hv (by omega),
    hm.change.of_look (release_look_many hv (by omega)) fun m hpos => ?_⟩
  rw [release_refs hv (by omega), update_apply]
  split_ifs with hk
  · omega
  · exact hpos

end Holders

/-! ### Calls -/

section Calls

variable {n : ℕ} {w w' : World} {g : Fs} {pid f : ℕ} {fd r : ℤ} {x : File}

/-- `open_namev` sets its result: the path is not too long, and with `O_CREAT` the directory is found. -/
def Fs.SetsResult (fs : Fs) (cwd : VPtr) (path : CStr) (oflags : ℤ) : Prop :=
  path.length ≤ maxPathLen ∧ (openFlag oflags = oCreat → ∃ d, fs.parent cwd path = .ok d)

theorem openNamev_cleared {fs fs' : Fs} {cwd : VPtr} {path : CStr} {oflags : ℤ} {memory : Bool} {e : Failure}
    (h : Home fs cwd) (hs : fs.SetsResult cwd path oflags)
    (hr : openNamev cwd path (openFlag oflags) memory fs = .ok (.error e) fs') : e.cleared = true := by
  have hlookup : ∀ {dir name} {fs : Fs}, (do return (← lookup dir name).mapError (⟨·, true⟩) : FsM (Except Failure VPtr)) fs =
      .ok (.error e) fs' → e.cleared = true := by
    intro dir name fs hr
    obtain ⟨x, fs1, -, hr⟩ := bind_ok_iff.1 hr
    cases x with
    | error e' =>
      cases hr
      rfl
    | ok vn => cases hr
  rw [openNamev, if_neg (Nat.not_lt.2 hs.1)] at hr
  split at hr
  · next hflag =>
    obtain ⟨d, hd⟩ := hs.2 hflag
    unfold openCreate at hr
    split_ifs at hr
    · obtain ⟨v, fs1, -, hr⟩ := bind_ok_iff.1 hr
      split_ifs at hr
      · cases hr
        rfl
      · cases hr
    · cases hr
    obtain ⟨x, fs1, hx, hr⟩ := bind_ok_iff.1 hr
    cases x with
    | error e' =>
      -- the directory is found
      have hcases := (dirNamev_reaches h path).cases hx
      rw [hd] at hcases
      rcases hcases with ⟨-, -, hne, -⟩ | ⟨-, n, -, -, hne, -⟩
      · cases hne
      · cases hne
    | ok dir =>
      obtain ⟨_, fs2, -, hr⟩ := bind_ok_iff.1 hr
      obtain ⟨v, fs3, -, hr⟩ := bind_ok_iff.1 hr
      split_ifs at hr
      · cases hr
        rfl
      obtain ⟨x, fs4, -, hr⟩ := bind_ok_iff.1 hr
      cases x with
      | error e' => cases hr
      | ok vn =>
        obtain ⟨_, fs5, -, hr⟩ := bind_ok_iff.1 hr
        cases hr
  · unfold openLookup at hr
    split_ifs at hr
    · exact hlookup hr
    obtain ⟨x, fs1, -, hr⟩ := bind_ok_iff.1 hr
    cases x with
    | error e' => cases hr
    | ok dir =>
      obtain ⟨_, fs2, -, hr⟩ := bind_ok_iff.1 hr
      exact hlookup hr

theorem doOpen_alive (h : Alive n w) (hpid : pid < n) {path : CStr} {oflags : ℤ} {env : Env}
    (hset : env.resVnode = none ∨ w.fs.SetsResult (w.proc pid).cwd path oflags)
    (hr : doOpen pid path oflags env w = .ok r w') : Alive n w' := by
  rcases doOpen_ok.1 hr with ⟨-, -, rfl⟩ | ⟨-, fd, hfd, res, fs, hres, hend⟩
  · exact h
  obtain ⟨hm, hgives⟩ := openNamev_moved (h.home hpid) hres
  have hmade := h.made env.fileMemory
  have hm' : Moved (w.made env.fileMemory).fs fs := by
    rw [made_fs]
    exact hm
  cases res with
  | error e =>
    have hleft : env.leftVnode e = none := by
      unfold Env.leftVnode
      rcases hset with hnone | hset
      · rw [hnone, ite_self]
      · rw [if_pos (openNamev_cleared (h.home hpid) hset hres)]
    obtain ⟨fs', hdrop, -, rfl⟩ := hend
    rw [hleft] at hdrop
    obtain rfl : fs = fs' := hdrop
    exact hmade.moved hm'
  | ok vn =>
    obtain ⟨hg, hnew⟩ := hgives vn rfl
    obtain ⟨v, hd, hend⟩ := hend
    by_cases hdir : v.mode = .dir ∧ (oflags = 1 ∨ oflags = 2)
    · rw [if_pos hdir] at hend
      obtain ⟨fs', hput, -, rfl⟩ := hend
      obtain ⟨-, rfl⟩ := (vput_ok hm.holds.valid).1 hput
      refine hmade.put hm' (by rw [made_fs]; exact hg) ?_
      obtain ⟨-, -, nd, hnd, hmode⟩ := deref_ok hm.holds.valid (need_ok.2 ⟨hd, rfl⟩)
      obtain ⟨e, he⟩ := Mem.mode_dir.1 (hmode.symm.trans hdir.1)
      have hlook := look_dir hnd he
      rw [made_fs]
      refine ((hm.change.grows h.tree h.pinned).new _ (by rw [hlook]; rfl)).resolve_right fun hn => ?_
      obtain ⟨l, hl⟩ := hnew hn.1
      rw [hlook] at hl
      cases hl
    · rw [if_neg hdir] at hend
      obtain ⟨hmem, -, rfl⟩ := hend
      rw [hmem] at hmade hm' ⊢
      obtain ⟨hfs, hfile, -⟩ := putFd_same (w.made true) pid fd (some w.allocs)
      exact (hmade.putFd fd (some w.allocs)).take (hfs ▸ hm') (hfs ▸ hg) (hfs ▸ hnew)
        ((congrFun hfile _).trans (made_allocs w)) rfl rfl

/-- The data of a file and its length change. -/
theorem setData_moved {fs : Fs} {k : ℕ} {v : Vnode} {i : Inode} {page page' : ℕ → UInt8} {len size : ℤ} (hv : fs.Valid)
    (hk : fs.Linked) (hvn : fs.vnodes k = some v) (hi : fs.inodes k = some i) (hmem : i.mem = .data page) :
    Moved fs ((fs.setVnode k (some { v with len := len })).setInode k
      (some { i with mem := .data page', size := size })) := by
  obtain ⟨hpos, hid, j, hj, hmode⟩ := hv.vnode hvn
  obtain rfl : i = j := Option.some.inj (hi.symm.trans hj)
  have hold : fs.look k = some (none, i.linkcount - 1) := by
    simp [Fs.look, Fs.node, hi, hvn, hmem, Mem.entries]
  have hlook : (fs.replace k (some { i with mem := .data page', size := size }) (some { v with len := len })
      fs.allocs).look = fs.look := by
    rw [look_update replace_node, map_some]
    change update fs.look k (some (none, i.linkcount - 1)) = _
    rw [← hold, update_eq_self]
  have hholds : Holds fs (fs.replace k (some { i with mem := .data page', size := size })
      (some { v with len := len }) fs.allocs) := by
    refine ⟨hv.replace ?_ ?_ (le_refl _), fun m => ?_, fun {q} hq => replace_points.2 ?_⟩
    · rintro _ ⟨⟩
      have := hv.inode hi
      exact this
    · rintro _ ⟨⟩
      exact ⟨hpos, hid, _, rfl, hmode.trans (by rw [hmem]; rfl)⟩
    · rw [replace_refs, update_apply]
      split_ifs with hm
      · simp [hm, Fs.refs, hvn]
      · exact le_refl _
    split_ifs with hm
    · obtain ⟨u, hu, hq⟩ := hq
      rw [hm, hvn] at hu
      cases hu
      exact ⟨_, rfl, hq⟩
    · exact hq
  exact ⟨hholds, linked_same hk hv hholds hlook, .same hlook⟩

theorem ramfsWrite_moved {fs : Fs} {vn : VPtr} {offset : ℤ} {buf : List UInt8} (hv : fs.Valid) (hk : fs.Linked)
    (hr : ramfsWrite vn offset buf fs = .ok r g) : Moved fs g := by
  obtain ⟨i, g1, hino, hr⟩ := bind_ok_iff.1 hr
  obtain ⟨hi, rfl⟩ := need_ok.1 hino
  obtain ⟨v, g1, hderef, hr⟩ := bind_ok_iff.1 hr
  obtain ⟨hd, rfl⟩ := need_ok.1 hderef
  obtain ⟨_, g1, ha, hr⟩ := bind_ok_iff.1 hr
  obtain ⟨-, rfl⟩ := kassert_ok.1 ha
  cases hmem : i.mem with
  | dir e | chr devid | blk devid =>
    rw [hmem] at hr
    cases hr
  | data page =>
    rw [hmem] at hr
    simp only at hr
    split_ifs at hr
    · cases hr
    obtain ⟨_, g1, ha, hr⟩ := bind_ok_iff.1 hr
    obtain ⟨-, rfl⟩ := kassert_ok.1 ha
    obtain ⟨_, g1, hlen, hr⟩ := bind_ok_iff.1 hr
    obtain rfl := modify_ok_iff.1 hlen
    obtain ⟨_, g2, hdata, hr⟩ := bind_ok_iff.1 hr
    obtain rfl := modify_ok_iff.1 hdata
    obtain ⟨-, rfl⟩ := pure_ok_iff.1 hr
    exact setData_moved hv hk (deref_some.1 hd).1 (inodeOf_some.1 hi).2 hmem

theorem writeOp_moved {fs : Fs} {vn : VPtr} {mode : Mode} {offset : ℤ} {buf : List UInt8} {driver : Option ℤ}
    (hv : fs.Valid) (hk : fs.Linked) (hr : writeOp vn mode offset buf driver fs = .ok r g) : Moved fs g := by
  unfold writeOp at hr
  split at hr
  · exact ramfsWrite_moved hv hk hr
  · obtain ⟨-, rfl⟩ := pure_ok_iff.1 hr
    exact ⟨.refl hv, hk, .same rfl⟩
  · cases hr

/-! Nothing changes when a file or a directory is read. -/

section Reads

variable {fs : Fs} {vn : VPtr} {offset : ℤ}

theorem need_same {α : Type} (get : Fs → Option α) : Preserves (· = fs) (need get) := by
  intro g a g' h hr
  obtain ⟨-, rfl⟩ := need_ok.1 hr
  exact h

theorem kassert_same (P : Prop) [Decidable P] : Preserves (· = fs) (kassert P) := by
  intro g a g' h hr
  obtain ⟨-, rfl⟩ := kassert_ok.1 hr
  exact h

theorem readOp_same {mode : Mode} {nbytes : ℕ} {driver : Option ℤ} :
    Preserves (· = fs) (readOp vn mode offset nbytes driver) := by
  have hread : Preserves (· = fs) (ramfsRead vn offset nbytes) := by
    refine (need_same _).bind fun i => (need_same _).bind fun v => (kassert_same _).bind fun _ => ?_
    cases i.mem with
    | data page => exact .ite (.throw _) (.pure _)
    | dir e | chr devid | blk devid => exact .throw _
  unfold readOp
  split
  · exact hread.bind fun _ => .pure _
  · exact .pure _
  · exact .throw _

theorem ramfsReaddir_same : Preserves (· = fs) (ramfsReaddir vn offset) := by
  refine (need_same _).bind fun v => (kassert_same _).bind fun _ => (kassert_same _).bind fun _ =>
    (need_same _).bind fun e => .ite (.throw _) ?_
  split
  · exact .pure _
  · exact .pure _

end Reads

/-! Each part of a call on a descriptor keeps the invariant. -/

theorem fref_alive (f : ℕ) : Preserves (Alive n) (fref f) := by
  intro w a w' h hr
  obtain ⟨x, hx, -, -, rfl⟩ := fref_ok.1 hr
  exact h.setFile hx rfl

theorem fput_alive (f : ℕ) : Preserves (Alive n) (fput f) := by
  intro w a w' h hr
  obtain ⟨x, hx, -, -, -, ⟨-, rfl⟩ | ⟨-, w1, hdrop, rfl⟩⟩ := fput_ok.1 hr
  · exact h.setFile hx rfl
  cases hv : x.vnode with
  | none =>
    rw [hv] at hdrop
    obtain ⟨-, rfl⟩ := pure_ok_iff.1 hdrop
    exact h.setFile hx hv.symm
  | some vn =>
    rw [hv] at hdrop
    obtain ⟨fs, hput, rfl⟩ := onFs_ok.1 hdrop
    obtain ⟨-, rfl⟩ := (vput_ok h.valid).1 hput
    exact h.drop hx hv

theorem setFd_alive (pid : ℕ) (fd : ℤ) (o : Option ℕ) : Preserves (Alive n) (setFd pid fd o) := by
  intro w a w' h hr
  unfold setFd at hr
  split_ifs at hr
  · obtain ⟨-, rfl⟩ := pure_ok_iff.1 hr
    exact h
  · cases hr
  · obtain rfl := modify_ok_iff.1 hr
    exact h.setFd _ o

/-- How every call on a descriptor begins. -/
theorem onFd_alive {α : Type} {k : Fd → Sys α} (pid : ℕ) (fd : ℤ) (hbad : Preserves (Alive n) (k .bad))
    (hbeyond : Preserves (Alive n) (k .beyond)) (hfile : ∀ f, Preserves (Alive n) (k (.file f))) :
    Preserves (Alive n) (checkFd pid fd >>= k) := by
  refine Preserves.bind (fun w a w' h hr => ?_) fun r => ?_
  · obtain ⟨-, rfl⟩ := checkFd_ok.1 hr
    exact h
  cases r with
  | bad => exact hbad
  | beyond => exact hbeyond
  | file f => exact hfile f

theorem getEmptyFd_alive (pid : ℕ) : Preserves (Alive n) (getEmptyFd pid) := by
  intro w a w' h hr
  obtain ⟨rfl, -⟩ := getEmptyFd_ok.1 hr
  exact h

/-- The vnode of an open file stays. -/
theorem setFile_alive {α : Type} {y : File} {k : Sys α} {a : α} (h : Alive n w) (hf : w.file f = some x)
    (hr : (do setFile f (some y); k) w = .ok a w') (hy : y.vnode = x.vnode) (hk : Preserves (Alive n) k) : Alive n w' := by
  obtain ⟨_, w1, hset, hr⟩ := bind_ok_iff.1 hr
  obtain rfl := setFile_ok.1 hset
  exact hk _ _ _ (h.setFile (o := some y) hf hy) hr

theorem readFile_alive (f nbytes : ℕ) (driver : Option ℤ) : Preserves (Alive n) (readFile f nbytes driver) := by
  refine (fref_alive f).bind fun _ w a w' h hr => ?_
  obtain ⟨⟨x, vn, v⟩, w1, hx, hr⟩ := bind_ok_iff.1 hr
  obtain ⟨hfile, -, -, rfl⟩ := fileVnode_ok.1 hx
  simp only at hr
  split_ifs at hr
  · exact (Preserves.pure _) _ _ _ h hr
  · exact (Preserves.pure _) _ _ _ h hr
  obtain ⟨⟨count, bytes⟩, w1, hon, hr⟩ := bind_ok_iff.1 hr
  obtain ⟨fs, hread, rfl⟩ := onFs_ok.1 hon
  obtain rfl := readOp_same _ _ _ rfl hread
  exact setFile_alive h hfile hr rfl ((fput_alive f).bind fun _ => .pure _)

theorem seekFile_alive (f : ℕ) (offset : ℤ) (whence : ℕ) : Preserves (Alive n) (seekFile f offset whence) := by
  refine (fref_alive f).bind fun _ => (fput_alive f).bind fun _ w a w' h hr => ?_
  obtain ⟨pos, w1, hpos, hr⟩ := bind_ok_iff.1 hr
  obtain rfl := seekPos_same hpos
  cases pos with
  | none => exact (Preserves.pure _) _ _ _ h hr
  | some pos =>
    simp only at hr
    split_ifs at hr
    · exact (Preserves.pure _) _ _ _ h hr
    obtain ⟨x, w1, hx, hr⟩ := bind_ok_iff.1 hr
    obtain ⟨hfile, rfl⟩ := fileAt_ok.1 hx
    exact setFile_alive h hfile hr rfl (.pure _)

theorem doLseek_alive (pid : ℕ) (fd offset : ℤ) (whence : ℕ) : Preserves (Alive n) (doLseek pid fd offset whence) :=
  onFd_alive pid fd (.pure _) (.throw _) fun f => seekFile_alive f offset whence

theorem writeAt_alive (f : ℕ) (buf : List UInt8) (driver : Option ℤ) : Preserves (Alive n) (writeAt f buf driver) := by
  intro w a w' h hr
  obtain ⟨⟨x, vn, v⟩, w1, hx, hr⟩ := bind_ok_iff.1 hr
  obtain ⟨hfile, -, -, rfl⟩ := fileVnode_ok.1 hx
  obtain ⟨count, w1, hon, hr⟩ := bind_ok_iff.1 hr
  obtain ⟨fs, hwrite, rfl⟩ := onFs_ok.1 hon
  have hmoved := h.moved (writeOp_moved h.valid h.linked hwrite)
  exact setFile_alive hmoved hfile hr rfl ((fput_alive f).bind fun _ => .pure _)

theorem writeFile_alive (pid : ℕ) (fd : ℤ) (f : ℕ) (buf : List UInt8) (driver : Option ℤ) :
    Preserves (Alive n) (writeFile pid fd f buf driver) := by
  refine (fref_alive f).bind fun _ w a w' h hr => ?_
  obtain ⟨⟨x, vn, v⟩, w1, hx, hr⟩ := bind_ok_iff.1 hr
  obtain ⟨-, -, -, rfl⟩ := fileVnode_ok.1 hx
  simp only at hr
  split_ifs at hr
  · exact (Preserves.pure _) _ _ _ h hr
  · exact (Preserves.pure _) _ _ _ h hr
  · obtain ⟨pos, w1, hseek, hr⟩ := bind_ok_iff.1 hr
    have h1 := doLseek_alive pid fd 0 2 _ _ _ h hseek
    obtain ⟨y, w2, hy, hr⟩ := bind_ok_iff.1 hr
    obtain ⟨hfile, rfl⟩ := fileAt_ok.1 hy
    exact setFile_alive h1 hfile hr rfl (writeAt_alive f buf driver)
  · exact writeAt_alive f buf driver _ _ _ h hr

theorem getdentFile_alive (f : ℕ) : Preserves (Alive n) (getdentFile f) := by
  refine (fref_alive f).bind fun _ => (fput_alive f).bind fun _ w a w' h hr => ?_
  obtain ⟨⟨x, vn, v⟩, w1, hx, hr⟩ := bind_ok_iff.1 hr
  obtain ⟨hfile, -, -, rfl⟩ := fileVnode_ok.1 hx
  simp only at hr
  split_ifs at hr
  · exact (Preserves.pure _) _ _ _ h hr
  obtain ⟨⟨ret, entry⟩, w1, hon, hr⟩ := bind_ok_iff.1 hr
  obtain ⟨fs, hread, rfl⟩ := onFs_ok.1 hon
  obtain rfl := ramfsReaddir_same _ _ _ rfl hread
  exact setFile_alive h hfile hr rfl (.pure _)

theorem doClose_alive (pid : ℕ) (fd : ℤ) : Preserves (Alive n) (doClose pid fd) :=
  onFd_alive pid fd (.pure _) (.throw _) fun f =>
    (setFd_alive pid fd none).bind fun _ => (fput_alive f).bind fun _ => .pure _

theorem doDup_alive (pid : ℕ) (fd : ℤ) : Preserves (Alive n) (doDup pid fd) :=
  onFd_alive pid fd (.pure _) (.throw _) fun f => (fref_alive f).bind fun _ =>
    (getEmptyFd_alive pid).bind fun newFd => (setFd_alive pid newFd _).bind fun _ => .pure _

theorem dup2Slot_alive (pid : ℕ) (ofd nfd : ℤ) (f : ℕ) : Preserves (Alive n) (dup2Slot pid ofd nfd f) :=
  onFd_alive pid nfd (setFd_alive pid nfd _) (.throw _) fun _ =>
    .ite ((doClose_alive pid nfd).bind fun _ => setFd_alive pid nfd _) (setFd_alive pid nfd _)

theorem doDup2_alive (pid : ℕ) (ofd nfd : ℤ) : Preserves (Alive n) (doDup2 pid ofd nfd) :=
  .ite (.pure _) (onFd_alive pid ofd (.pure _) (.throw _) fun f =>
    (dup2Slot_alive pid ofd nfd f).bind fun _ => (fref_alive f).bind fun _ => .pure _)

theorem doRead_alive (pid : ℕ) (fd : ℤ) (nbytes : ℕ) (driver : Option ℤ) :
    Preserves (Alive n) (doRead pid fd nbytes driver) :=
  onFd_alive pid fd (.pure _) (.throw _) fun f => readFile_alive f nbytes driver

theorem doWrite_alive (pid : ℕ) (fd : ℤ) (buf : List UInt8) (driver : Option ℤ) :
    Preserves (Alive n) (doWrite pid fd buf driver) :=
  onFd_alive pid fd (.pure _) (.throw _) fun f => writeFile_alive pid fd f buf driver

theorem doGetdent_alive (pid : ℕ) (fd : ℤ) : Preserves (Alive n) (doGetdent pid fd) :=
  onFd_alive pid fd (.pure _) (.throw _) fun f => getdentFile_alive f

theorem onCwd_alive {α : Type} {m : VPtr → FsM α} {a : α} (h : Alive n w) (hr : onCwd pid m w = .ok a w')
    (hm : ∀ {g}, m (w.proc pid).cwd w.fs = .ok a g → Moved w.fs g) : Alive n w' := by
  obtain ⟨g, hg, rfl⟩ := onCwd_ok.1 hr
  exact h.moved (hm hg)

theorem chdirProc_alive (h : Alive n w) (hpid : pid < n) {path : CStr} (hr : chdirProc pid path w = .ok r w') :
    Alive n w' := by
  obtain ⟨⟨ret, cwd⟩, w1, hcall, hr⟩ := bind_ok_iff.1 hr
  obtain ⟨g, hg, rfl⟩ := onCwd_ok.1 hcall
  obtain ⟨_, w2, hset, hr⟩ := bind_ok_iff.1 hr
  obtain rfl := modify_ok_iff.1 hset
  obtain ⟨-, rfl⟩ := pure_ok_iff.1 hr
  rcases doChdir_moved (h.home hpid) hg with ⟨rfl, hm⟩ | ⟨g1, hm, hlook, hgives, hkind, rfl⟩
  · have hsame : World.setCwd { w with fs := g } pid (w.proc pid).cwd = { w with fs := g } := by
      simp [World.setCwd]
    rw [hsame]
    exact h.moved hm
  refine h.chdir hpid hm hlook hgives ?_
  rcases hkind with ⟨e, l, hl⟩ | hup
  · rw [hl]
    rfl
  obtain ⟨nd, e, i, hnd, he, hi, hino⟩ := entry_ok.1 hup
  rw [← hino]
  exact h.tree.up (look_dir hnd he) (findEntry_lt hi).1 (.inr (findEntry_lt hi).2)

/-- The calls that keep the tree: no directory is linked or renamed, what is removed has a name, the name of
a new directory is not cut, and an open that leaves `res_vnode` unset finds it null. -/
def Done.Fine (e : Done) (w : World) : Prop :=
  match e.call with
  | .openPath path oflags => e.env.resVnode = none ∨ w.fs.SetsResult (w.proc e.pid).cwd path oflags
  | .mkdir path => (baseName path).length < nameLen
  | .rmdir path => baseName path ≠ []
  | .unlink path => baseName path ≠ []
  | .link source _ => w.fs.FileSource (w.proc e.pid).cwd source
  | .rename oldname _ => w.fs.FileSource (w.proc e.pid).cwd oldname ∧ baseName oldname ≠ []
  | _ => True

theorem step_alive {e : Done} (h : Alive n w) (hpid : e.pid < n) (hfine : e.Fine w) (hs : e.Step w w') : Alive n w' := by
  obtain ⟨pid, env, call, ret⟩ := e
  have hhome := h.home hpid
  cases call with
  | openPath path oflags => exact doOpen_alive h hpid hfine hs
  | read fd nbytes => exact ((doRead_alive pid fd nbytes env.driver).bind fun _ => .pure _) _ _ _ h hs
  | write fd buf => exact doWrite_alive pid fd buf env.driver _ _ _ h hs
  | close fd => exact doClose_alive pid fd _ _ _ h hs
  | dup fd => exact doDup_alive pid fd _ _ _ h hs
  | dup2 ofd nfd => exact doDup2_alive pid ofd nfd _ _ _ h hs
  | getdent fd => exact ((doGetdent_alive pid fd).bind fun _ => .pure _) _ _ _ h hs
  | lseek fd offset whence => exact doLseek_alive pid fd offset whence _ _ _ h hs
  | mknod path mode devid => exact onCwd_alive (m := (doMknod · path mode devid env.memory env.stray)) h hs fun hg => doMknod_moved hhome hg
  | mkdir path => exact onCwd_alive (m := (doMkdir · path env.memory)) h hs fun hg => doMkdir_moved hhome hfine hg
  | rmdir path => exact onCwd_alive (m := (doRmdir · path)) h hs fun hg => doRmdir_moved hhome hfine hg
  | unlink path => exact onCwd_alive (m := (doUnlink · path)) h hs fun hg => doUnlink_moved hhome hfine hg
  | link source target => exact onCwd_alive (m := (doLink · source target)) h hs fun hg => doLink_moved hhome hfine hg
  | rename oldname newname =>
    obtain ⟨g, hg, rfl⟩ := (onCwd_ok (m := (doRename · oldname newname))).1 hs
    obtain ⟨g1, hm1, hm2⟩ := doRename_moved hhome hfine.1 hfine.2 hg
    exact (h.moved hm1).moved hm2
  | chdir path => exact chdirProc_alive h hpid hs
  | stat path =>
    obtain ⟨x, hstat, -⟩ := bind_pure_iff.1 hs
    exact onCwd_alive h hstat fun hg => doStat_moved hhome hg

end Calls

/-! ### Every run -/

/-- A kernel with `n` processes, all of them in the root directory. -/
def started (n : ℕ) : World where
  fs := mounted.setVnode 0 (some { id := 0, refcount := 1 + n, mode := .dir, len := 2 * direntSize })
  file _ := none
  allocs := 0
  proc _ := ⟨fun _ => none, rootVn⟩

def FineStep (n : ℕ) (w : World) (e : Done) (w' : World) : Prop := e.pid < n ∧ e.Fine w ∧ e.Step w w'

/-- What the entry `j` of the directory `d` names; the special entries are left out. -/
def Fs.names (fs : Fs) (s : ℕ × ℕ) : Option ℕ := named fs.look s

theorem started_look (n : ℕ) : (started n).fs.look = rootLook := by
  funext k
  by_cases hk : k = 0
  · subst hk
    rfl
  · simp [Fs.look, Fs.node, started, mounted, Fs.setVnode, rootLook, hk]

/-- The root directory is held by the mount and by each process. -/
theorem started_counted (m n : ℕ) : Counted ((started m).held n) (update (fun _ => 0) 0 (n + 1)) := by
  induction n with
  | zero =>
    have hheld : (started m).held 0 = update (fun _ => none) (.pin 0) (some 0) := by
      funext i
      cases i with
      | proc pid => rfl
      | file f => rfl
      | pin d =>
        by_cases hd : d = 0
        · subst hd
          rfl
        · simp [World.held, started_look, rootLook, isDir, hd]
    rw [hheld]
    exact Tally.counted_none.take rfl
  | succ n ih =>
    have hheld : (started m).held (n + 1) = update ((started m).held n) (.proc n) (some 0) := by
      funext i
      cases i with
      | file f => rfl
      | pin d => rfl
      | proc pid =>
        by_cases hp : pid = n
        · simp [World.held, hp, started, rootVn]
        have hlt : pid < n + 1 ↔ pid < n := by omega
        simp [World.held, hp, hlt]
    have := ih.take (i := .proc n) (a := 0) (by simp [World.held])
    rw [update_self, update_idem] at this
    rw [hheld]
    exact this

theorem started_alive (n : ℕ) : Alive n (started n) := by
  have hvnode : ∀ {k v}, (started n).fs.vnodes k = some v →
      k = 0 ∧ v = { id := 0, refcount := 1 + n, mode := .dir, len := 2 * direntSize } := by
    intro k v hk
    by_cases h0 : k = 0
    · subst h0
      cases hk
      exact ⟨rfl, rfl⟩
    · simp [started, mounted, Fs.setVnode, h0] at hk
  have hpoints : (started n).fs.Points rootVn := ⟨_, rfl, rfl⟩
  refine ⟨⟨fun {k i} hi => ?_, fun {k v} hk => ?_⟩, fun k nd hnone hnd => ?_, started_look n ▸ rootLook_tree, fun _ => hpoints,
    fun _ => rfl, hpoints, fun hf => ?_, fun _ _ => rfl, _, started_counted n n, fun k => ?_⟩
  · by_cases h0 : k = 0
    · subst h0
      cases hi
      exact ⟨rfl, by decide⟩
    · simp [started, mounted, Fs.setVnode, h0] at hi
  · obtain ⟨rfl, rfl⟩ := hvnode hk
    exact ⟨by simp only; omega, Nat.zero_lt_one, _, rfl, rfl⟩
  · by_cases h0 : k = 0
    · subst h0
      cases hnone
    · simp [Fs.node, started, mounted, Fs.setVnode, h0] at hnd
  · cases hf
  by_cases h0 : k = 0
  · subst h0
    rw [update_self, Nat.add_comm]
    exact le_refl _
  · rw [update_of_ne h0]
    exact Nat.zero_le _

theorem alive_of_run {n : ℕ} {es : List Done} {w : World} (hrun : Runs.Run (FineStep n) (started n) es w) : Alive n w :=
  hrun.invariant (started_alive n) fun _ _ _ h hs => step_alive h hs.1 hs.2.1 hs.2.2

/-- No current directory and no open file is left with a vnode that is gone, and a vnode has a reference for each of
its holders. -/
theorem holders_counted {n : ℕ} {es : List Done} {w : World} (hrun : Runs.Run (FineStep n) (started n) es w) :
    (∀ pid < n, w.fs.Points (w.proc pid).cwd ∧ isDir (w.fs.look (w.proc pid).cwd.vno) = true) ∧
    (∀ f x vn, w.file f = some x → x.vnode = some vn → w.fs.Points vn) ∧
    ∀ k, {h | w.held n h = some k}.encard ≤ w.fs.refs k := by
  have h := alive_of_run hrun
  obtain ⟨c, hc, hle⟩ := h.counts
  refine ⟨fun pid hp => ⟨h.cwd hp, h.dir hp⟩, fun f x vn => h.vnode, fun k => ?_⟩
  rw [← Tally.holders, hc k]
  exact_mod_cast hle k

theorem holders_counted_mkdir : ∃ w, Runs.Run (FineStep 1) (started 1)
    [⟨0, ⟨true, true, none, false, none⟩, .mkdir [97], 0⟩] w ∧ {h | w.held 1 h = some 1}.encard ≤ w.fs.refs 1 := by
  obtain ⟨w, hs⟩ : ∃ w, FineStep 1 (started 1) ⟨0, ⟨true, true, none, false, none⟩, .mkdir [97], 0⟩ w :=
    ⟨_, Nat.zero_lt_one, (by decide : (baseName [97]).length < nameLen), rfl⟩
  have hrun := Runs.Run.nil.snoc hs
  exact ⟨w, hrun, (holders_counted hrun).2.2 1⟩

end Weenix.Vfs
