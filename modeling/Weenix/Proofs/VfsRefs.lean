import Weenix.Spec.Vfs
import Weenix.Proofs.Namev
import Weenix.Proofs.RamfsMap

/-! The references to vnodes that the calls on paths take and drop. -/

namespace Weenix.Vfs

open Function Exec List Fs Option

/-! ### References on top of a state -/

/-- `g` is `h` with one more reference for each element of `extra`, and some vnodes allocated. -/
structure Over (h g : Fs) (extra : List ℕ) : Prop where
  valid : g.Valid
  node : g.node = h.node
  refs : ∀ k, g.refs k = h.refs k + extra.count k
  points : ∀ {p}, h.Points p → g.Points p

namespace Over

variable {h g g' : Fs} {extra : List ℕ} {n : ℕ} {p : VPtr}

theorem refl (hv : h.Valid) : Over h h [] := ⟨hv, rfl, fun _ => rfl, id⟩

section
variable (ho : Over h g extra)
include ho

theorem entry : g.entry = h.entry := by
  funext d name
  unfold Fs.entry
  rw [ho.node]

theorem grab (hl : (h.node n).isSome) : Over h (g.grab n) (n :: extra) := by
  have hl' : (g.node n).isSome := by rw [ho.node]; exact hl
  refine ⟨ho.valid.grab, by rw [grab_node, ho.node], fun k => ?_, fun hp => (ho.points hp).grab⟩
  rw [grab_refs hl', count_cons]
  by_cases hk : k = n
  · subst hk
    rw [update_self, ho.refs]
    simp
    omega
  · rw [update_of_ne hk, ho.refs]
    simp [Ne.symm hk]

theorem refs_pos (hn : n ∈ extra) : 0 < g.refs n := by
  rw [ho.refs]
  have := count_pos_iff.2 hn
  omega

theorem release (hv : h.Valid) (hk : h.Linked) (hn : n ∈ extra) : Over h (g.release n) (extra.erase n) := by
  have hcount := count_pos_iff.2 hn
  have hpos := ho.refs_pos hn
  have hdying : ¬ g.Dying n := by
    rintro ⟨h1, nd, hnd, hl⟩
    rw [ho.refs] at h1
    have hcore : h.vnodes n = none := by
      by_contra hc
      have := (Fs.refs_pos hv).2 (isSome_iff_ne_none.2 hc)
      omega
    rw [ho.node] at hnd
    exact hk n nd hcore hnd hl
  refine ⟨ho.valid.release, by rw [release_node_of_not ho.valid hpos hdying, ho.node], fun k => ?_, fun {p} hp => ?_⟩
  · rw [release_refs ho.valid hpos]
    by_cases hkn : k = n
    · subst hkn
      rw [update_self, count_erase_self, ho.refs]
      omega
    · rw [update_of_ne hkn, count_erase_of_ne hkn, ho.refs]
  · refine (points_release ho.valid).2 ⟨ho.points hp, ?_⟩
    rintro rfl
    have := hp.refs_pos hv
    rw [ho.refs]
    omega

/-- A pointer in core is to a vnode that `h` holds, or to one that is held on top of it. -/
theorem core (hv : h.Valid) (hp : g.Points p) (hn : p.vno ∉ extra) : (h.vnodes p.vno).isSome := by
  have hpos := hp.refs_pos ho.valid
  rw [ho.refs, count_eq_zero.2 hn, Nat.add_zero] at hpos
  exact (Fs.refs_pos hv).1 hpos

end

theorem refs_eq (ho : Over h g []) (k : ℕ) : g.refs k = h.refs k := by
  rw [ho.refs]
  rfl

/-- Once all is dropped, the same pointers are good. -/
theorem points_iff (ho : Over h g []) (hv : h.Valid) : g.Points p ↔ h.Points p := by
  refine ⟨fun hp => ?_, ho.points⟩
  have hcore := points_of_core (ho.core hv hp (by simp))
  have hvno : (h.ptr p.vno).vno = p.vno := ptr_vno
  have hptr := ptr_of_points (ho.points hcore)
  rw [hvno, ptr_of_points hp] at hptr
  rw [hptr]
  exact hcore

end Over

/-! ### The ends of the calls

Each begins with a reference `dir` to the inode `m`, taken on top of `h`. -/

section Ends

variable {h g g' : Fs} {m : ℕ} {name : CStr} {r : ℤ}

section
variable (hv : h.Valid) (hl : (h.node m).isSome)
include hv hl

theorem over_grab : Over h (h.grab m) [m] := (Over.refl hv).grab hl

theorem lookup_on {x : Except Errno VPtr} :
    lookup (h.ptr m) name (h.grab m) = .ok x g ↔ (h.grab m).Finds (h.entry m name) x g := by
  rw [lookup_ok hv.grab (points_ptr hl), ptr_vno, (over_grab hv hl).entry]

theorem vput_dir {u : Unit} : vput (h.ptr m) (h.grab m) = .ok u g ↔ (h.grab m).release m = g := by
  rw [vput_ok hv.grab, ptr_vno]
  exact and_iff_right (points_ptr hl)

theorem put_dir {α : Type} (k : Unit → FsM α) :
    (vput (h.ptr m) >>= k) (h.grab m) = k () ((h.grab m).release m) := bind_ok k ((vput_dir hv hl).2 rfl)

/-- `vput(dir)` when another reference has been taken since. -/
theorem put_dir_after {α : Type} (k : Unit → FsM α) {n : ℕ} :
    (vput (h.ptr m) >>= k) ((h.grab m).grab n) = k () (((h.grab m).grab n).release m) := by
  refine bind_ok k ((vput_ok hv.grab.grab).2 ⟨(points_ptr hl).grab, ?_⟩)
  rw [ptr_vno]

/-- What a lookup has found is still there when the directory has been put. -/
theorem points_found {n : ℕ} (hn : (h.node n).isSome) :
    (((h.grab m).grab n).release m).Points ((h.grab m).ptr n) := by
  have ho := (over_grab hv hl).grab hn
  have hn' : ((h.grab m).node n).isSome := by rw [grab_node]; exact hn
  refine (points_release ho.valid).2 ⟨points_ptr hn', ?_⟩
  rw [ptr_vno]
  rintro rfl
  rw [ho.refs]
  simp

end

theorem over_found (hv : h.Valid) (hk : h.Linked) (hl : (h.node m).isSome) {n : ℕ} (hn : (h.node n).isSome) :
    Over h (((h.grab m).grab n).release m) [n] := by
  have ho := ((over_grab hv hl).grab hn).release hv hk (by simp : m ∈ [n, m])
  by_cases hnm : n = m
  · subst hnm
    simpa using ho
  · rwa [erase_cons_tail (by simpa using hnm), erase_cons_head] at ho

theorem put_found (hv : h.Valid) (hl : (h.node m).isSome) {n : ℕ} (hn : (h.node n).isSome) {α : Type}
    (k : Unit → FsM α) : (vput ((h.grab m).ptr n) >>= k) (((h.grab m).grab n).release m) =
      k () ((((h.grab m).grab n).release m).release n) := by
  refine bind_ok k ((vput_ok hv.grab.grab.release).2 ⟨points_found hv hl hn, ?_⟩)
  rw [ptr_vno]

section
variable (hv : h.Valid) (hk : h.Linked) (hl : (h.node m).isSome)
include hv hk hl

theorem over_put : Over h ((h.grab m).release m) [] := by
  simpa using (over_grab hv hl).release hv hk (by simp : m ∈ [m])

theorem over_put_found {n : ℕ} (hn : (h.node n).isSome) :
    Over h ((((h.grab m).grab n).release m).release n) [] := by
  simpa using (over_found hv hk hl hn).release hv hk (by simp : n ∈ [n])

/-- The directory is in core once its reference has been dropped if it was before. -/
theorem points_put : ((h.grab m).release m).Points (h.ptr m) ↔ (h.vnodes m).isSome := by
  constructor
  · intro hp
    have := (over_put hv hk hl).core hv hp (by simp)
    rwa [ptr_vno] at this
  · intro hc
    rw [grab_release hv hc]
    exact points_of_core hc

theorem dir_put {e : ℕ → Dirent} : ((h.grab m).release m).Dir (h.ptr m) e ↔
    (h.vnodes m).isSome ∧ ∃ nd, h.node m = some nd ∧ nd.mem = .dir e := by
  rw [dir_iff, points_put hv hk hl, (over_put hv hk hl).node, ptr_vno]

end

end Ends

/-! ### Accounts -/

def Exact (h g : Fs) (d : ℕ → ℤ) : Prop := ∀ k, (g.refs k : ℤ) = h.refs k + d k

/-- The counts have changed by `d` or more, and one by more. -/
def Leaky (h g : Fs) (d : ℕ → ℤ) : Prop := (∀ k, h.refs k + d k ≤ g.refs k) ∧ ∃ n, h.refs n + d n < g.refs n

/-- What `call` does with the references, `delta` being what it should do: if `cond` holds it comes back and
has done that; if not, then if it comes back there are references left over. -/
structure Accounts {α : Type} (call : FsM α) (start base : Fs) (delta : α → ℕ → ℤ) (cond : Prop) : Prop where
  cases : ∀ {r g'}, call start = .ok r g' → (cond ∧ Exact base g' (delta r)) ∨ (¬ cond ∧ Leaky base g' (delta r))
  run : cond → ∃ r g', call start = .ok r g'

/-- The end of a call, which begins with a reference to the inode `m`, taken on top of `h`. -/
def EndSpec {α : Type} (cwd : VPtr) (rest : VPtr → FsM α) (delta : α → ℕ → ℤ) (cond : Fs → ℕ → Prop) : Prop :=
  ∀ (h : Fs) (m : ℕ), Home h cwd → (h.node m).isSome → Accounts (rest (h.ptr m)) (h.grab m) h delta (cond h m)

def still {α : Type} : α → ℕ → ℤ := fun _ _ => 0

section Accounting

variable {α : Type} {call : FsM α} {start base h g : Fs} {delta : α → ℕ → ℤ} {cond : Prop} {n : ℕ} {d : ℕ → ℤ}

theorem Accounts.intro
    (good : cond → ∃ r g', call start = .ok r g' ∧ Exact base g' (delta r))
    (bad : ¬ cond → ∀ {r g'}, call start = .ok r g' → Leaky base g' (delta r)) :
    Accounts call start base delta cond where
  cases := by
    intro r g' hr
    by_cases hc : cond
    · obtain ⟨r1, g1, hr1, hrefs⟩ := good hc
      rw [hr] at hr1
      cases hr1
      exact .inl ⟨hc, hrefs⟩
    · exact .inr ⟨hc, bad hc hr⟩
  run := by
    intro hc
    obtain ⟨r, g', hr, -⟩ := good hc
    exact ⟨r, g', hr⟩

theorem Exact.not_leaky (he : Exact h g d) : ¬ Leaky h g d := by
  rintro ⟨-, n, hn⟩
  have := he n
  omega

/-- The condition says exactly when the counts come out right. -/
theorem Accounts.iff (ha : Accounts call start base delta cond) :
    (∃ r g', call start = .ok r g' ∧ Exact base g' (delta r)) ↔ cond := by
  constructor
  · rintro ⟨r, g', hr, he⟩
    rcases ha.cases hr with ⟨hc, -⟩ | ⟨-, hl⟩
    · exact hc
    · exact absurd hl he.not_leaky
  · intro hc
    obtain ⟨r, g', hr⟩ := ha.run hc
    rcases ha.cases hr with ⟨-, he⟩ | ⟨hc', -⟩
    · exact ⟨r, g', hr, he⟩
    · exact absurd hc hc'

theorem exact_still (hrefs : ∀ k, g.refs k = h.refs k) (r : α) : Exact h g (still r) := by
  intro k
  rw [hrefs, still, add_zero]

theorem Leaky.of_refs {h' : Fs} (hlk : Leaky h' g d) (hrefs : ∀ k, h'.refs k = h.refs k) : Leaky h g d := by
  unfold Leaky at hlk
  simp only [hrefs] at hlk
  exact hlk

/-- What is taken before a call and never dropped. -/
theorem leaky_grab (hl : (h.node n).isSome) (hg : Exact (h.grab n) g d ∨ Leaky (h.grab n) g d) : Leaky h g d := by
  have hle : ∀ k, (h.grab n).refs k + d k ≤ g.refs k := by
    intro k
    rcases hg with he | hlk
    · exact (he k).ge
    · exact hlk.1 k
  have hrefs : ∀ k, (h.grab n).refs k = h.refs k + if k = n then 1 else 0 := by
    intro k
    rw [grab_refs hl, update_apply]
    split_ifs with hk
    · rw [hk]
    · rfl
  refine ⟨fun k => ?_, n, ?_⟩
  · have := hle k
    rw [hrefs] at this
    split_ifs at this <;> omega
  have := hle n
  rw [hrefs, if_pos rfl] at this
  omega

end Accounting

/-- A resolution that finds `x`, and keeps the references to what it has passed if `safe` does not hold. -/
structure Reaches (res : FsM (Except Failure VPtr)) (fs : Fs) (safe : Prop) (x : Except Errno ℕ) : Prop where
  cases : ∀ {r fs'}, res fs = .ok r fs' → (safe ∧ fs.Walks x (r.mapError Failure.errno) fs') ∨
    (¬ safe ∧ ∃ n, (fs.node n).isSome ∧ (fs.grab n).Walks x (r.mapError Failure.errno) fs')
  run : safe → ∃ r fs', res fs = .ok r fs'

theorem Home.grab {fs : Fs} {cwd : VPtr} {n : ℕ} (h : Home fs cwd) : Home (fs.grab n) cwd :=
  ⟨h.valid.grab, h.linked.grab h.valid, h.cwd.grab, h.root.grab⟩

/-- A call that resolves a path and goes on from what it finds. -/
def after {α : Type} (res : FsM (Except Failure VPtr)) (fail : Failure → α) (rest : VPtr → FsM α) : FsM α :=
  res >>= fun
    | .error e => return fail e
    | .ok p => rest p

section After

variable {α : Type} {res : FsM (Except Failure VPtr)} {fs base fs' : Fs} {safe : Prop} {x : Except Errno ℕ} {cwd : VPtr}
variable {fail : Failure → α} {rest : VPtr → FsM α} {delta : α → ℕ → ℤ} {cond : Fs → ℕ → Prop}

/-- The end of a call in a state `base` on which a walk has found `x`. -/
theorem EndSpec.walks (spec : EndSpec cwd rest delta cond) (hfail : ∀ e k, delta (fail e) k = 0) (hb : Home base cwd)
    {r : Except Failure VPtr} (hw : base.Walks x (r.mapError Failure.errno) fs') :
    Accounts (match r with
      | .error e => return fail e
      | .ok p => rest p) fs' base delta (∀ m, x = .ok m → cond base m) := by
  cases x with
  | error e =>
    obtain ⟨hr, hs⟩ := hw
    cases r with
    | ok p => cases hr
    | error f =>
      refine Accounts.intro (fun _ => ⟨fail f, fs', rfl, fun k => ?_⟩) fun hc => absurd (fun m hm => by cases hm) hc
      rw [hs.refs, hfail, add_zero]
  | ok m =>
    obtain ⟨hl, hr, rfl⟩ := hw
    cases r with
    | error f => cases hr
    | ok p =>
      obtain rfl : p = base.ptr m := by simpa [Except.mapError] using hr
      obtain ⟨hcases, hrun⟩ := spec base m hb hl
      have hc : (∀ m', (Except.ok m : Except Errno ℕ) = .ok m' → cond base m') ↔ cond base m :=
        ⟨fun h => h m rfl, fun h m' hm => by cases hm; exact h⟩
      rw [hc]
      exact ⟨hcases, hrun⟩

theorem Reaches.accounts (hr : Reaches res fs safe x) (hh : Home fs cwd) (spec : EndSpec cwd rest delta cond)
    (fail : Failure → α) (hfail : ∀ e k, delta (fail e) k = 0) :
    Accounts (after res fail rest) fs fs delta (safe ∧ ∀ m, x = .ok m → cond fs m) where
  cases := by
    intro r g' hok
    obtain ⟨y, fs1, hy, hrest⟩ := bind_ok_iff.1 hok
    rcases hr.cases hy with ⟨hsafe, hw⟩ | ⟨hsafe, n, hl, hw⟩
    · rcases (spec.walks hfail hh hw).cases hrest with ⟨hc, he⟩ | ⟨hc, hlk⟩
      · exact .inl ⟨⟨hsafe, hc⟩, he⟩
      · exact .inr ⟨fun h => hc h.2, hlk⟩
    refine .inr ⟨fun h => hsafe h.1, leaky_grab hl ?_⟩
    rcases (spec.walks hfail hh.grab hw).cases hrest with ⟨-, he⟩ | ⟨-, hlk⟩
    · exact .inl he
    · exact .inr hlk
  run := by
    rintro ⟨hsafe, hc⟩
    obtain ⟨y, fs1, hy⟩ := hr.run hsafe
    rcases hr.cases hy with ⟨-, hw⟩ | ⟨hsafe', -⟩
    · obtain ⟨r, g', hrest⟩ := (spec.walks hfail hh hw).run hc
      exact ⟨r, g', bind_ok_iff.2 ⟨y, fs1, hy, hrest⟩⟩
    · exact absurd hsafe hsafe'

end After

theorem dirNamev_reaches {fs : Fs} {cwd : VPtr} (h : Home fs cwd) (path : CStr) :
    Reaches (dirNamev cwd path) fs (fs.ParentSafe cwd path) (fs.parent cwd path) :=
  ⟨fun hok => (dirNamev_cases h hok).imp_right fun ⟨hs, _, hn⟩ => ⟨hs, hn⟩, dirNamev_of_safe h⟩

section EndsOfCalls

variable {h g g' : Fs} {m n : ℕ} {name : CStr} {r : ℤ} {e : ℕ → Dirent}

/-- What is found is allocated. -/
def FoundOk (h : Fs) (m : ℕ) (name : CStr) : Prop := ∀ n, h.entry m name = .ok n → (h.node n).isSome

theorem entry_ok : h.entry m name = .ok n ↔
    ∃ nd e i, h.node m = some nd ∧ nd.mem = .dir e ∧ findEntry e name = some i ∧ (e i).ino = n := by
  unfold Fs.entry
  constructor
  · intro hn
    split at hn
    · cases hn
    next e he =>
    obtain ⟨nd, hnd, he⟩ := bind_eq_some_iff.1 he
    split at hn
    · cases hn
    next i hi =>
    cases hn
    exact ⟨nd, e, i, hnd, Mem.entries_some.1 he, hi, rfl⟩
  · rintro ⟨nd, e, i, hnd, he, hi, rfl⟩
    simp [hnd, he, Mem.entries, hi]

/-- Removing a name changes no count. -/
theorem remove_spec (hv : g.Valid) {nd : Node} (hm : g.node m = some nd) (he : nd.mem = .dir e) (i : ℕ)
    (hl : (g.node n).isSome) : (g.remove m i n).Valid ∧ (g.remove m i n).refs = g.refs ∧
      ∀ {p}, g.Points p → (g.remove m i n).Points p := by
  obtain ⟨hv1, hvn1, -⟩ := leave_spec (hv.grab (n := n)) (grab_node ▸ hm) he i
  have hp1 : ((g.grab n).leave m i).Points (g.ptr n) := by
    rw [Fs.Points, hvn1]
    exact points_ptr hl
  have hr := hp1.refs_pos hv1
  rw [ptr_vno] at hr
  obtain ⟨ndq, hnq⟩ := hv1.live hr
  obtain ⟨hv2, hvn2, -⟩ := relink_spec hv1 hnq (-1)
  have hrefs : (((g.grab n).leave m i).relink n (-1)).refs = (g.grab n).refs := by
    funext k
    unfold Fs.refs
    rw [hvn2, hvn1]
  have hpos : 0 < (((g.grab n).leave m i).relink n (-1)).refs n := by
    rw [hrefs, grab_refs hl, update_self]
    omega
  refine ⟨hv2.release, ?_, fun {p} hp => (points_release hv2).2 ⟨?_, ?_⟩⟩
  · rw [Fs.remove, release_refs hv2 hpos, hrefs, grab_refs hl, update_idem, update_self,
      Nat.add_sub_cancel, update_eq_self]
  · rw [Fs.Points, hvn2, hvn1]
    exact hp.grab
  rintro rfl
  have := hp.refs_pos hv
  rw [hrefs, grab_refs hl, update_self]
  omega

section
variable (hv : h.Valid) (hl : (h.node m).isSome)
include hv hl

theorem lookup_missing {e : Errno} (hentry : h.entry m name = .error e) :
    lookup (h.ptr m) name (h.grab m) = .ok (.error e) (h.grab m) := by
  rw [lookup_on hv hl, hentry]
  exact ⟨rfl, rfl⟩

theorem lookup_found (hentry : h.entry m name = .ok n) (hn : (h.node n).isSome) :
    lookup (h.ptr m) name (h.grab m) = .ok (.ok ((h.grab m).ptr n)) ((h.grab m).grab n) := by
  rw [lookup_on hv hl, hentry]
  exact ⟨by rwa [grab_node], rfl, rfl⟩

/-- A lookup that comes back has found an inode, or none of that name. -/
theorem foundOk_of_lookup {x : Except Errno VPtr}
    (hx : lookup (h.ptr m) name (h.grab m) = .ok x g) : FoundOk h m name := by
  intro n hentry
  rw [lookup_on hv hl, hentry] at hx
  rw [← grab_node]
  exact hx.1

/-- How a call begins in the directory `m`: there is no such name, or it is found and held. -/
theorem lookup_bind {α : Type} {k : Except Errno VPtr → FsM α} {a : α}
    (hr : (lookup (h.ptr m) name >>= k) (h.grab m) = .ok a g) :
    (∃ e, h.entry m name = .error e ∧ k (.error e) (h.grab m) = .ok a g) ∨
      ∃ n, h.entry m name = .ok n ∧ (h.node n).isSome ∧ k (.ok ((h.grab m).ptr n)) ((h.grab m).grab n) = .ok a g := by
  obtain ⟨x, g1, hx, hr⟩ := bind_ok_iff.1 hr
  cases hentry : h.entry m name with
  | error e =>
    rw [lookup_missing hv hl hentry] at hx
    cases hx
    exact .inl ⟨e, rfl, hr⟩
  | ok n =>
    have hn := foundOk_of_lookup hv hl hx n hentry
    rw [lookup_found hv hl hentry hn] at hx
    cases hx
    exact .inr ⟨n, rfl, hn, hr⟩

end

theorem deref_found (hv : h.Valid) {nd : Node} (hnd : h.node n = some nd) :
    ∃ v, deref ((h.grab m).ptr n) ((h.grab m).grab n) = .ok v ((h.grab m).grab n) ∧ v.mode = nd.mem.mode :=
  deref_ptr hv.grab (by rw [grab_node, hnd])

def unlinked (h : Fs) (m i n : ℕ) : Fs := ((((h.grab m).grab n).remove m i n).release n).release m

theorem unlink_found (hv : h.Valid) (hl : (h.node m).isSome) {nd ndm : Node} (hm : h.node m = some ndm)
    (he : ndm.mem = .dir e) {i : ℕ} (hi : findEntry e name = some i) (hnd : h.node (e i).ino = some nd)
    (hdir : nd.mem.mode ≠ .dir) : m ≠ (e i).ino ∧ ∃ g2 g3,
      ramfsUnlink (h.ptr m) name ((h.grab m).grab (e i).ino) = .ok (.ok ()) g2 ∧
        vput ((h.grab m).ptr (e i).ino) g2 = .ok () g3 ∧ vput (h.ptr m) g3 = .ok () (unlinked h m i (e i).ino) ∧
        ∀ k, (unlinked h m i (e i).ino).refs k = h.refs k := by
  have hn : (h.node (e i).ino).isSome := by rw [hnd]; rfl
  have ho := (over_grab hv hl).grab hn
  have hne : m ≠ (e i).ino := by
    intro hne
    rw [← hne, hm] at hnd
    cases hnd
    exact hdir (Mem.mode_dir.2 ⟨e, he⟩)
  have hp : ((h.grab m).grab (e i).ino).Points (h.ptr m) := (points_ptr hl).grab
  have hunlink : ramfsUnlink (h.ptr m) name ((h.grab m).grab (e i).ino) =
      .ok (.ok ()) (((h.grab m).grab (e i).ino).remove m i (e i).ino) := by
    refine (ramfsUnlink_ok ho.valid).2 ⟨e, i, nd, dir_iff.2 ⟨hp, ndm, ?_, he⟩, hi, ?_, hdir, rfl, ?_⟩
    · rw [ho.node, ptr_vno, hm]
    · rw [ho.node, hnd]
    · rw [ptr_vno]
  obtain ⟨hv2, hrefs2, hp2⟩ := remove_spec ho.valid (by rw [ho.node, hm]) he i (by rwa [ho.node])
  have hput3 := (vput_ok (u := ()) hv2).2 ⟨hp2 (points_ptr (by rwa [grab_node])), rfl⟩
  have hp3 := (points_release hv2).2 ⟨hp2 hp, fun h' => absurd (ptr_vno.symm.trans h') hne⟩
  have hput4 := (vput_ok (u := ()) hv2.release).2 ⟨hp3, rfl⟩
  rw [ptr_vno] at hput3 hput4
  refine ⟨hne, _, _, hunlink, hput3, hput4, fun k => ?_⟩
  have hn2 : 0 < (((h.grab m).grab (e i).ino).remove m i (e i).ino).refs (e i).ino := by
    rw [hrefs2, ho.refs]
    simp
  have hm2 := hp3.refs_pos hv2.release
  rw [ptr_vno] at hm2
  rw [unlinked, release_refs hv2.release hm2, release_refs hv2 hn2, hrefs2]
  simp only [update_apply, ho.refs, count_cons, count_nil, beq_iff_eq]
  split_ifs <;> simp_all

theorem unlinkAt_spec (cwd : VPtr) (name : CStr) : EndSpec cwd (unlinkAt · name) still (FoundOk · · name) := by
  intro h m hh hl
  have hv := hh.valid
  have hk := hh.linked
  beta_reduce
  apply Accounts.intro
  · intro hfound
    unfold unlinkAt
    cases hentry : h.entry m name with
    | error e =>
      rw [bind_ok _ (lookup_missing hv hl hentry)]
      exact ⟨_, _, put_dir hv hl _, exact_still (over_put hv hk hl).refs_eq _⟩
    | ok n =>
      have hn := hfound n hentry
      obtain ⟨nd, hnd⟩ := isSome_iff_exists.1 hn
      obtain ⟨v, hd, hmode⟩ := deref_found (m := m) hv hnd
      rw [bind_ok _ (lookup_found hv hl hentry hn)]
      simp only
      rw [bind_ok _ hd, hmode]
      by_cases hdir : nd.mem.mode = .dir
      · rw [if_neg (not_not.2 hdir)]
        rw [put_dir_after hv hl, put_found hv hl hn]
        exact ⟨_, _, rfl, exact_still (over_put_found hv hk hl hn).refs_eq _⟩
      rw [if_pos hdir]
      obtain ⟨ndm, e, i, hm, he, hi, rfl⟩ := entry_ok.1 hentry
      obtain ⟨-, g2, g3, hunlink, hput3, hput4, hrefs⟩ := unlink_found hv hl hm he hi hnd hdir
      rw [bind_ok _ hunlink, bind_ok _ hput3, bind_ok _ hput4]
      exact ⟨_, _, rfl, exact_still hrefs _⟩
  · intro hfound r g' hr
    obtain ⟨x, g, hx, -⟩ := bind_ok_iff.1 hr
    exact absurd (foundOk_of_lookup hv hl hx) hfound

def rmdirIn (name : CStr) (dir : VPtr) : FsM ℤ :=
  if name = [dot] then return -Errno.einval.code
  else if name = [dot, dot] then return -Errno.enotempty.code
  else rmdirAt dir name

/-- The parent is in core when a directory is removed from it; it is never put for the two special names. -/
def RmdirOk (name : CStr) (h : Fs) (m : ℕ) : Prop :=
  name ≠ [dot] ∧ name ≠ [dot, dot] ∧
    ∀ n, h.entry m name = .ok n → ∃ nd, h.node n = some nd ∧ (nd.mem.mode = .dir → (h.vnodes m).isSome)

theorem leaky_dir (hl : (h.node m).isSome) (r : ℤ) : Leaky h (h.grab m) (still r) := by
  refine leaky_grab hl (.inl fun k => ?_)
  rw [still, add_zero]

theorem grab_release_refs (hv : g.Valid) (hl : (g.node n).isSome) : ((g.grab n).release n).refs = g.refs := by
  have hpos := (points_ptr hl).refs_pos hv.grab
  rw [ptr_vno] at hpos
  rw [release_refs hv.grab hpos, grab_refs hl, update_idem, update_self, Nat.add_sub_cancel,
    update_eq_self]

/-- `ramfs_rmdir` keeps the counts, whatever it finds. -/
theorem ramfsRmdir_refs (hv : g.Valid) {dir : VPtr} {x : Except Errno Unit} (h' : ramfsRmdir dir name g = .ok x g') :
    g.Points dir ∧ g'.refs = g.refs := by
  obtain ⟨-, e, he, ⟨-, -, rfl⟩ | ⟨i, nd, hi, hnd, hcases⟩⟩ := (ramfsRmdir_ok hv).1 h'
  · exact ⟨he.points, rfl⟩
  have hl : (g.node (e i).ino).isSome := by rw [hnd]; rfl
  obtain ⟨ndm, hm, hme⟩ := he.node
  refine ⟨he.points, ?_⟩
  rcases hcases with ⟨-, -, rfl⟩ | ⟨e', -, ⟨-, -, rfl⟩ | ⟨-, -, rfl⟩⟩
  · exact grab_release_refs hv hl
  · exact (remove_spec hv hm hme i hl).2.1
  · exact grab_release_refs hv hl

theorem ramfsRmdir_runs (hv : g.Valid) {dir : VPtr} (he : g.Dir dir e) (hname : name ≠ [dot] ∧ name ≠ [dot, dot])
    {i : ℕ} (hi : findEntry e name = some i) (hl : (g.node (e i).ino).isSome) :
    ∃ x g', ramfsRmdir dir name g = .ok x g' := by
  obtain ⟨nd, hnd⟩ := isSome_iff_exists.1 hl
  simp only [ramfsRmdir_ok hv]
  by_cases hdir : nd.mem.mode = .dir
  · obtain ⟨e', he'⟩ := Mem.mode_dir.1 hdir
    cases hempty : dirEmpty e' with
    | true => exact ⟨_, _, hname, e, he, .inr ⟨i, nd, hi, hnd, .inr ⟨e', he', .inl ⟨hempty, rfl, rfl⟩⟩⟩⟩
    | false => exact ⟨_, _, hname, e, he, .inr ⟨i, nd, hi, hnd, .inr ⟨e', he', .inr ⟨hempty, rfl, rfl⟩⟩⟩⟩
  · exact ⟨_, _, hname, e, he, .inr ⟨i, nd, hi, hnd, .inl ⟨hdir, rfl, rfl⟩⟩⟩

theorem deref_put (hv : h.Valid) (hk : h.Linked) (hl : (h.node m).isSome) {nd : Node} (hnd : h.node n = some nd) :
    ∃ v, deref ((h.grab m).ptr n) (((h.grab m).grab n).release m) = .ok v (((h.grab m).grab n).release m) ∧
      v.mode = nd.mem.mode := by
  have hn : (h.node n).isSome := by rw [hnd]; rfl
  have ho := over_found hv hk hl hn
  exact deref_of_points ho.valid (points_found hv hl hn) (by rw [ho.node, ptr_vno, hnd])

theorem rmdirIn_spec (cwd : VPtr) (name : CStr) : EndSpec cwd (rmdirIn name) still (RmdirOk name) := by
  intro h m hh hl
  have hv := hh.valid
  have hk := hh.linked
  apply Accounts.intro
  · rintro ⟨hdot, hdots, hfound⟩
    unfold rmdirIn
    rw [if_neg hdot, if_neg hdots]
    unfold rmdirAt
    cases hentry : h.entry m name with
    | error e =>
      rw [bind_ok _ (lookup_missing hv hl hentry)]
      exact ⟨_, _, put_dir hv hl _, exact_still (over_put hv hk hl).refs_eq _⟩
    | ok n =>
      obtain ⟨nd, hnd, hcore⟩ := hfound n hentry
      have hn : (h.node n).isSome := by rw [hnd]; rfl
      obtain ⟨v, hd, hmode⟩ := deref_put hv hk hl hnd
      have ho := over_put_found hv hk hl hn
      rw [bind_ok _ (lookup_found hv hl hentry hn), put_dir_after hv hl]
      simp only
      rw [bind_ok _ hd, hmode]
      by_cases hdir : nd.mem.mode = .dir
      · rw [if_pos hdir, put_found hv hl hn]
        obtain ⟨ndm, e, i, hm, he, hi, rfl⟩ := entry_ok.1 hentry
        have hdirs : ((((h.grab m).grab (e i).ino).release m).release (e i).ino).Dir (h.ptr m) e :=
          dir_iff.2 ⟨ho.points (points_of_core (hcore hdir)), ndm, by rw [ho.node, ptr_vno, hm], he⟩
        obtain ⟨x, g', hx⟩ := ramfsRmdir_runs ho.valid hdirs ⟨hdot, hdots⟩ hi (by rwa [ho.node])
        have hrefs := (ramfsRmdir_refs ho.valid hx).2
        rw [bind_ok _ hx]
        cases x with
        | error e | ok u => exact ⟨_, g', rfl, exact_still (fun k => by rw [hrefs, ho.refs_eq]) _⟩
      · rw [if_neg hdir, put_found hv hl hn]
        exact ⟨_, _, rfl, exact_still ho.refs_eq _⟩
  · intro hbad r g' hr
    unfold rmdirIn at hr
    split_ifs at hr with hdot hdots
    · obtain ⟨rfl, rfl⟩ := pure_ok_iff.1 hr
      exact leaky_dir hl _
    · obtain ⟨rfl, rfl⟩ := pure_ok_iff.1 hr
      exact leaky_dir hl _
    exfalso
    obtain ⟨x, g1, hx, hr⟩ := bind_ok_iff.1 hr
    refine hbad ⟨hdot, hdots, fun n hentry => ?_⟩
    have hn := foundOk_of_lookup hv hl hx n hentry
    obtain ⟨nd, hnd⟩ := isSome_iff_exists.1 hn
    refine ⟨nd, hnd, fun hdir => ?_⟩
    rw [lookup_found hv hl hentry hn] at hx
    cases hx
    obtain ⟨v, hd, hmode⟩ := deref_put hv hk hl hnd
    rw [put_dir_after hv hl] at hr
    simp only at hr
    rw [bind_ok _ hd, hmode, if_pos hdir, put_found hv hl hn] at hr
    obtain ⟨y, g2, hy, -⟩ := bind_ok_iff.1 hr
    have ho := over_put_found hv hk hl hn
    have hp := (ramfsRmdir_refs ho.valid hy).1
    have hcore := ho.core hv hp (by simp)
    rwa [ptr_vno] at hcore

end EndsOfCalls

/-! ### Making a file -/

/-- What `ramfs_mkdir` and `ramfs_mknod` share; `made` is the state once entry `i` and inode `ino` are taken. -/
structure Makes (make : FsM (Except Errno Unit)) (dir : VPtr) (name : CStr) (memory : Bool)
    (made : Fs → ℕ → ℕ → Fs) : Prop where
  ok : ∀ {g g' r}, g.Valid → (make g = .ok r g' ↔ ∃ e, g.Dir dir e ∧ findEntry e name = none ∧
    ((g.NoRoom e memory ∧ r = .error .enospc ∧ g = g') ∨
      ∃ i ino, g.Room e memory i ino ∧ r = .ok () ∧ made g i ino = g'))
  valid : ∀ {g e i ino}, g.Valid → g.Dir dir e → g.Room e memory i ino → (made g i ino).Valid
  vnodes : ∀ {g e i ino}, g.Valid → g.Dir dir e → g.Room e memory i ino → (made g i ino).vnodes = g.vnodes
  live : ∀ {g e i ino}, g.Valid → g.Dir dir e → g.Room e memory i ino → ((made g i ino).node ino).isSome
  entries : ∀ {g e i ino}, g.Valid → g.Dir dir e → g.Room e memory i ino →
    (made g i ino).Dir dir (update e i ⟨ino, name.take (nameLen - 1)⟩)

section Make

variable {h g g' : Fs} {m i ino : ℕ} {name : CStr} {memory : Bool} {e : ℕ → Dirent} {dir : VPtr}

/-- A new inode with its name in the directory. -/
theorem enter_alloc_spec (hv : g.Valid) (he : g.Dir dir e) (hr : g.Room e memory i ino) (name : CStr) (mem : Mem) :
    ((g.alloc ino mem).enter dir.vno i ino name).Valid ∧ ((g.alloc ino mem).enter dir.vno i ino name).vnodes = g.vnodes ∧
      (((g.alloc ino mem).enter dir.vno i ino name).node ino) = some ⟨mem, 0, 1⟩ ∧
      ((g.alloc ino mem).enter dir.vno i ino name).Dir dir (update e i ⟨ino, name.take (nameLen - 1)⟩) := by
  obtain ⟨hv1, hvn1, -, hnode1⟩ := alloc_spec hv hr.2.1 mem
  have hdir : (g.alloc ino mem).Dir dir e := he.alloc hr.2.1
  obtain ⟨nd, hnd, hne⟩ := hdir.node
  obtain ⟨hv2, hvn2, hnode2⟩ := enter_spec hv1 hnd hne i ino name
  refine ⟨hv2, hvn2.trans hvn1, ?_, dir_iff.2 ⟨?_, _, by rw [hnode2, update_self], rfl⟩⟩
  · rw [hnode2, update_of_ne (he.ne_freeInode hr.2.1).symm, hnode1, update_self]
  rw [Fs.Points, hvn2, hvn1]
  exact he.points

theorem ramfsMknod_makes (dir : VPtr) (name : CStr) {mode devid : ℕ} {mem : Mem} (memory : Bool)
    (hmem : specialMem mode devid = some mem) : Makes (ramfsMknod dir name mode devid memory) dir name memory
      fun g i ino => (g.alloc ino mem).enter dir.vno i ino name where
  ok hv := by
    rw [ramfsMknod_ok hv, hmem]
  valid hv he hr := (enter_alloc_spec hv he hr name mem).1
  vnodes hv he hr := (enter_alloc_spec hv he hr name mem).2.1
  live hv he hr := by
    rw [(enter_alloc_spec hv he hr name mem).2.2.1]
    rfl
  entries hv he hr := (enter_alloc_spec hv he hr name mem).2.2.2

theorem mkdir_spec (hv : g.Valid) (he : g.Dir dir e) (hr : g.Room e memory i ino) {mem : Mem} (hmem : mem.mode = .dir) :
    (((g.alloc ino (.dir noEntries)).enter dir.vno i ino name).setInode ino (some ⟨2 * direntSize, ino, mem, 1⟩)).Valid ∧
      ((((g.alloc ino (.dir noEntries)).enter dir.vno i ino name).setInode ino
        (some ⟨2 * direntSize, ino, mem, 1⟩)).Dir dir (update e i ⟨ino, name.take (nameLen - 1)⟩)) := by
  obtain ⟨hv1, hvn1, hnode1, hp, nd, hnd, hent⟩ := enter_alloc_spec hv he hr name (.dir noEntries)
  obtain ⟨j, hj, hnode⟩ := node_some.1 hnode1
  refine ⟨hv1.setInode hj (hv1.inode hj).1.symm ?_, hp, nd, ?_, hent⟩
  · rw [hmem, ← (Node.mk.inj hnode).1]
    rfl
  · exact (update_of_ne (he.ne_freeInode hr.2.1) ..).trans hnd

theorem ramfsMkdir_makes (dir : VPtr) (name : CStr) (memory : Bool) : Makes (ramfsMkdir dir name memory) dir name memory
    fun g i ino => ((g.alloc ino (.dir noEntries)).enter dir.vno i ino name).setInode ino
      (some ⟨2 * direntSize, ino, .dir (dotEntries ino dir.vno), 1⟩) where
  ok hv := ramfsMkdir_ok hv
  valid hv he hr := (mkdir_spec hv he hr rfl).1
  vnodes hv he hr := (enter_alloc_spec hv he hr name (.dir noEntries)).2.1
  live hv he hr := by
    simp [setInode_node]
  entries hv he hr := (mkdir_spec hv he hr rfl).2

/-- The name that is entered is cut, so that one of 28 bytes is not found again. -/
theorem findEntry_enter (hnew : findEntry e name = none) (hfree : findEntry e [] = some i) (ino : ℕ) :
    findEntry (update e i ⟨ino, name.take (nameLen - 1)⟩) name = if name.length < nameLen then some i else none := by
  obtain ⟨hi, -⟩ := SlotMap.slot_some (findEntry_eq e [] ▸ hfree)
  have hkeys := SlotMap.slot_none.1 hnew
  rw [findEntry_eq, name_update]
  split_ifs with hlen
  · rw [take_of_length_le (by omega)]
    cases hs : SlotMap.slot maxDirent (update (fun j => (e j).name) i name) name with
    | none => exact absurd (update_self ..) (SlotMap.slot_none.1 hs i hi)
    | some j =>
      obtain ⟨hj, hjn⟩ := SlotMap.slot_some hs
      by_contra hne
      rw [update_of_ne (fun h' => hne (congrArg some h'))] at hjn
      exact hkeys j hj hjn
  rw [SlotMap.slot_none]
  intro j hj
  by_cases hji : j = i
  · subst hji
    rw [update_self]
    intro hname
    have hcut := congrArg List.length hname
    have hpos : 0 < nameLen := by decide
    rw [length_take] at hcut
    omega
  · rw [update_of_ne hji]
    exact hkeys j hj

def HasRoom (h : Fs) (m : ℕ) (memory : Bool) : Prop :=
  ∃ nd e, h.node m = some nd ∧ nd.mem = .dir e ∧ ¬ h.NoRoom e memory

/-- A file that exists is allocated; a new one is refused for lack of room or has a name too long to be found
again; and the directory, which has been put, is in core when it is used. -/
def MakeOk (name : CStr) (memory : Bool) (h : Fs) (m : ℕ) : Prop :=
  FoundOk h m name ∧ (h.entry m name = .error .enoent →
    (h.vnodes m).isSome ∧ (HasRoom h m memory → nameLen ≤ name.length))

theorem room_of_not (hr : ¬ g.NoRoom e memory) : ∃ i ino, g.Room e memory i ino := by
  unfold Fs.NoRoom at hr
  push Not at hr
  obtain ⟨hi, hino, hmem⟩ := hr
  obtain ⟨i, hi⟩ := ne_none_iff_exists'.1 hi
  obtain ⟨ino, hino⟩ := ne_none_iff_exists'.1 hino
  exact ⟨i, ino, hi, hino, by simpa using hmem⟩

theorem noRoom_node (hn : g.node = h.node) : g.NoRoom e memory ↔ h.NoRoom e memory := by
  have hfree : g.freeInode = h.freeInode := by
    unfold Fs.freeInode
    congr 1
    funext i
    have := congrArg Option.isSome (congrFun hn i)
    rw [node_isSome, node_isSome] at this
    rw [← not_isSome, ← not_isSome, this]
  rw [Fs.NoRoom, Fs.NoRoom, hfree]

theorem entry_enoent : h.entry m name = .error .enoent ↔
    ∃ nd e, h.node m = some nd ∧ nd.mem = .dir e ∧ findEntry e name = none := by
  unfold Fs.entry
  constructor
  · intro hn
    split at hn
    · cases hn
    next e he =>
    obtain ⟨nd, hnd, he⟩ := bind_eq_some_iff.1 he
    split at hn
    · next hi => exact ⟨nd, e, hnd, Mem.entries_some.1 he, hi⟩
    · cases hn
  · rintro ⟨nd, e, hnd, he, hi⟩
    simp [hnd, he, Mem.entries, hi]

theorem entry_error {x : Errno} (hx : h.entry m name = .error x) : x = .enotdir ∨ x = .enoent := by
  unfold Fs.entry at hx
  split at hx
  · cases hx
    exact .inl rfl
  split at hx
  · cases hx
    exact .inr rfl
  · cases hx

/-- A new file is looked up once it is made, and the reference is kept. -/
theorem Makes.again {make : FsM (Except Errno Unit)} {made : Fs → ℕ → ℕ → Fs} (hm : Makes make dir name memory made)
    (hv : g.Valid) (he : g.Dir dir e) (hnew : findEntry e name = none) (hr : g.Room e memory i ino)
    {x : Except Errno VPtr} : lookup dir name (made g i ino) = .ok x g' ↔
      if name.length < nameLen then x = .ok ((made g i ino).ptr ino) ∧ (made g i ino).grab ino = g'
      else x = .error .enoent ∧ made g i ino = g' := by
  obtain ⟨hp, nd, hnd, hne⟩ := dir_iff.1 (hm.entries hv he hr)
  have hentry : (made g i ino).entry dir.vno name = if name.length < nameLen then .ok ino else .error .enoent := by
    unfold Fs.entry
    rw [hnd, bind_some, hne]
    simp only [Mem.entries, findEntry_enter hnew hr.1]
    split_ifs
    · simp
    · rfl
  rw [lookup_ok (hm.valid hv he hr) hp, hentry]
  split_ifs
  · exact and_iff_right (hm.live hv he hr)
  · rfl

theorem makeAt_spec (cwd : VPtr) (name : CStr) (memory : Bool) {make : VPtr → FsM (Except Errno Unit)}
    {made : VPtr → Fs → ℕ → ℕ → Fs} (hmake : ∀ dir, Makes (make dir) dir name memory (made dir)) :
    EndSpec cwd (fun dir => makeAt dir name (make dir)) still (MakeOk name memory) := by
  intro h m hh hl
  have hv := hh.valid
  have hk := hh.linked
  beta_reduce
  apply Accounts.intro
  · rintro ⟨hfound, hroom⟩
    unfold makeAt
    cases hentry : h.entry m name with
    | ok n =>
      have hn := hfound n hentry
      rw [bind_ok _ (lookup_found hv hl hentry hn), put_dir_after hv hl]
      simp only
      rw [put_found hv hl hn]
      exact ⟨_, _, rfl, exact_still (over_put_found hv hk hl hn).refs_eq _⟩
    | error x =>
      have ho := over_put hv hk hl
      rw [bind_ok _ (lookup_missing hv hl hentry), put_dir hv hl]
      rcases entry_error hentry with rfl | rfl
      · exact ⟨_, _, rfl, exact_still ho.refs_eq _⟩
      simp only
      obtain ⟨hcore, hlong⟩ := hroom hentry
      obtain ⟨nd, e, hnd, he, hnew⟩ := entry_enoent.1 hentry
      have hdir := (dir_put hv hk hl).2 ⟨hcore, nd, hnd, he⟩
      by_cases hno : h.NoRoom e memory
      · have hmk : make (h.ptr m) ((h.grab m).release m) = .ok (.error .enospc) ((h.grab m).release m) :=
          ((hmake _).ok ho.valid).2 ⟨e, hdir, hnew, .inl ⟨(noRoom_node ho.node).2 hno, rfl, rfl⟩⟩
        rw [bind_ok _ hmk]
        exact ⟨_, _, rfl, exact_still ho.refs_eq _⟩
      have hlen := hlong ⟨nd, e, hnd, he, hno⟩
      obtain ⟨i, ino, hr⟩ := room_of_not (mt (noRoom_node ho.node).1 hno)
      have hmk := ((hmake (h.ptr m)).ok ho.valid).2 ⟨e, hdir, hnew, .inr ⟨i, ino, hr, rfl, rfl⟩⟩
      have hlook : lookup (h.ptr m) name (made (h.ptr m) ((h.grab m).release m) i ino) =
          .ok (.error .enoent) (made (h.ptr m) ((h.grab m).release m) i ino) := by
        rw [(hmake (h.ptr m)).again ho.valid hdir hnew hr, if_neg (by omega)]
        exact ⟨rfl, rfl⟩
      rw [bind_ok _ hmk]
      simp only
      rw [bind_ok _ hlook]
      refine ⟨_, _, rfl, exact_still (fun k => ?_) _⟩
      rw [Fs.refs, (hmake (h.ptr m)).vnodes ho.valid hdir hr]
      exact ho.refs_eq k
  · intro hbad r g' hr
    obtain ⟨x, g1, hx, hr⟩ := bind_ok_iff.1 hr
    have hfound := foundOk_of_lookup hv hl hx
    have hne : ¬ (h.entry m name = .error .enoent → (h.vnodes m).isSome ∧ (HasRoom h m memory → nameLen ≤ name.length)) :=
      fun h' => hbad ⟨hfound, h'⟩
    push Not at hne
    obtain ⟨hentry, hne⟩ := hne
    have ho := over_put hv hk hl
    rw [lookup_missing hv hl hentry] at hx
    cases hx
    rw [put_dir hv hl] at hr
    obtain ⟨y, g2, hy, hr⟩ := bind_ok_iff.1 hr
    obtain ⟨e, hdir, hnew, hcases⟩ := ((hmake _).ok ho.valid).1 hy
    obtain ⟨hcore, nd1, hnd1, he⟩ := (dir_put hv hk hl).1 hdir
    obtain ⟨⟨nd, e', hnd, he', hno⟩, hlen⟩ := hne hcore
    rw [hnd] at hnd1
    cases hnd1
    rw [he'] at he
    cases he
    rcases hcases with ⟨hno', -, -⟩ | ⟨i, ino, hroom, rfl, rfl⟩
    · exact absurd ((noRoom_node ho.node).1 hno') hno
    obtain ⟨z, g3, hz, hr⟩ := bind_ok_iff.1 hr
    rw [(hmake _).again ho.valid hdir hnew hroom, if_pos hlen] at hz
    obtain ⟨-, rfl⟩ := hz
    obtain ⟨rfl, rfl⟩ := pure_ok_iff.1 hr
    have hlk := leaky_dir ((hmake (h.ptr m)).live ho.valid hdir hroom) 0
    refine hlk.of_refs fun k => ?_
    rw [Fs.refs, (hmake (h.ptr m)).vnodes ho.valid hdir hroom]
    exact ho.refs_eq k

end Make

/-! ### Links -/

section Link

variable {h g g' : Fs} {m n : ℕ} {name : CStr} {e : ℕ → Dirent} {old dir cwd : VPtr}

/-- If the name is new, then both vnodes are in core, and the parent is a directory. -/
def LinkOk (old : VPtr) (name : CStr) (h : Fs) (m : ℕ) : Prop :=
  FoundOk h m name ∧ ∀ e, h.entry m name = .error e → e = .enoent ∧ h.Points old ∧ (h.vnodes m).isSome

theorem ramfsLink_refs (hv : g.Valid) {x : Except Errno Unit} (hx : ramfsLink old dir name g = .ok x g') :
    g'.refs = g.refs := by
  obtain ⟨hp, e, he, -, ⟨-, -, rfl⟩ | ⟨i, -, -, rfl⟩⟩ := (ramfsLink_ok hv).1 hx
  · rfl
  obtain ⟨nd, hnd, hne⟩ := he.node
  obtain ⟨hv1, hvn1, -⟩ := enter_spec hv hnd hne i old.vno name
  have hp1 : (g.enter dir.vno i old.vno name).Points old := by
    rw [Fs.Points, hvn1]
    exact hp
  obtain ⟨ndo, hndo⟩ := hv1.live (hp1.refs_pos hv1)
  obtain ⟨-, hvn2, -⟩ := relink_spec hv1 hndo 1
  funext k
  unfold Fs.refs
  rw [hvn2, hvn1]

theorem ramfsLink_runs (hv : g.Valid) (hp : g.Points old) (he : g.Dir dir e) (hnew : findEntry e name = none) :
    ∃ x g', ramfsLink old dir name g = .ok x g' := by
  simp only [ramfsLink_ok hv]
  cases hfree : findEntry e [] with
  | none => exact ⟨_, _, hp, e, he, hnew, .inl ⟨hfree, rfl, rfl⟩⟩
  | some i => exact ⟨_, _, hp, e, he, hnew, .inr ⟨i, hfree, rfl, rfl⟩⟩

theorem linkOk_of_linkAt (hh : Home h cwd) (hl : (h.node m).isSome) {r : ℤ}
    (hr : linkAt old (h.ptr m) name (h.grab m) = .ok r g') : LinkOk old name h m := by
  have hv := hh.valid
  have ho := over_put hv hh.linked hl
  obtain ⟨x, g1, hx, hr⟩ := bind_ok_iff.1 hr
  refine ⟨foundOk_of_lookup hv hl hx, fun e hentry => ?_⟩
  rw [lookup_missing hv hl hentry] at hx
  cases hx
  simp only at hr
  rw [put_dir hv hl] at hr
  obtain ⟨y, g2, hy, -⟩ := bind_ok_iff.1 hr
  obtain ⟨hp, e', hdir, hmiss, -⟩ := (ramfsLink_ok ho.valid).1 hy
  obtain ⟨hcore, nd, hnd, he'⟩ := (dir_put hv hh.linked hl).1 hdir
  rw [entry_enoent.2 ⟨nd, e', hnd, he', hmiss⟩] at hentry
  cases hentry
  exact ⟨rfl, (ho.points_iff hv).1 hp, hcore⟩

theorem linkAt_spec (cwd old : VPtr) (name : CStr) : EndSpec cwd (linkAt old · name) still (LinkOk old name) := by
  intro h m hh hl
  have hv := hh.valid
  have hk := hh.linked
  have ho := over_put hv hk hl
  beta_reduce
  apply Accounts.intro
  · rintro ⟨hfound, hnew⟩
    unfold linkAt
    cases hentry : h.entry m name with
    | ok n =>
      have hn := hfound n hentry
      rw [bind_ok _ (lookup_found hv hl hentry hn)]
      simp only
      rw [put_dir_after hv hl, put_found hv hl hn]
      exact ⟨_, _, rfl, exact_still (over_put_found hv hk hl hn).refs_eq _⟩
    | error x =>
      obtain ⟨rfl, hp, hcore⟩ := hnew x hentry
      obtain ⟨nd, e, hnd, he, hmiss⟩ := entry_enoent.1 hentry
      have hdir := (dir_put hv hk hl).2 ⟨hcore, nd, hnd, he⟩
      obtain ⟨x, g', hx⟩ := ramfsLink_runs ho.valid (ho.points hp) hdir hmiss
      have hrefs := ramfsLink_refs ho.valid hx
      rw [bind_ok _ (lookup_missing hv hl hentry)]
      simp only
      rw [put_dir hv hl, bind_ok _ hx]
      cases x with
      | error e | ok u => exact ⟨_, g', rfl, exact_still (fun k => by rw [hrefs, ho.refs_eq]) _⟩
  · exact fun hbad r g' hr => absurd (linkOk_of_linkAt hh hl hr) hbad

namespace Fs.Same

theorem safe (hs : h.Same g) (d : ℕ) (ps : List CStr) : g.Safe d ps ↔ h.Safe d ps := by
  induction ps generalizing d with
  | nil => exact Iff.rfl
  | cons q qs ih =>
    unfold Fs.Safe
    rw [hs.step, hs.node, hs.vnodes]
    simp only [ih]

theorem parentSafe (hs : h.Same g) (path : CStr) : g.ParentSafe cwd path ↔ h.ParentSafe cwd path := by
  unfold Fs.ParentSafe Fs.SafeWay
  rw [hs.entry]
  simp only [hs.safe]

theorem parent (hs : h.Same g) (path : CStr) : g.parent cwd path = h.parent cwd path := by
  unfold Fs.parent
  rw [hs.entry, way_node hs.node]

theorem linkOk (hs : h.Same g) : LinkOk old name g m ↔ LinkOk old name h m := by
  unfold LinkOk FoundOk
  rw [hs.entry, hs.node, hs.vnodes]
  simp only [hs.points]

theorem home (hs : h.Same g) (hh : Home h cwd) : Home g cwd := by
  refine ⟨hs.valid hh.valid, ?_, hs.points.2 hh.cwd, hs.points.2 hh.root⟩
  intro n nd hcore hnd
  rw [hs.vnodes] at hcore
  rw [hs.node] at hnd
  exact hh.linked n nd hcore hnd

end Fs.Same

def linkFrom (cwd : VPtr) (target : CStr) (old : VPtr) : FsM ℤ := do
  vput old
  after (dirNamev cwd target) (-·.errno.code) (linkAt old · (baseName target))

def LinkFromOk (cwd : VPtr) (target : CStr) (h : Fs) (n : ℕ) : Prop :=
  h.ParentSafe cwd target ∧ ∀ d, h.parent cwd target = .ok d → LinkOk (h.ptr n) (baseName target) h d

theorem linkFrom_spec (cwd : VPtr) (target : CStr) : EndSpec cwd (linkFrom cwd target) still (LinkFromOk cwd target) := by
  intro h n hh hl
  have hs := same_grab_release hh.valid hh.linked hl
  have hg := hs.home hh
  have ha := (dirNamev_reaches hg target).accounts hg (linkAt_spec cwd (h.ptr n) (baseName target))
    (-·.errno.code) fun _ _ => rfl
  have hcond : LinkFromOk cwd target h n ↔ ((h.grab n).release n).ParentSafe cwd target ∧
      ∀ d, ((h.grab n).release n).parent cwd target = .ok d →
        LinkOk (h.ptr n) (baseName target) ((h.grab n).release n) d := by
    unfold LinkFromOk
    rw [hs.parentSafe, hs.parent]
    simp only [hs.linkOk]
  have hrun : linkFrom cwd target (h.ptr n) (h.grab n) =
      after (dirNamev cwd target) (-·.errno.code) (linkAt (h.ptr n) · (baseName target)) ((h.grab n).release n) :=
    put_dir hh.valid hl _
  rw [hcond]
  refine ⟨fun {r g'} hr => ?_, fun hc => ?_⟩
  · rw [hrun] at hr
    have hrefs := hs.refs
    rcases ha.cases hr with ⟨hc, he⟩ | ⟨hc, hlk⟩
    · exact .inl ⟨hc, fun k => by rw [he k, hrefs]⟩
    · exact .inr ⟨hc, hlk.of_refs fun k => by rw [hrefs]⟩
  · rw [hrun]
    exact ha.run hc

end Link

end Weenix.Vfs
