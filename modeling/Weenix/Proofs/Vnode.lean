import Weenix.Lib.Run
import Weenix.Spec.Vnode

/-! At every point where threads can switch, the vnode cache has one vnode for each inode at
most, and counts the references to those it has given out. -/

namespace Weenix.VnodeCache

open Function List

variable {deletes : ℕ → Bool} {s s' : State} {log es : List Entry} {t a b fs vno : ℕ}

/-! ### References and calls -/

def held (log : List Entry) (a : ℕ) : ℤ := (log.count (.handed a) : ℤ) - log.count (.put a)

/-- The calls for an inode, `true` for `read_vnode` and `false` for `delete_vnode`. -/
def callsOf (log : List Entry) (fs vno : ℕ) : List Bool :=
  log.filterMap fun
    | .read f v => if f = fs ∧ v = vno then some true else none
    | .delete f v => if f = fs ∧ v = vno then some false else none
    | .handed _ => none
    | .put _ => none

/-- Calls that read and delete in turn, a read first; the flag says whether a read is the last. -/
inductive Alternates : List Bool → Bool → Prop
  | nil : Alternates [] false
  | read {l : List Bool} : Alternates l false → Alternates (l ++ [true]) true
  | delete {l : List Bool} : Alternates l true → Alternates (l ++ [false]) false

theorem held_append (log es : List Entry) (a : ℕ) : held (log ++ es) a = held log a + held es a := by
  unfold held
  rw [count_append, count_append]
  push_cast
  ring

theorem held_handed : held [.handed b] a = if a = b then 1 else 0 := by
  unfold held
  split_ifs with h
  · subst h
    simp
  · simp [Ne.symm h]

theorem held_put : held [.put b] a = if a = b then -1 else 0 := by
  unfold held
  split_ifs with h
  · subst h
    simp
  · simp [Ne.symm h]

theorem callsOf_append (log es : List Entry) (fs vno : ℕ) :
    callsOf (log ++ es) fs vno = callsOf log fs vno ++ callsOf es fs vno := filterMap_append

/-! ### The invariant -/

def ident (s : State) (a : ℕ) : ℕ × ℕ := ((s.vn a).fs, (s.vn a).vno)

def Works (s : State) (t a : ℕ) : Prop := s.point t = .reading a ∨ s.point t = .deleting a

/-- The three states of an address: a vnode that is referenced, one that a thread brings in or
takes away, and no vnode. -/
inductive Good (s : State) (log : List Entry) (a : ℕ) : Prop
  | idle (mem : a ∈ s.inuse) (busy : (s.vn a).busy = false) (pos : 0 < (s.vn a).refcount)
      (count : (s.vn a).refcount = held log a) (work : ∀ t, ¬Works s t a)
  | busy (mem : a ∈ s.inuse) (busy : (s.vn a).busy = true) (count : held log a = 0) (t : ℕ)
      (work : ∀ t', Works s t' a ↔ t' = t)
  | gone (mem : a ∉ s.inuse) (count : held log a = 0) (work : ∀ t, ¬Works s t a)

/-- A vnode for the inode is there, and not on its way out. -/
def Live (s : State) (fs vno : ℕ) : Prop :=
  ∃ a ∈ s.inuse, ident s a = (fs, vno) ∧ ∀ t, s.point t ≠ .deleting a

structure Inv (deletes : ℕ → Bool) (s : State) (log : List Entry) : Prop where
  nodup : s.inuse.Nodup
  once : ∀ a ∈ s.inuse, ∀ b ∈ s.inuse, ident s a = ident s b → a = b
  good : ∀ a, Good s log a
  calls : ∀ fs vno, deletes fs = true → ∃ o, Alternates (callsOf log fs vno) o ∧ (o = true ↔ Live s fs vno)

theorem Inv.init : Inv deletes State.init [] where
  nodup := nodup_nil
  once _ ha := absurd ha not_mem_nil
  good a := .gone not_mem_nil rfl fun t h => h.elim Point.noConfusion Point.noConfusion
  calls fs vno _ := ⟨false, .nil, by
    constructor
    · exact fun h => absurd h (by decide)
    rintro ⟨a, ha, -⟩
    exact absurd ha not_mem_nil⟩

theorem Good.congr {log' : List Entry} (h : Good s log a) (hm : a ∈ s'.inuse ↔ a ∈ s.inuse)
    (hv : (s'.vn a).busy = (s.vn a).busy ∧ (s'.vn a).refcount = (s.vn a).refcount)
    (hw : ∀ t, Works s' t a ↔ Works s t a) (hh : held log' a = held log a) : Good s' log' a := by
  cases h with
  | idle mem busy pos count work =>
    exact .idle (hm.mpr mem) (hv.1.trans busy) (hv.2 ▸ pos) (hv.2.trans (count.trans hh.symm))
      fun t h => work t ((hw t).mp h)
  | busy mem busy count t work =>
    exact .busy (hm.mpr mem) (hv.1.trans busy) (hh.trans count) t fun t' => (hw t').trans (work t')
  | gone mem count work => exact .gone (fun h => mem (hm.mp h)) (hh.trans count) fun t h => work t ((hw t).mp h)

/-- What a busy vnode and a vnode in use are, from the invariant. -/
theorem Good.of_idle (h : Good s log a) (mem : a ∈ s.inuse) (busy : (s.vn a).busy = false) :
    0 < (s.vn a).refcount ∧ (s.vn a).refcount = held log a ∧ ∀ t, ¬Works s t a := by
  cases h with
  | idle _ _ pos count work => exact ⟨pos, count, work⟩
  | busy _ hb => exact absurd (hb.symm.trans busy) (by decide)
  | gone hm => exact absurd mem hm

theorem Good.of_works (h : Good s log a) (hw : Works s t a) : a ∈ s.inuse ∧ (s.vn a).busy = true ∧
    held log a = 0 ∧ ∀ t', Works s t' a ↔ t' = t := by
  cases h with
  | idle _ _ _ _ work | gone _ _ work => exact absurd hw (work t)
  | busy mem busy count u work =>
    obtain rfl := (work t).mp hw
    exact ⟨mem, busy, count, work⟩

theorem Good.of_held (h : Good s log a) (hh : 0 < held log a) : a ∈ s.inuse ∧ (s.vn a).busy = false := by
  cases h with
  | idle mem busy => exact ⟨mem, busy⟩
  | busy _ _ count => omega
  | gone _ count => omega

/-! ### Steps about one vnode -/

section
variable {p q : Point} {u : ℕ}

theorem vn_setVn (v : Vnode) : (s.setVn a v).vn b = if b = a then v else s.vn b := update_apply _ _ _ _

theorem point_setPoint (p : Point) {u : ℕ} : (s.setPoint t p).point u = if u = t then p else s.point u :=
  update_apply _ _ _ _

theorem setPoint_eq_iff (ht : s.point t ≠ q) (hp : p ≠ q) : (s.setPoint t p).point u = q ↔ s.point u = q := by
  rw [point_setPoint]
  split_ifs with hu
  · subst hu
    exact iff_of_false hp ht
  · rfl

/-- No thread but `t` is in a call for the vnode. -/
theorem works_setPoint (hwork : ∀ u ≠ t, ¬Works s u a) :
    Works (s.setPoint t p) u a ↔ u = t ∧ (p = .reading a ∨ p = .deleting a) := by
  unfold Works
  rw [point_setPoint]
  split_ifs with hu
  · simp [hu]
  · exact iff_of_false (hwork u hu) fun h => hu h.1

def Quiet (p : Point) : Prop := ∀ a, p ≠ .reading a ∧ p ≠ .deleting a

theorem quiet_out : Quiet .out := fun _ => ⟨Point.noConfusion, Point.noConfusion⟩

/-- The thread calls nothing for another vnode at this point. -/
def About (a : ℕ) (p : Point) : Prop := ∀ b ≠ a, p ≠ .reading b ∧ p ≠ .deleting b

theorem Quiet.about (hp : Quiet p) : About a p := fun b _ => hp b

theorem about_reading : About a (.reading a) := fun _ hb => ⟨by simpa using hb.symm, Point.noConfusion⟩

theorem about_deleting : About a (.deleting a) := fun _ hb => ⟨Point.noConfusion, by simpa using hb.symm⟩

/-- What a step about the vnode `a` does not touch. -/
structure Spares (a : ℕ) (s s' : State) : Prop where
  mem : ∀ b ≠ a, (b ∈ s'.inuse ↔ b ∈ s.inuse)
  vn : ∀ b ≠ a, s'.vn b = s.vn b
  reading : ∀ b ≠ a, ∀ {u}, s'.point u = .reading b ↔ s.point u = .reading b
  deleting : ∀ b ≠ a, ∀ {u}, s'.point u = .deleting b ↔ s.point u = .deleting b

theorem spares_set {l : List ℕ} (v : Vnode) (hl : ∀ b ≠ a, (b ∈ l ↔ b ∈ s.inuse)) (ht : About a (s.point t))
    (hp : About a p) : Spares a s { (s.setVn a v).setPoint t p with inuse := l } :=
  ⟨hl, fun _ hb => update_of_ne hb _ _, fun b hb => setPoint_eq_iff (ht b hb).1 (hp b hb).1,
    fun b hb => setPoint_eq_iff (ht b hb).2 (hp b hb).2⟩

theorem Spares.ident (hs : Spares a s s') (hb : b ≠ a) : ident s' b = ident s b := by
  unfold VnodeCache.ident
  rw [hs.vn b hb]

end

/-- The vnode is there for the inode, and not on its way out. -/
def LiveAt (s : State) (fs vno a : ℕ) : Prop := a ∈ s.inuse ∧ ident s a = (fs, vno) ∧ ∀ t, s.point t ≠ .deleting a

theorem liveAt_congr (hm : a ∈ s'.inuse ↔ a ∈ s.inuse) (hid : ident s' a = ident s a)
    (hdel : ∀ {u}, s'.point u = .deleting a ↔ s.point u = .deleting a) : LiveAt s' fs vno a ↔ LiveAt s fs vno a := by
  simp only [LiveAt, hm, hid, ne_eq, hdel]

/-- The calls for an inode that a step about the vnode `a` makes. -/
inductive Calls (s s' : State) (a fs vno : ℕ) : List Bool → Prop
  | none (same : LiveAt s' fs vno a ↔ LiveAt s fs vno a) : Calls s s' a fs vno []
  | read (before : ¬Live s fs vno) (after : LiveAt s' fs vno a) : Calls s s' a fs vno [true]
  | delete (before : LiveAt s fs vno a) (after : ¬LiveAt s' fs vno a) : Calls s s' a fs vno [false]

theorem Inv.change (h : Inv deletes s log) (hs : Spares a s s') (hnodup : s'.inuse.Nodup)
    (honce : a ∈ s'.inuse → ∀ b ∈ s.inuse, ident s b = ident s' a → b = a) (hgood : Good s' (log ++ es) a)
    (hheld : ∀ b ≠ a, held es b = 0)
    (hcalls : ∀ fs vno, deletes fs = true → Calls s s' a fs vno (callsOf es fs vno)) : Inv deletes s' (log ++ es) where
  nodup := hnodup
  once b hb c hc he := by
    by_cases hba : b = a
    · subst hba
      by_contra hbc
      have hcb := Ne.symm hbc
      exact hcb (honce hb c ((hs.mem c hcb).1 hc) ((hs.ident hcb).symm.trans he.symm))
    rw [hs.ident hba] at he
    have hb := (hs.mem b hba).1 hb
    by_cases hca : c = a
    · subst hca
      exact honce hc b hb he
    · rw [hs.ident hca] at he
      exact h.once b hb c ((hs.mem c hca).1 hc) he
  good b := by
    by_cases hb : b = a
    · exact hb ▸ hgood
    refine (h.good b).congr (hs.mem b hb) (by simp [hs.vn b hb]) (fun u => or_congr (hs.reading b hb) (hs.deleting b hb)) ?_
    rw [held_append, hheld b hb, add_zero]
  calls fs vno hd := by
    obtain ⟨o, halt, ho⟩ := h.calls fs vno hd
    have hlive : ∀ b ≠ a, (LiveAt s' fs vno b ↔ LiveAt s fs vno b) := fun b hb =>
      liveAt_congr (hs.mem b hb) (hs.ident hb) (hs.deleting b hb)
    have hc := hcalls fs vno hd
    rw [callsOf_append]
    generalize callsOf es fs vno = l at hc
    cases hc with
    | none same =>
      refine ⟨o, by rwa [append_nil], ho.trans (exists_congr fun b => ?_)⟩
      by_cases hb : b = a
      · rw [hb]
        exact same.symm
      · exact (hlive b hb).symm
    | read before after =>
      obtain rfl : o = false := by rwa [← Bool.not_eq_true, ho]
      exact ⟨true, halt.read, fun _ => ⟨a, after⟩, fun _ => rfl⟩
    | delete before after =>
      obtain rfl : o = true := ho.2 ⟨a, before⟩
      refine ⟨false, halt.delete, iff_of_false Bool.false_ne_true ?_⟩
      rintro ⟨b, hb⟩
      by_cases hba : b = a
      · exact after (hba ▸ hb)
      have hb := (hlive b hba).1 hb
      exact hba (h.once b hb.1 a before.1 (hb.2.1.trans before.2.1.symm))

/-- A quiet thread moves to a quiet point, and one vnode changes in its count and queue. -/
theorem Inv.quiet (h : Inv deletes s log) (es : List Entry) (v : Vnode) (p : Point) (hq : Quiet (s.point t)) (hp : Quiet p)
    (hv : v.fs = (s.vn a).fs ∧ v.vno = (s.vn a).vno ∧ v.busy = (s.vn a).busy)
    (hcalls : ∀ fs vno, callsOf es fs vno = []) (hother : ∀ b, b ≠ a → held es b = 0)
    (hcount : v.refcount = (s.vn a).refcount + held es a) (hes : held es a = 0 ∨ a ∈ s.inuse ∧ (s.vn a).busy = false ∧ 0 < v.refcount) :
    Inv deletes ((s.setVn a v).setPoint t p) (log ++ es) := by
  have hvn : ((s.setVn a v).setPoint t p).vn a = v := update_self _ _ _
  have hid : ident ((s.setVn a v).setPoint t p) a = ident s a := by rw [ident, hvn, hv.1, hv.2.1, ident]
  have hworks : ∀ u, Works ((s.setVn a v).setPoint t p) u a ↔ Works s u a := fun u =>
    or_congr (setPoint_eq_iff (hq a).1 (hp a).1) (setPoint_eq_iff (hq a).2 (hp a).2)
  refine h.change (spares_set v (fun _ _ => Iff.rfl) hq.about hp.about) h.nodup
    (fun ha b hb he => h.once b hb a ha (he.trans hid)) ?_ hother fun f w _ => ?_
  · rcases hes with hes | ⟨hmem, hbusy, hpos⟩
    · refine (h.good a).congr Iff.rfl ⟨by rw [hvn, hv.2.2], by rw [hvn, hcount, hes, add_zero]⟩ hworks ?_
      rw [held_append, hes, add_zero]
    obtain ⟨-, hc, hw⟩ := (h.good a).of_idle hmem hbusy
    refine .idle hmem (by rw [hvn, hv.2.2, hbusy]) (by rwa [hvn]) ?_ fun u hu => hw u ((hworks u).1 hu)
    rw [hvn, hcount, hc, held_append]
  · rw [hcalls]
    exact .none (liveAt_congr Iff.rfl hid (setPoint_eq_iff (hq a).2 (hp a).2))

/-! ### A vnode is brought in -/

theorem Inv.read (h : Inv deletes s log) (hq : Quiet (s.point t)) (ha : a ∉ s.inuse)
    (hnone : ∀ b ∈ s.inuse, ident s b ≠ (fs, vno)) :
    Inv deletes ({ s.setVn a ⟨fs, vno, true, 0, []⟩ with inuse := a :: s.inuse }.setPoint t (.reading a))
      (log ++ [.read fs vno]) := by
  set s' := { s.setVn a ⟨fs, vno, true, 0, []⟩ with inuse := a :: s.inuse }.setPoint t (.reading a)
  have hvn : s'.vn a = ⟨fs, vno, true, 0, []⟩ := update_self _ _ _
  have hid : ident s' a = (fs, vno) := by rw [ident, hvn]
  obtain ⟨hcount, hwork⟩ : held log a = 0 ∧ ∀ u, ¬Works s u a := by
    cases h.good a with
    | idle mem | busy mem => exact absurd mem ha
    | gone _ count work => exact ⟨count, work⟩
  refine h.change (spares_set _ (fun b hb => by simp [hb]) hq.about about_reading) (nodup_cons.mpr ⟨ha, h.nodup⟩)
    (fun _ b hb he => absurd (he.trans hid) (hnone b hb))
    (.busy mem_cons_self (by rw [hvn]) ?_ t fun u => ?_) (fun _ _ => by simp [held]) fun f v _ => ?_
  · rw [held_append, hcount]
    simp [held]
  · exact (works_setPoint fun u _ => hwork u).trans (by simp)
  by_cases hfv : fs = f ∧ vno = v
  · obtain ⟨rfl, rfl⟩ := hfv
    rw [show callsOf [.read fs vno] fs vno = [true] by simp [callsOf]]
    refine .read ?_ ⟨mem_cons_self, hid, fun u hu => hwork u (.inr ?_)⟩
    · rintro ⟨b, hb, he, -⟩
      exact hnone b hb he
    · exact (setPoint_eq_iff (hq a).2 Point.noConfusion).1 hu
  · rw [show callsOf [.read fs vno] f v = [] by simp [callsOf, hfv]]
    refine .none (iff_of_false (fun hl => hfv ?_) fun hl => ha hl.1)
    rw [← Prod.mk.injEq, ← hid, hl.2.1]

/-- The thread that brings a vnode in returns it. -/
theorem Inv.handed (h : Inv deletes s log) (ht : s.point t = .reading a) :
    Inv deletes ((s.setVn a { s.vn a with busy := false, refcount := 1 }).setPoint t .out) (log ++ [.handed a]) := by
  obtain ⟨hmem, hbusy, hcount, hwork⟩ := (h.good a).of_works (.inl ht)
  set s' := (s.setVn a { s.vn a with busy := false, refcount := 1 }).setPoint t .out
  have hvn : s'.vn a = { s.vn a with busy := false, refcount := 1 } := update_self _ _ _
  have hid : ident s' a = ident s a := by rw [ident, hvn, ident]
  refine h.change (spares_set _ (fun _ _ => Iff.rfl) (ht ▸ about_reading) quiet_out.about) h.nodup
    (fun _ b hb he => h.once b hb a hmem (he.trans hid))
    (.idle hmem (by rw [hvn]) (by rw [hvn]; exact one_pos) ?_ fun u hu => ?_) (fun b hb => by rw [held_handed, if_neg hb])
    fun f v _ => .none (liveAt_congr Iff.rfl hid (setPoint_eq_iff (ht ▸ Point.noConfusion) Point.noConfusion))
  · rw [hvn, held_append, hcount, held_handed, if_pos rfl]
    rfl
  · simpa using ((works_setPoint fun u hu hw => hu ((hwork u).1 hw)).1 hu).2

/-! ### A vnode is taken away -/

theorem Inv.delete (h : Inv deletes s log) (hq : s.point t = .out) (ha : a ∈ s.inuse) (hb : (s.vn a).busy = false)
    (hone : (s.vn a).refcount = 1) :
    Inv deletes ((s.setVn a { s.vn a with refcount := (s.vn a).refcount - 1, busy := true }).setPoint t (.deleting a))
      (log ++ [.put a, .delete (s.vn a).fs (s.vn a).vno]) := by
  obtain ⟨-, hcount, hwork⟩ := (h.good a).of_idle ha hb
  set s' := (s.setVn a { s.vn a with refcount := (s.vn a).refcount - 1, busy := true }).setPoint t (.deleting a)
  have hvn : s'.vn a = { s.vn a with refcount := (s.vn a).refcount - 1, busy := true } := update_self _ _ _
  have hid : ident s' a = ident s a := by rw [ident, hvn, ident]
  have hheld : ∀ b, held [.put a, .delete (s.vn a).fs (s.vn a).vno] b = held [.put a] b := fun b => by
    simp [held, count_cons]
  refine h.change (spares_set _ (fun _ _ => Iff.rfl) (hq ▸ quiet_out.about) about_deleting) h.nodup
    (fun _ b hb he => h.once b hb a ha (he.trans hid)) (.busy ha (by rw [hvn]) ?_ t fun u => ?_)
    (fun b hb => by rw [hheld, held_put, if_neg hb]) fun f v _ => ?_
  · rw [held_append, hheld, held_put, if_pos rfl, ← hcount, hone]
    rfl
  · exact (works_setPoint fun u _ => hwork u).trans (by simp)
  by_cases hfv : (s.vn a).fs = f ∧ (s.vn a).vno = v
  · obtain ⟨rfl, rfl⟩ := hfv
    rw [show callsOf [.put a, .delete (s.vn a).fs (s.vn a).vno] (s.vn a).fs (s.vn a).vno = [false] by simp [callsOf]]
    exact .delete ⟨ha, rfl, fun u hu => hwork u (.inr hu)⟩ fun hl => hl.2.2 t (update_self _ _ _)
  · rw [show callsOf [.put a, .delete (s.vn a).fs (s.vn a).vno] f v = [] by simp [callsOf, hfv]]
    have hne : ident s a ≠ (f, v) := fun he => hfv (Prod.mk.inj he)
    exact .none (iff_of_false (fun hl => hne (hid.symm.trans hl.2.1)) fun hl => hne hl.2.1)

theorem vputDeleted_out (s : State) (t a : ℕ) : (vputDeleted s t a).point t = .out := update_self _ _ _

theorem vputDeleted_vn (hb : b ≠ a) : (vputDeleted s t a).vn b = s.vn b := update_of_ne hb _ _

/-- A thread that is woken was in no call. -/
theorem vputDeleted_eq_iff {p : Point} {u : ℕ} (hp : ∀ q : Point, q.woken = p ↔ q = p) (hu : u ≠ t) :
    (vputDeleted s t a).point u = p ↔ s.point u = p := by
  have hpoint : (vputDeleted s t a).point u = if u ∈ (s.vn a).waitq then (s.point u).woken else s.point u :=
    update_of_ne hu _ _
  rw [hpoint]
  split_ifs
  · exact hp _
  · rfl

theorem woken_reading (q : Point) : q.woken = .reading a ↔ q = .reading a := by cases q <;> simp [Point.woken]

theorem woken_deleting (q : Point) : q.woken = .deleting a ↔ q = .deleting a := by cases q <;> simp [Point.woken]

/-- A vnode that no other thread works on leaves the list, and the sleeping threads are woken. -/
theorem Inv.removed (h : Inv deletes s log) (v : Vnode)
    (ht : s.point t = .deleting a ∨ s.point t = .out ∧ deletes (s.vn a).fs = false)
    (hwork : ∀ u, u ≠ t → ¬Works s u a) (hheld : held (log ++ es) a = 0)
    (hother : ∀ b, b ≠ a → held es b = 0) (hcalls : ∀ f v, callsOf es f v = []) :
    Inv deletes (vputDeleted (s.setVn a v) t a) (log ++ es) := by
  have hout := vputDeleted_out (s.setVn a v) t a
  have hpoint : ∀ {p u}, (∀ q : Point, q.woken = p ↔ q = p) → p ≠ .out → s.point t ≠ p →
      ((vputDeleted (s.setVn a v) t a).point u = p ↔ s.point u = p) := by
    intro p u hp hne htp
    by_cases hu : u = t
    · subst hu
      exact iff_of_false (hout ▸ hne.symm) htp
    · exact vputDeleted_eq_iff hp hu
  have habout : About a (s.point t) := by
    rcases ht with ht | ⟨ht, -⟩
    · exact ht ▸ about_deleting
    · exact ht ▸ quiet_out.about
  have hgone : a ∉ (vputDeleted (s.setVn a v) t a).inuse := fun hm => (h.nodup.mem_erase_iff.1 hm).1 rfl
  refine h.change ⟨fun b hb => mem_erase_of_ne hb, fun b hb => ?_,
    fun b hb => hpoint woken_reading Point.noConfusion (habout b hb).1,
    fun b hb => hpoint woken_deleting Point.noConfusion (habout b hb).2⟩ (h.nodup.erase a) (fun hm => absurd hm hgone)
    (.gone hgone hheld fun u hu => ?_) hother fun f w hd => ?_
  · rw [vputDeleted_vn hb, vn_setVn, if_neg hb]
  · by_cases hut : u = t
    · subst hut
      rw [Works, hout] at hu
      simp at hu
    · refine hwork u hut (hu.imp (vputDeleted_eq_iff (s := s.setVn a v) woken_reading hut).1 ?_)
      exact (vputDeleted_eq_iff (s := s.setVn a v) woken_deleting hut).1
  · rw [hcalls]
    refine .none (iff_of_false (fun hl => hgone hl.1) fun hl => ?_)
    rcases ht with ht | ⟨-, hno⟩
    · exact hl.2.2 t ht
    rw [(Prod.mk.inj hl.2.1).1, hd] at hno
    cases hno

/-! ### Every interleaving -/

/-- What the callers keep to: `slab_obj_alloc` gives memory that is not in use, and only a
reference that is held is copied or put. -/
def Allowed (s : State) (log : List Entry) : Event → Prop
  | .vget _ _ _ alloc => ∀ a, alloc = some a → a ∉ s.inuse
  | .vref _ a => 0 < held log a
  | .vput _ a => 0 < held log a
  | .resume _ alloc => ∀ a, alloc = some a → a ∉ s.inuse

/-- A call hands out one reference at most, and then does nothing else that is seen. -/
def OneHanded (es : List Entry) : Prop := ∀ a, .handed a ∈ es → es = [.handed a]

theorem setPoint_self (s : State) (t a : ℕ) (v : Vnode) : (s.setVn a v).setPoint t (s.point t) = s.setVn a v := by
  rw [State.setPoint, State.setVn, update_eq_self]

theorem quiet_find : Quiet (.find fs vno) := fun _ => ⟨Point.noConfusion, Point.noConfusion⟩

theorem quiet_asleep : Quiet (.asleep a fs vno) := fun _ => ⟨Point.noConfusion, Point.noConfusion⟩

section
variable (h : Inv deletes s log)
include h

theorem Inv.vgetFind (hq : Quiet (s.point t)) {alloc : Option ℕ} (halloc : ∀ a, alloc = some a → a ∉ s.inuse) :
    ∃ s' es, VnodeCache.vgetFind s t fs vno alloc = .ok (s', es) ∧ Inv deletes s' (log ++ es) ∧ OneHanded es := by
  unfold VnodeCache.vgetFind
  cases hfind : s.inuse.find? fun a => (s.vn a).fs = fs ∧ (s.vn a).vno = vno with
  | some a =>
    have hmem : a ∈ s.inuse := mem_of_find?_eq_some hfind
    cases hb : (s.vn a).busy with
    | true =>
      exact ⟨_, [], if_pos hb, h.quiet [] _ _ hq quiet_asleep ⟨rfl, rfl, rfl⟩ (fun _ _ => rfl) (fun _ _ => rfl)
        (add_zero _).symm (.inl rfl), by simp [OneHanded]⟩
    | false =>
      obtain ⟨hpos, -, -⟩ := (h.good a).of_idle hmem hb
      have hvref : vref s a = .ok (s.setVn a { s.vn a with refcount := (s.vn a).refcount + 1 }) := if_pos hpos
      refine ⟨_, [.handed a], ?_, h.quiet [.handed a] { s.vn a with refcount := (s.vn a).refcount + 1 } .out hq quiet_out
        ⟨rfl, rfl, rfl⟩ (fun _ _ => rfl) ?_ ?_ (.inr ⟨hmem, hb, ?_⟩), by simp [OneHanded]⟩
      · simp only [hb, Bool.false_eq_true, if_false, hvref]
        rfl
      · intro b hne
        rw [held_handed, if_neg hne]
      · rw [held_handed, if_pos rfl]
      · change 0 < (s.vn a).refcount + 1
        omega
  | none =>
    cases alloc with
    | none =>
      refine ⟨s.setPoint t (.find fs vno), [], rfl, ?_, by simp [OneHanded]⟩
      have hquiet := h.quiet [] (s.vn 0) (.find fs vno) hq quiet_find ⟨rfl, rfl, rfl⟩ (fun _ _ => rfl)
        (fun _ _ => rfl) (add_zero _).symm (.inl rfl)
      rwa [State.setVn, update_eq_self] at hquiet
    | some a =>
      refine ⟨_, [.read fs vno], rfl, h.read hq (halloc a rfl) ?_, by simp [OneHanded]⟩
      intro b hb he
      have hno := List.find?_eq_none.mp hfind b hb
      rw [ident, Prod.mk.injEq] at he
      simp [he.1, he.2] at hno

theorem Inv.vput (ht : s.point t = .out) (hheld : 0 < held log a) :
    ∃ s' es, VnodeCache.vput deletes s t a = .ok (s', es) ∧ Inv deletes s' (log ++ es) ∧ OneHanded es := by
  obtain ⟨hmem, hb⟩ := (h.good a).of_held hheld
  obtain ⟨hpos, hcount, hwork⟩ := (h.good a).of_idle hmem hb
  have hother : ∀ b, b ≠ a → held [.put a] b = 0 := fun b hne => by rw [held_put, if_neg hne]
  unfold VnodeCache.vput
  rw [if_neg (by simp [hb, hpos])]
  by_cases hmore : 0 < (s.vn a).refcount - 1
  · rw [if_pos hmore]
    refine ⟨_, [.put a], rfl, ?_, by simp [OneHanded]⟩
    have hquiet := h.quiet [.put a] { s.vn a with refcount := (s.vn a).refcount - 1 } (s.point t) (ht ▸ quiet_out)
      (ht ▸ quiet_out) ⟨rfl, rfl, rfl⟩ (fun _ _ => rfl) hother (by rw [held_put, if_pos rfl]; rfl)
      (.inr ⟨hmem, hb, hmore⟩)
    rwa [setPoint_self] at hquiet
  rw [if_neg hmore]
  have hone : (s.vn a).refcount = 1 := by omega
  cases hd : deletes (s.vn a).fs with
  | true => exact ⟨_, _, if_pos rfl, h.delete ht hmem hb hone, by simp [OneHanded]⟩
  | false =>
    refine ⟨_, [.put a], if_neg Bool.false_ne_true, ?_, by simp [OneHanded]⟩
    refine h.removed _ (.inr ⟨ht, hd⟩) (fun u _ => hwork u) ?_ hother fun _ _ => rfl
    rw [held_append, held_put, if_pos rfl, ← hcount, hone]
    rfl

theorem Inv.vref (ht : s.point t = .out) (hheld : 0 < held log a) :
    ∃ s', VnodeCache.vref s a = .ok s' ∧ Inv deletes s' (log ++ [.handed a]) := by
  obtain ⟨hmem, hb⟩ := (h.good a).of_held hheld
  obtain ⟨hpos, -, -⟩ := (h.good a).of_idle hmem hb
  refine ⟨_, if_pos hpos, ?_⟩
  have hquiet := h.quiet [.handed a] { s.vn a with refcount := (s.vn a).refcount + 1 } (s.point t) (ht ▸ quiet_out)
    (ht ▸ quiet_out) ⟨rfl, rfl, rfl⟩ (fun _ _ => rfl) (fun b hne => by rw [held_handed, if_neg hne])
    (by rw [held_handed, if_pos rfl]) (.inr ⟨hmem, hb, by change 0 < (s.vn a).refcount + 1; omega⟩)
  rwa [setPoint_self] at hquiet

theorem Inv.vputDeleted (ht : s.point t = .deleting a) :
    Inv deletes (VnodeCache.vputDeleted s t a) (log ++ []) := by
  obtain ⟨hmem, -, hcount, hwork⟩ := (h.good a).of_works (.inr ht)
  have hinv := h.removed (s.vn a) (.inl ht) (fun u hu hw => hu ((hwork u).mp hw))
    (by rw [append_nil, hcount]) (fun _ _ => rfl) fun _ _ => rfl
  rwa [State.setVn, update_eq_self] at hinv

theorem Inv.resume {alloc : Option ℕ} (halloc : ∀ a, alloc = some a → a ∉ s.inuse) :
    VnodeCache.resume s t alloc = .error .elsewhere ∨
      ∃ s' es, VnodeCache.resume s t alloc = .ok (s', es) ∧ Inv deletes s' (log ++ es) ∧ OneHanded es := by
  unfold VnodeCache.resume
  cases ht : s.point t with
  | out | asleep a fs vno => exact .inl rfl
  | find fs vno => exact .inr (h.vgetFind (ht ▸ quiet_find) halloc)
  | reading a => exact .inr ⟨_, _, rfl, h.handed ht, by simp [OneHanded]⟩
  | deleting a => exact .inr ⟨_, _, rfl, h.vputDeleted ht, by simp [OneHanded]⟩

/-- No call fails, and the invariant is kept. -/
theorem Inv.exec {e : Event} (he : Allowed s log e) : VnodeCache.exec deletes s e = .error .elsewhere ∨
      ∃ s' es, VnodeCache.exec deletes s e = .ok (s', es) ∧ Inv deletes s' (log ++ es) ∧ OneHanded es := by
  cases e with
  | vget t fs vno alloc =>
    by_cases ht : s.point t = .out
    · obtain ⟨s', es, hs', hinv⟩ := h.vgetFind (ht ▸ quiet_out) he
      exact .inr ⟨s', es, (if_pos ht).trans hs', hinv⟩
    · exact .inl (if_neg ht)
  | vref t a =>
    by_cases ht : s.point t = .out
    · obtain ⟨s', hs', hinv⟩ := h.vref ht he
      refine .inr ⟨s', [.handed a], (if_pos ht).trans ?_, hinv, by simp [OneHanded]⟩
      rw [hs']
      rfl
    · exact .inl (if_neg ht)
  | vput t a =>
    by_cases ht : s.point t = .out
    · obtain ⟨s', es, hs', hinv⟩ := h.vput ht he
      exact .inr ⟨s', es, (if_pos ht).trans hs', hinv⟩
    · exact .inl (if_neg ht)
  | resume t alloc => exact h.resume he

end

/-- The cache with all that was handed out, put and called. -/
structure Sys where
  s : State
  log : List Entry

def Sys.step (deletes : ℕ → Bool) (x : Sys) (e : Event) (y : Sys) : Prop :=
  Allowed x.s x.log e ∧ ∃ es, exec deletes x.s e = .ok (y.s, es) ∧ y.log = x.log ++ es

theorem Inv.step {x y : Sys} {e : Event} (h : Inv deletes x.s x.log) (hs : x.step deletes e y) :
    Inv deletes y.s y.log := by
  obtain ⟨he, es, hexec, hlog⟩ := hs
  rcases h.exec he with hno | ⟨s', es', hs', hinv, -⟩
  · rw [hno] at hexec
    cases hexec
  obtain ⟨rfl, rfl⟩ := Prod.mk.inj (Except.ok.inj (hs'.symm.trans hexec))
  rw [hlog]
  exact hinv

theorem Good.held_nonneg (h : Good s log a) : 0 ≤ held log a := by
  cases h with
  | idle _ _ pos count => omega
  | busy _ _ count => omega
  | gone _ count => omega

/-- A vnode that is handed out is neither busy nor on its way out. -/
theorem Inv.handed_good (h : Inv deletes s log) {e : Event} (he : Allowed s log e)
    (hexec : VnodeCache.exec deletes s e = .ok (s', es)) (ha : .handed a ∈ es) :
    a ∈ s'.inuse ∧ (s'.vn a).busy = false ∧ ∀ t, s'.point t ≠ .deleting a := by
  rcases h.exec he with hno | ⟨s'', es', hs', hinv, hone⟩
  · rw [hno] at hexec
    cases hexec
  obtain ⟨rfl, rfl⟩ := Prod.mk.inj (Except.ok.inj (hs'.symm.trans hexec))
  have hheld : 0 < held (log ++ es') a := by
    have := (h.good a).held_nonneg
    rw [hone a ha, held_append, held_handed, if_pos rfl]
    omega
  obtain ⟨hmem, hbusy⟩ := (hinv.good a).of_held hheld
  obtain ⟨-, -, hwork⟩ := (hinv.good a).of_idle hmem hbusy
  exact ⟨hmem, hbusy, fun t ht => hwork t (.inr ht)⟩

/-- The vnode cache at every point of every interleaving. -/
theorem vnode_cache_kept {evs : List Event} {y : Sys} (hrun : Runs.Run (Sys.step deletes) ⟨State.init, []⟩ evs y) :
    y.s.inuse.Nodup ∧
      (∀ a ∈ y.s.inuse, ∀ b ∈ y.s.inuse, ident y.s a = ident y.s b → a = b) ∧
      (∀ a ∈ y.s.inuse, (y.s.vn a).busy = false → (y.s.vn a).refcount = held y.log a) ∧
      (∀ fs vno, deletes fs = true → ∃ o, Alternates (callsOf y.log fs vno) o) ∧
      ∀ e, Allowed y.s y.log e → exec deletes y.s e ≠ .error .kassert ∧
        ∀ s' es, exec deletes y.s e = .ok (s', es) → ∀ a, .handed a ∈ es →
          a ∈ s'.inuse ∧ (s'.vn a).busy = false ∧ ∀ t, s'.point t ≠ .deleting a := by
  have h : Inv deletes y.s y.log :=
    Runs.Run.invariant (I := fun y : Sys => Inv deletes y.s y.log) Inv.init (fun _ _ _ hx hs => hx.step hs) hrun
  refine ⟨h.nodup, h.once, ?_, ?_, ?_⟩
  · intro a ha hb
    exact ((h.good a).of_idle ha hb).2.1
  · intro fs vno hd
    obtain ⟨o, halt, -⟩ := h.calls fs vno hd
    exact ⟨o, halt⟩
  intro e he
  constructor
  · intro hno
    rcases h.exec he with hx | ⟨s', es, hx, -⟩
    · rw [hno] at hx
      cases hx
    · rw [hno] at hx
      cases hx
  · intro s' es hexec a ha
    exact h.handed_good he hexec ha

/-- A thread brings in inode 5 and another one finds it busy. -/
theorem vnode_cache_kept_busy : ∃ y, Runs.Run (Sys.step fun _ => true) ⟨State.init, []⟩
    [.vget 0 0 5 (some 100), .vget 1 0 5 none] y ∧ y.s.point 1 = .asleep 100 0 5 ∧ y.s.inuse.Nodup := by
  obtain ⟨x, hx⟩ : ∃ x, Sys.step (fun _ => true) ⟨State.init, []⟩ (.vget 0 0 5 (some 100)) x ∧
      ∃ y, Sys.step (fun _ => true) x (.vget 1 0 5 none) y ∧ y.s.point 1 = .asleep 100 0 5 :=
    ⟨⟨_, _⟩, ⟨fun _ _ => not_mem_nil, _, rfl, rfl⟩, ⟨_, _⟩, ⟨fun _ ha => absurd ha (by simp), _, rfl, rfl⟩, rfl⟩
  obtain ⟨h1, y, h2, hpoint⟩ := hx
  have hrun := Runs.Run.snoc (Runs.Run.snoc .nil h1) h2
  exact ⟨y, hrun, hpoint, (vnode_cache_kept hrun).1⟩

end Weenix.VnodeCache
