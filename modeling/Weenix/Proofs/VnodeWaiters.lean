import Weenix.Proofs.Vnode

/-! The threads that sleep on the queue of a vnode. `vget` does not wake them when it has brought the
vnode in. -/

namespace Weenix.VnodeCache

open List
open Runs (Run)

variable {deletes : ℕ → Bool} {s s' : State} {log es : List Entry} {t a b fs vno : ℕ} {x y : Sys} {evs : List Event}

def Asleep (s : State) (t a : ℕ) : Prop := ∃ fs vno, s.point t = .asleep a fs vno

/-- Whoever sleeps on the queue of a vnode sleeps while it is busy. -/
def NoneStranded (s : State) : Prop := ∀ t a, Asleep s t a → a ∈ s.inuse ∧ (s.vn a).busy = true

/-- What a step of the thread `t` does to the vnodes and the queues. -/
inductive Move (s : State) (t : ℕ) : State → Prop
  | sleep (a fs vno : ℕ) (mem : a ∈ s.inuse) (busy : (s.vn a).busy = true) : Move s t (schedSleepOn s t a fs vno)
  | set (a : ℕ) (v : Vnode) (p : Point) (waitq : v.waitq = (s.vn a).waitq) (busy : (s.vn a).busy = true → v.busy = true)
      (awake : ∀ a fs vno, p ≠ .asleep a fs vno) : Move s t ((s.setVn a v).setPoint t p)
  | read (a : ℕ) (v : Vnode) (new : a ∉ s.inuse) (waitq : v.waitq = []) :
      Move s t ({ s.setVn a v with inuse := a :: s.inuse }.setPoint t (.reading a))
  | came (a : ℕ) (reading : s.point t = .reading a) : Move s t (vgetRead s t a).1
  | left (a : ℕ) (v : Vnode) (waitq : v.waitq = (s.vn a).waitq) : Move s t (vputDeleted (s.setVn a v) t a)

theorem vgetFind_move {alloc : Option ℕ} (halloc : ∀ a, alloc = some a → a ∉ s.inuse)
    (h : vgetFind s t fs vno alloc = .ok (s', es)) : Move s t s' := by
  unfold vgetFind at h
  cases hfind : s.inuse.find? fun a => (s.vn a).fs = fs ∧ (s.vn a).vno = vno with
  | some a =>
    simp only [hfind] at h
    cases hb : (s.vn a).busy with
    | true =>
      rw [if_pos hb] at h
      cases h
      exact .sleep a fs vno (mem_of_find?_eq_some hfind) hb
    | false =>
      rw [if_neg (by simp [hb])] at h
      unfold vref at h
      split_ifs at h
      · cases h
        exact .set a _ _ rfl id nofun
      · cases h
  | none =>
    simp only [hfind] at h
    cases alloc with
    | none =>
      cases h
      have hset := Move.set (s := s) (t := t) 0 (s.vn 0) (.find fs vno) rfl id nofun
      rwa [State.setVn, Function.update_eq_self] at hset
    | some a =>
      cases h
      exact .read a _ (halloc a rfl) rfl

theorem vput_move (ht : s.point t = .out) (h : vput deletes s t a = .ok (s', es)) : Move s t s' := by
  unfold vput at h
  simp only at h
  split_ifs at h
  · cases h
    have hset := Move.set (s := s) (t := t) a { s.vn a with refcount := (s.vn a).refcount - 1 } .out rfl id fun _ _ _ => Point.noConfusion
    rwa [← ht, setPoint_self] at hset
  · cases h
    exact .set a _ _ rfl (fun _ => rfl) nofun
  · cases h
    exact .left a _ rfl

def Event.thread : Event → ℕ
  | .vget t _ _ _ => t
  | .vref t _ => t
  | .vput t _ => t
  | .resume t _ => t

theorem not_asleep {p : Point} (ht : s.point t = p) (hp : ∀ {a fs vno}, p ≠ .asleep a fs vno) (a : ℕ) :
    ¬ Asleep s t a := by
  rintro ⟨fs, vno, h⟩
  exact hp (ht.symm.trans h)

theorem exec_move {e : Event} (he : Allowed s log e) (h : exec deletes s e = .ok (s', es)) :
    Move s e.thread s' ∧ ∀ a, ¬ Asleep s e.thread a := by
  cases e with
  | vget t fs vno alloc =>
    rw [exec] at h
    split_ifs at h with ht
    exact ⟨vgetFind_move he h, not_asleep ht Point.noConfusion⟩
  | vref t a =>
    rw [exec] at h
    split_ifs at h with ht
    refine ⟨?_, not_asleep ht Point.noConfusion⟩
    unfold vref at h
    split_ifs at h
    · cases h
      have hset := Move.set (s := s) (t := t) a { s.vn a with refcount := (s.vn a).refcount + 1 } .out rfl id fun _ _ _ => Point.noConfusion
      rwa [← ht, setPoint_self] at hset
    · cases h
  | vput t a =>
    rw [exec] at h
    split_ifs at h with ht
    exact ⟨vput_move ht h, not_asleep ht Point.noConfusion⟩
  | resume t alloc =>
    rw [exec, resume] at h
    cases ht : s.point t with
    | out | asleep a fs vno => simp only [ht] at h; cases h
    | find fs vno =>
      simp only [ht] at h
      exact ⟨vgetFind_move he h, not_asleep ht Point.noConfusion⟩
    | reading a =>
      simp only [ht] at h
      cases h
      exact ⟨.came a ht, not_asleep ht Point.noConfusion⟩
    | deleting a =>
      simp only [ht] at h
      cases h
      have hleft := Move.left (s := s) (t := t) a (s.vn a) rfl
      rw [State.setVn, Function.update_eq_self] at hleft
      exact ⟨hleft, not_asleep ht Point.noConfusion⟩

/-! ### The queues -/

structure Waits (s : State) : Prop where
  queue : ∀ t a, t ∈ (s.vn a).waitq ↔ Asleep s t a
  free : ∀ a, a ∉ s.inuse → (s.vn a).waitq = []

theorem asleep_setPoint {p : Point} {u : ℕ} :
    Asleep (s.setPoint t p) u b ↔ if u = t then ∃ fs vno, p = .asleep b fs vno else Asleep s u b := by
  unfold Asleep
  rw [point_setPoint]
  split_ifs <;> rfl

theorem asleep_awake {p : Point} {u : ℕ} (ht : ¬ Asleep s t b) (hp : ∀ a fs vno, p ≠ .asleep a fs vno) :
    Asleep (s.setPoint t p) u b ↔ Asleep s u b := by
  rw [asleep_setPoint]
  split_ifs with hu
  · subst hu
    exact iff_of_false (fun ⟨fs, vno, h⟩ => hp b fs vno h) ht
  · rfl

theorem waitq_setVn {v : Vnode} (hv : v.waitq = (s.vn a).waitq) : ((s.setVn a v).vn b).waitq = (s.vn b).waitq := by
  rw [vn_setVn]
  split_ifs with hb
  · rw [hb, hv]
  · rfl

/-- All who sleep on the queue are woken. -/
theorem asleep_vputDeleted (h : Waits s) (ht : ∀ b, ¬ Asleep s t b) {v : Vnode} (hv : v.waitq = (s.vn a).waitq) {u : ℕ} :
    Asleep (vputDeleted (s.setVn a v) t a) u b ↔ Asleep s u b ∧ b ≠ a := by
  have hq : ((s.setVn a v).vn a).waitq = (s.vn a).waitq := waitq_setVn hv
  by_cases hu : u = t
  · subst hu
    refine iff_of_false ?_ fun h' => ht b h'.1
    rintro ⟨fs, vno, hp⟩
    rw [vputDeleted_out] at hp
    cases hp
  have hpoint : (vputDeleted (s.setVn a v) t a).point u = if u ∈ (s.vn a).waitq then (s.point u).woken else s.point u := by
    rw [← hq]
    exact Function.update_of_ne hu _ _
  unfold Asleep
  rw [hpoint]
  by_cases hua : u ∈ (s.vn a).waitq
  · obtain ⟨fs, vno, hp⟩ := (h.queue u a).1 hua
    rw [if_pos hua, hp]
    refine iff_of_false (fun ⟨_, _, hw⟩ => nomatch hw) ?_
    rintro ⟨⟨fs', vno', hb⟩, hne⟩
    cases hb
    exact hne rfl
  · rw [if_neg hua]
    refine ⟨fun hb => ⟨hb, ?_⟩, And.left⟩
    rintro rfl
    exact hua ((h.queue u b).2 hb)

theorem Waits.set (h : Waits s) (ht : ∀ a, ¬ Asleep s t a) {v : Vnode} {p : Point} (hv : v.waitq = (s.vn a).waitq)
    (hp : ∀ a fs vno, p ≠ .asleep a fs vno) : Waits ((s.setVn a v).setPoint t p) := by
  refine ⟨fun u b => ?_, fun b hb => ?_⟩
  · rw [asleep_awake (s := s.setVn a v) (ht b) hp]
    exact waitq_setVn hv ▸ h.queue u b
  · exact (waitq_setVn hv).trans (h.free b hb)

theorem Waits.move (h : Waits s) (ht : ∀ a, ¬ Asleep s t a) (hm : Move s t s') : Waits s' := by
  cases hm with
  | sleep a fs vno mem busy =>
    have hvn : ∀ b, ((schedSleepOn s t a fs vno).vn b).waitq = if b = a then t :: (s.vn a).waitq else (s.vn b).waitq := by
      intro b
      unfold schedSleepOn
      rw [State.setPoint, vn_setVn]
      split_ifs <;> rfl
    refine ⟨fun u b => ?_, fun b hb => ?_⟩
    · have hqueue : u ∈ (s.vn b).waitq ↔ Asleep (s.setVn a { s.vn a with waitq := t :: (s.vn a).waitq }) u b := h.queue u b
      rw [hvn, schedSleepOn, asleep_setPoint]
      by_cases hba : b = a
      · subst hba
        rw [if_pos rfl, mem_cons, hqueue]
        split_ifs with hu
        · exact iff_of_true (.inl hu) ⟨fs, vno, rfl⟩
        · rw [or_iff_right hu]
      rw [if_neg hba, hqueue]
      split_ifs with hu
      · subst hu
        refine iff_of_false (ht b) ?_
        rintro ⟨_, _, heq⟩
        cases heq
        exact hba rfl
      · rfl
    · rw [hvn, if_neg (ne_of_mem_of_not_mem mem hb).symm]
      exact h.free b hb
  | set a v p waitq busy awake => exact h.set ht waitq awake
  | came a reading => exact h.set ht rfl fun _ _ _ => Point.noConfusion
  | read a v new waitq =>
    have hset := h.set (t := t) (a := a) (v := v) (p := .reading a) ht (waitq.trans (h.free a new).symm)
      fun _ _ _ => Point.noConfusion
    exact ⟨hset.queue, fun b hb => hset.free b fun hmem => hb (mem_cons_of_mem a hmem)⟩
  | left a v waitq =>
    have hvn : ∀ b, ((vputDeleted (s.setVn a v) t a).vn b).waitq = if b = a then [] else (s.vn b).waitq := by
      intro b
      split_ifs with hb
      · subst hb
        simp [vputDeleted, schedBroadcastOn, State.setPoint, State.setVn]
      · rw [vputDeleted_vn hb, waitq_setVn waitq]
    refine ⟨fun u b => ?_, fun b hb => ?_⟩
    · rw [hvn, asleep_vputDeleted h ht waitq]
      split_ifs with hba
      · simp [hba]
      · rw [h.queue, and_iff_left hba]
    rw [hvn]
    split_ifs with hba
    · rfl
    · exact h.free b fun hmem => hb ((mem_erase_of_ne hba).2 hmem)

/-! ### Who is stranded -/

/-- If the step brings a vnode in, no one waits for it. -/
def Clears (s : State) (e : Event) : Prop := ∀ a, s.point e.thread = .reading a → (s.vn a).waitq = []

theorem exec_reading {e : Event} (hp : s.point e.thread = .reading a) (h : exec deletes s e = .ok (s', es)) :
    s' = (vgetRead s e.thread a).1 := by
  have hout : s.point e.thread ≠ .out := by rw [hp]; nofun
  cases e with
  | vget t fs vno alloc | vref t a | vput t a =>
    simp only [Event.thread] at hout
    rw [exec, if_neg hout] at h
    cases h
  | resume t alloc =>
    rw [exec, resume] at h
    simp only [Event.thread] at hp
    simp only [hp] at h
    cases h
    rfl

theorem NoneStranded.move (h : NoneStranded s) (hw : Waits s) (ht : ∀ a, ¬ Asleep s t a) (hm : Move s t s')
    (hc : ∀ a, s.point t = .reading a → (s.vn a).waitq = []) : NoneStranded s' := by
  intro u b hu
  cases hm with
  | sleep a fs vno mem busy =>
    have hbusy : ((schedSleepOn s t a fs vno).vn b).busy = (s.vn b).busy := by
      unfold schedSleepOn
      rw [State.setPoint, vn_setVn]
      split_ifs with hb
      · rw [hb]
      · rfl
    rw [hbusy]
    rw [schedSleepOn, asleep_setPoint] at hu
    split_ifs at hu
    · obtain ⟨_, _, heq⟩ := hu
      cases heq
      exact ⟨mem, busy⟩
    · exact h u b hu
  | set a v p waitq busy awake =>
    obtain ⟨hmem, hb⟩ := h u b ((asleep_awake (s := s.setVn a v) (ht b) awake).1 hu)
    refine ⟨hmem, ?_⟩
    rw [State.setPoint, vn_setVn]
    split_ifs with hba
    · exact busy (hba ▸ hb)
    · exact hb
  | read a v new waitq =>
    obtain ⟨hmem, hb⟩ := h u b ((asleep_awake (s := s.setVn a v) (p := .reading a) (ht b) fun _ _ _ => Point.noConfusion).1 hu)
    refine ⟨mem_cons_of_mem a hmem, ?_⟩
    rw [State.setPoint, vn_setVn, if_neg (ne_of_mem_of_not_mem hmem new)]
    exact hb
  | came a reading =>
    have hu := (asleep_awake (s := s.setVn a { s.vn a with busy := false, refcount := 1 }) (p := .out) (ht b)
      fun _ _ _ => Point.noConfusion).1 hu
    have hba : b ≠ a := by
      rintro rfl
      have := (hw.queue u b).2 hu
      rw [hc b reading] at this
      cases this
    obtain ⟨hmem, hb⟩ := h u b hu
    refine ⟨hmem, ?_⟩
    rw [vgetRead, State.setPoint, vn_setVn, if_neg hba]
    exact hb
  | left a v waitq =>
    obtain ⟨hu, hba⟩ := (asleep_vputDeleted hw ht waitq).1 hu
    obtain ⟨hmem, hb⟩ := h u b hu
    refine ⟨(mem_erase_of_ne hba).2 hmem, ?_⟩
    rw [vputDeleted_vn hba, vn_setVn, if_neg hba]
    exact hb

/-- Whoever waits for a vnode that is brought in is stranded. -/
theorem clears_of_noneStranded {e : Event} (hw : Waits s) (h : exec deletes s e = .ok (s', es)) (hs : NoneStranded s') :
    Clears s e := by
  intro a hp
  obtain rfl := exec_reading hp h
  refine eq_nil_iff_forall_not_mem.2 fun u hu => ?_
  have hu := (hw.queue u a).1 hu
  have hne : u ≠ e.thread := by
    rintro rfl
    obtain ⟨_, _, hu⟩ := hu
    rw [hp] at hu
    cases hu
  have hu' : Asleep (vgetRead s e.thread a).1 u a := by
    rw [vgetRead, asleep_setPoint, if_neg hne]
    exact hu
  have hbusy := (hs u a hu').2
  rw [vgetRead, State.setPoint, vn_setVn, if_pos rfl] at hbusy
  cases hbusy

theorem waits_init : Waits State.init := ⟨fun _ _ => iff_of_false not_mem_nil nofun, fun _ _ => rfl⟩

theorem waits_step {e : Event} (h : Waits x.s) (hs : x.step deletes e y) : Waits y.s := by
  obtain ⟨he, es, hexec, -⟩ := hs
  obtain ⟨hm, ht⟩ := exec_move he hexec
  exact h.move ht hm

/-- No one is stranded along a run if and only if each vnode is brought in while no one waits for it. -/
theorem none_stranded_iff : Run (fun x e y => x.step deletes e y ∧ NoneStranded y.s) ⟨State.init, []⟩ evs y ↔
    Run (fun x e y => x.step deletes e y ∧ Clears x.s e) ⟨State.init, []⟩ evs y := by
  constructor
  · intro hrun
    have hboth : Waits y.s ∧ Run (fun x e y => x.step deletes e y ∧ Clears x.s e) ⟨State.init, []⟩ evs y := by
      induction hrun with
      | nil => exact ⟨waits_init, .nil⟩
      | snoc _ hs ih =>
        obtain ⟨hw, hrun'⟩ := ih
        obtain ⟨-, es, hexec, -⟩ := id hs.1
        exact ⟨waits_step hw hs.1, hrun'.snoc ⟨hs.1, clears_of_noneStranded hw hexec hs.2⟩⟩
    exact hboth.2
  · intro hrun
    have hall : Waits y.s ∧ NoneStranded y.s ∧
        Run (fun x e y => x.step deletes e y ∧ NoneStranded y.s) ⟨State.init, []⟩ evs y := by
      induction hrun with
      | nil => exact ⟨waits_init, nofun, .nil⟩
      | snoc _ hs ih =>
        obtain ⟨hw, hn, hrun'⟩ := ih
        obtain ⟨he, es, hexec, -⟩ := id hs.1
        obtain ⟨hm, ht⟩ := exec_move he hexec
        have hn' := hn.move hw ht hm hs.2
        exact ⟨waits_step hw hs.1, hn', hrun'.snoc ⟨hs.1, hn'⟩⟩
    exact hall.2.2

/-- A thread brings in inode 5, another one finds it busy, and is asleep when it is not busy any more. -/
theorem vget_strands : ∃ y, Run (Sys.step fun _ => true) ⟨State.init, []⟩
    [.vget 0 0 5 (some 100), .vget 1 0 5 none, .resume 0 none] y ∧ ¬ NoneStranded y.s := by
  obtain ⟨x₁, x₂, y, h₁, h₂, h₃, hp, hb⟩ : ∃ x₁ x₂ y, Sys.step (fun _ => true) ⟨State.init, []⟩ (.vget 0 0 5 (some 100)) x₁ ∧
      Sys.step (fun _ => true) x₁ (.vget 1 0 5 none) x₂ ∧ Sys.step (fun _ => true) x₂ (.resume 0 none) y ∧
      y.s.point 1 = .asleep 100 0 5 ∧ (y.s.vn 100).busy = false :=
    ⟨⟨_, _⟩, ⟨_, _⟩, ⟨_, _⟩, ⟨fun _ _ => not_mem_nil, _, rfl, rfl⟩, ⟨nofun, _, rfl, rfl⟩, ⟨nofun, _, rfl, rfl⟩, rfl, rfl⟩
  refine ⟨y, ((Run.nil.snoc h₁).snoc h₂).snoc h₃, fun hs => ?_⟩
  have := (hs 1 100 ⟨0, 5, hp⟩).2
  rw [hb] at this
  cases this

end Weenix.VnodeCache
