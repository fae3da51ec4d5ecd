import Weenix.Proofs.SchedEffect

/-! The queues of threads. A thread is linked in at most one queue, and a switch takes the
thread that has waited longest among those that have not exited. -/

namespace Weenix.Sched

open Relation List State

variable {σ : Scope} {s s' s₁ s₂ : State} {q r : Queue} {t x p : ℕ}

namespace State

@[simp] theorem link_size (s : State) (q r : Queue) (t : ℕ) :
    ((s.link q t).queue r).tqSize = if r = q then (s.queue q).tqSize + 1 else (s.queue r).tqSize :=
  setQueue_size s q r fun k => ⟨t :: k.tqList, k.tqSize + 1⟩

@[simp] theorem link_thr (s : State) (q : Queue) (t x : ℕ) : (s.link q t).thr x =
    if x = t then { s.thr t with ktWchan := some q, ktQlink := true } else s.thr x :=
  setThr_thr _ t x _

@[simp] theorem unlink_size (s : State) (q r : Queue) (t : ℕ) :
    ((s.unlink q t).queue r).tqSize = if r = q then (s.queue q).tqSize - 1 else (s.queue r).tqSize :=
  setQueue_size s q r fun k => ⟨k.tqList.dropLast, k.tqSize - 1⟩

@[simp] theorem unlink_thr (s : State) (q : Queue) (t x : ℕ) : (s.unlink q t).thr x =
    if x = t then { s.thr t with ktWchan := none, ktQlink := false } else s.thr x :=
  setThr_thr _ t x _

@[simp] theorem reset_list (s : State) (q r : Queue) : ((schedQueueInit s q).queue r).tqList =
    if r = q then [] else (s.queue r).tqList :=
  setQueue_list s q r _

@[simp] theorem reset_size (s : State) (q r : Queue) : ((schedQueueInit s q).queue r).tqSize =
    if r = q then 0 else (s.queue r).tqSize :=
  setQueue_size s q r _

@[simp] theorem newThread_thr (s : State) (t p x : ℕ) : (s.newThread t p).thr x =
    if x = t then ⟨⟨t, [.start]⟩, p, false, none, .run, true⟩ else s.thr x :=
  Function.update_apply _ _ _ _

theorem sleep_list (s : State) (q r : Queue) (st : KtState) : ((s.sleep q st).queue r).tqList =
    if r = q then s.curthr :: (s.queue q).tqList else (s.queue r).tqList :=
  link_list _ q r _

theorem sleep_thr (s : State) (q : Queue) (st : KtState) (x : ℕ) : (s.sleep q st).thr x =
    if x = s.curthr then { s.thr x with ktState := st, ktWchan := some q, ktQlink := true } else s.thr x := by
  refine (link_thr _ q s.curthr x).trans ?_
  rw [setState_thr, setState_thr, if_pos rfl]
  split_ifs with hx
  · rw [hx]
  · rfl

end State

structure Queued (s : State) : Prop where
  mem : ∀ q t, t ∈ (s.queue q).tqList → (s.thr t).ktWchan = some q
  nodup : ∀ q, (s.queue q).tqList.Nodup
  size : ((s.queue .runq).tqList.length : ℤ) ≤ (s.queue .runq).tqSize
  awake : ∀ t, (s.thr t).ktWchan = some .runq → (s.thr t).ktState ≠ .sleepCancellable

namespace Queued

theorem not_mem (h : Queued s) (hw : (s.thr t).ktWchan = none) (q : Queue) : t ∉ (s.queue q).tqList := by
  intro hm
  rw [h.mem q t hm] at hw
  cases hw

theorem congr (h : Queued s) (hthr : s'.thr = s.thr) (hqueue : s'.queue = s.queue) : Queued s' := by
  refine ⟨fun q t => ?_, fun q => ?_, ?_, fun t => ?_⟩
  · rw [hthr, hqueue]
    exact h.mem q t
  · rw [hqueue]
    exact h.nodup q
  · rw [hqueue]
    exact h.size
  · rw [hthr]
    exact h.awake t

theorem link (h : Queued s) (hw : (s.thr t).ktWchan = none) (hf : Fit q (s.thr t).ktState) :
    Queued (s.link q t) := by
  refine ⟨fun r x hx => ?_, fun r => ?_, ?_, fun x hx => ?_⟩
  · rw [link_list] at hx
    rw [link_thr]
    split_ifs with hxt
    · subst hxt
      split_ifs at hx with hr
      · rw [hr]
      · exact absurd hx (h.not_mem hw r)
    split_ifs at hx with hr
    · rw [hr]
      exact h.mem q x ((mem_cons.1 hx).resolve_left hxt)
    · exact h.mem r x hx
  · rw [link_list]
    split_ifs with hr
    · exact nodup_cons.2 ⟨h.not_mem hw q, h.nodup q⟩
    · exact h.nodup r
  · rw [link_list, link_size]
    split_ifs with hr
    · have := h.size
      rw [hr] at this
      rw [length_cons]
      omega
    · exact h.size
  · rw [link_thr] at hx ⊢
    split_ifs at hx ⊢ with hxt
    · obtain rfl : q = .runq := Option.some.inj hx
      rw [hf]
      exact KtState.noConfusion
    · exact h.awake x hx

theorem unlink (h : Queued s) (hl : (s.queue q).tqList.getLast? = some t) : Queued (s.unlink q t) := by
  have hlist := dropLast_append_getLast? t hl
  refine ⟨fun r x hx => ?_, fun r => ?_, ?_, fun x hx => ?_⟩
  · rw [unlink_list] at hx
    have hxr : x ∈ (s.queue r).tqList := by
      split_ifs at hx with hr
      · exact hr ▸ mem_of_mem_dropLast hx
      · exact hx
    rw [unlink_thr]
    split_ifs with hxt
    · subst hxt
      obtain rfl : r = q := Option.some.inj ((h.mem r x hxr).symm.trans
        (h.mem q x (mem_of_getLast? hl)))
      rw [if_pos rfl] at hx
      have hnodup := h.nodup r
      rw [← hlist, nodup_append] at hnodup
      exact absurd rfl (hnodup.2.2 x hx x (mem_singleton_self x))
    · exact h.mem r x hxr
  · rw [unlink_list]
    split_ifs with hr
    · exact (h.nodup q).sublist (dropLast_sublist _)
    · exact h.nodup r
  · rw [unlink_list, unlink_size]
    split_ifs with hr
    · have := h.size
      rw [hr, ← hlist, length_append, length_singleton] at this
      omega
    · exact h.size
  · rw [unlink_thr] at hx ⊢
    split_ifs at hx ⊢ with hxt
    exact h.awake x hx

end Queued

theorem Does.queued (h : Does σ s s') (hq : Queued s) : Queued s' := by
  cases h with
  | other h => exact hq.congr h.thr h.queue
  | push c hc | delThread t => exact hq.congr rfl rfl
  | link q t _ hw hf _ => exact hq.link hw hf
  | unlink q t _ hl => exact hq.unlink hl
  | state t st hw =>
    refine ⟨fun r x hx => ?_, hq.nodup, hq.size, fun x hx => ?_⟩
    · rw [setState_wchan]
      exact hq.mem r x hx
    rw [setState_wchan] at hx
    have hxt : x ≠ t := fun he => by
      rw [he, hw] at hx
      cases hx
    rw [setState_thr, if_neg hxt]
    exact hq.awake x hx
  | reset q _ =>
    refine ⟨fun r x hx => ?_, fun r => ?_, ?_, hq.awake⟩
    · rw [reset_list] at hx
      split_ifs at hx with hr
      · cases hx
      · exact hq.mem r x hx
    · rw [reset_list]
      split_ifs with hr
      · exact nodup_nil
      · exact hq.nodup r
    rw [reset_list, reset_size]
    split_ifs with hr
    · exact le_rfl
    · exact hq.size
  | newThread t p _ _ _ hnq =>
    refine ⟨fun r x hx => ?_, hq.nodup, hq.size, fun x hx => ?_⟩
    · have hxt : x ≠ t := fun he => hnq r (he ▸ hx)
      rw [newThread_thr, if_neg hxt]
      exact hq.mem r x hx
    rw [newThread_thr] at hx ⊢
    split_ifs at hx ⊢ with hxt
    exact hq.awake x hx

/-! ### The thread that has waited longest -/

def nextThread (s : State) : Option ℕ :=
  (s.queue .runq).tqList.reverse.find? fun t => (s.thr t).ktState ≠ .exited

/-- Two states that differ at most in where threads are queued. -/
structure SameThreads (s s' : State) : Prop where
  ktCtx : ∀ x, (s'.thr x).ktCtx = (s.thr x).ktCtx
  ktProc : ∀ x, (s'.thr x).ktProc = (s.thr x).ktProc
  ktState : ∀ x, (s'.thr x).ktState = (s.thr x).ktState
  ktCancelled : ∀ x, (s'.thr x).ktCancelled = (s.thr x).ktCancelled

theorem SameThreads.trans (h1 : SameThreads s s₁) (h2 : SameThreads s₁ s') : SameThreads s s' :=
  ⟨fun x => (h2.ktCtx x).trans (h1.ktCtx x), fun x => (h2.ktProc x).trans (h1.ktProc x),
    fun x => (h2.ktState x).trans (h1.ktState x),
    fun x => (h2.ktCancelled x).trans (h1.ktCancelled x)⟩

theorem sameThreads_unlink (s : State) (q : Queue) (t : ℕ) : SameThreads s (s.unlink q t) :=
  ⟨setThr_field (·.ktCtx) rfl, setThr_field (·.ktProc) rfl, setThr_field (·.ktState) rfl,
    setThr_field (·.ktCancelled) rfl⟩

theorem nextThread_mem (h : nextThread s = some t) : t ∈ (s.queue .runq).tqList := by
  exact mem_reverse.1 (mem_of_find?_eq_some h)

theorem nextThread_unlink (hl : (s.queue .runq).tqList.getLast? = some t) :
    nextThread s = if (s.thr t).ktState = .exited then nextThread (s.unlink .runq t) else some t := by
  have hlist := dropLast_append_getLast? t hl
  simp only [nextThread, (sameThreads_unlink s .runq t).ktState]
  rw [unlink_list, if_pos rfl]
  generalize (s.queue .runq).tqList.dropLast = l at hlist ⊢
  rw [← hlist, reverse_append, reverse_singleton, singleton_append, List.find?_cons]
  split_ifs with h
  · simp [h]
  · simp [h]

def State.takeRunq : ℕ → State → State
  | 0, s => s
  | n + 1, s =>
    match (s.queue .runq).tqList.getLast? with
    | none => s
    | some t => takeRunq n (s.unlink .runq t)

theorem takeRunq_succ (n : ℕ) (hl : (s.queue .runq).tqList.getLast? = some t) :
    s.takeRunq (n + 1) = (s.unlink .runq t).takeRunq n := by
  rw [State.takeRunq, hl]

/-- Taking threads off the run queue does not look at what `f` changes. -/
theorem takeRunq_comm {f : State → State} (hq : ∀ s, (f s).queue = s.queue)
    (hf : ∀ s t, (f s).unlink .runq t = f (s.unlink .runq t)) (n : ℕ) (s : State) :
    (f s).takeRunq n = f (s.takeRunq n) := by
  induction n generalizing s with
  | zero => rfl
  | succ n ih =>
    have hq := congrFun (hq s) .runq
    cases hl : (s.queue .runq).tqList.getLast? with
    | none =>
      simp only [State.takeRunq]
      rw [hq, hl]
    | some t => rw [takeRunq_succ n hl, ← ih, takeRunq_succ n (hq ▸ hl), hf]

theorem takeRunq_rel {R : State → State → Prop} (hrefl : ∀ s, R s s) (htrans : ∀ {s s₁ s'}, R s s₁ → R s₁ s' → R s s')
    (hunlink : ∀ {s t}, (s.queue .runq).tqList.getLast? = some t → R s (s.unlink .runq t)) (n : ℕ) (s : State) :
    R s (s.takeRunq n) := by
  induction n generalizing s with
  | zero => exact hrefl s
  | succ n ih =>
    cases hl : (s.queue .runq).tqList.getLast? with
    | none =>
      rw [State.takeRunq, hl]
      exact hrefl s
    | some t =>
      rw [takeRunq_succ n hl]
      exact htrans (hunlink hl) (ih _)

theorem takeRunq_effects (hq : σ.queue .runq) : ∀ (n : ℕ) (s : State), Effects σ s (s.takeRunq n) :=
  takeRunq_rel .refl .trans fun hl => .of (.unlink _ .runq _ hq hl)

theorem sameThreads_takeRunq : ∀ (n : ℕ) (s : State), SameThreads s (s.takeRunq n) :=
  takeRunq_rel (fun _ => ⟨fun _ => rfl, fun _ => rfl, fun _ => rfl, fun _ => rfl⟩) .trans
    fun _ => sameThreads_unlink _ .runq _

def State.turnTo (s : State) (t : ℕ) : State := { s with curthr := t, curproc := (s.thr t).ktProc }

/-- The loop of `sched_switch`: threads that have exited are taken off the run queue, and then one that has not. -/
theorem schedPick_rec {M : State → State → Prop}
    (last : ∀ {s t}, (s.queue .runq).tqList.getLast? = some t → (s.thr t).ktState ≠ .exited →
      M s ((s.unlink .runq t).turnTo t))
    (more : ∀ {s s' t}, (s.queue .runq).tqList.getLast? = some t → (s.thr t).ktState = .exited →
      M ((s.unlink .runq t).turnTo t) s' → M s s')
    (n : ℕ) (h : schedPick n s = .ok s') : M s s' := by
  induction n generalizing s with
  | zero => cases h
  | succ n ih =>
    unfold schedPick ktqueueDequeue at h
    cases hl : (s.queue .runq).tqList.getLast? with
    | none =>
      rw [hl] at h
      cases h
    | some t =>
      rw [hl] at h
      have hst := (sameThreads_unlink s .runq t).ktState t
      dsimp only at h
      split_ifs at h with hex
      · exact more hl (hst.symm.trans hex) (ih h)
      cases h
      exact last hl fun he => hex (hst.trans he)

/-- What the loop of `sched_switch` does: it takes threads off the run queue up to the
first that has not exited. -/
theorem schedPick_ok (n : ℕ) (h : schedPick n s = .ok s') :
    ∃ t k, nextThread s = some t ∧ ((s.takeRunq k).thr t).ktWchan = none ∧
      s' = { s.takeRunq k with curthr := t, curproc := (s.thr t).ktProc } := by
  refine schedPick_rec (M := fun s s' => ∃ t k, nextThread s = some t ∧ ((s.takeRunq k).thr t).ktWchan = none ∧
    s' = { s.takeRunq k with curthr := t, curproc := (s.thr t).ktProc }) (fun {s t} hl hex => ?_)
    (fun {s s' t} hl hex hmore => ?_) n h
  · refine ⟨t, 1, by rw [nextThread_unlink hl, if_neg hex], ?_, ?_⟩
    · rw [takeRunq_succ 0 hl]
      simp [State.takeRunq]
    · rw [takeRunq_succ 0 hl, ← (sameThreads_unlink s .runq t).ktProc]
      rfl
  obtain ⟨t', k, h1, h2, h3⟩ := hmore
  rw [State.turnTo, takeRunq_comm (f := fun s => { s with curthr := t, curproc := _ }) (fun _ => rfl) fun _ _ => rfl] at h2 h3
  refine ⟨t', k + 1, ?_, ?_, ?_⟩
  · rw [nextThread_unlink hl, if_pos hex]
    exact h1
  · rw [takeRunq_succ k hl]
    exact h2
  · rw [takeRunq_succ k hl, h3, ← (sameThreads_unlink s .runq t).ktProc]

/-- The loop finds a thread exactly when there is one; else it dequeues an empty queue. -/
theorem schedPick_total : ∀ (n : ℕ) {s : State}, (s.queue .runq).tqList.length = n →
    (nextThread s = none → schedPick n s = .error .null) ∧
    ∀ t, nextThread s = some t → ∃ s', schedPick n s = .ok s' := by
  intro n
  induction n with
  | zero =>
    intro s hn
    refine ⟨fun _ => rfl, fun t ht => ?_⟩
    rw [nextThread, length_eq_zero_iff.1 hn] at ht
    cases ht
  | succ n ih =>
    intro s hn
    cases hl : (s.queue .runq).tqList.getLast? with
    | none =>
      rw [List.getLast?_eq_none_iff.1 hl] at hn
      cases hn
    | some t =>
      have hlen : ((s.unlink .runq t).queue .runq).tqList.length = n := by
        rw [unlink_list, if_pos rfl, length_dropLast, hn]
        rfl
      have hd : ktqueueDequeue s .runq = some (t, s.unlink .runq t) := by
        rw [ktqueueDequeue, hl]
        rfl
      rw [nextThread_unlink hl, schedPick, hd]
      dsimp only
      rw [(sameThreads_unlink s .runq t).ktState]
      split_ifs with hex
      · exact ih (s := { s.unlink .runq t with
          curthr := t, curproc := ((s.unlink .runq t).thr t).ktProc }) hlen
      · exact ⟨fun h => h.elim, fun _ _ => ⟨_, rfl⟩⟩

end Weenix.Sched
