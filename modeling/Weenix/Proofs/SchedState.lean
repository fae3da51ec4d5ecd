import Weenix.Proofs.SchedFiled

/-! The state of a thread and the queue it is on. They agree, with threads cancelled too, as long
as nobody calls `proc_kill_all` and no thread that has exited is made runnable again. -/

namespace Weenix.Sched

open Runs Exec State

variable {s s' : State} {q : Queue} {c : Code} {l : List Code} {op : Op} {t x p : ℕ} {ρ : Rights}

/-- The code of the scheduler and of the functions that end a thread. -/
def Code.Busy : Code → Prop
  | .schedSwitch | .intrWait _ | .switchTail _ _ | .contextSwitch _ _ | .ret _ | .doExit _ | .cleanupLoop _
  | .exitReturn => True
  | _ => False

def KtState.Asleep : KtState → Prop
  | .sleep | .sleepCancellable => True
  | _ => False

structure StatesAgree (s : State) : Prop where
  asleep : ∀ t, (s.thr t).ktState.Asleep ↔ ∃ q, q ≠ .runq ∧ t ∈ (s.queue q).tqList
  ready : ∀ t ∈ (s.queue .runq).tqList, (s.thr t).ktState = .run
  current : (∀ c ∈ s.cpu.frames, ¬ c.Busy) → (s.thr s.curthr).ktState = .run
  exited : ∀ t, (s.thr t).ktState = .exited → ∀ q, t ∉ (s.queue q).tqList

/-- The state of a thread agrees with its back pointer. -/
def Kthread.Agrees (k : Kthread) : Prop :=
  match k.ktWchan with
  | none => ¬ k.ktState.Asleep
  | some .runq => k.ktState = .run
  | some _ => k.ktState.Asleep

structure Placed (s : State) : Prop extends Filed s where
  agrees : ∀ t, (s.thr t).Agrees

theorem Kthread.Agrees.congr {k k' : Kthread} (h : k.Agrees) (hw : k'.ktWchan = k.ktWchan)
    (hst : k'.ktState = k.ktState) : k'.Agrees := by
  unfold Kthread.Agrees
  rw [hw, hst]
  exact h

theorem Kthread.agrees_of_fit {k : Kthread} (hw : k.ktWchan = some q) (hfit : Fit q k.ktState) : k.Agrees := by
  have hasleep : q ≠ .runq → k.ktState.Asleep := by
    intro hq
    rw [Fit, if_neg hq] at hfit
    rcases hfit with he | he
    · rw [he]
      trivial
    · rw [he]
      trivial
  unfold Kthread.Agrees
  rw [hw]
  cases q with
  | runq => rwa [Fit, if_pos rfl] at hfit
  | _ => exact hasleep Queue.noConfusion

namespace Placed

theorem ready (h : Placed s) (ht : t ∈ (s.queue .runq).tqList) : (s.thr t).ktState = .run := by
  have := h.agrees t
  unfold Kthread.Agrees at this
  rwa [(h.mem .runq t).1 ht] at this

theorem asleep (h : Placed s) (t : ℕ) : (s.thr t).ktState.Asleep ↔ ∃ q, q ≠ .runq ∧ t ∈ (s.queue q).tqList := by
  have hag := h.agrees t
  unfold Kthread.Agrees at hag
  simp only [h.mem]
  cases hw : (s.thr t).ktWchan with
  | none =>
    rw [hw] at hag
    exact iff_of_false hag nofun
  | some q =>
    rw [hw] at hag
    cases q with
    | runq =>
      rw [hag]
      refine iff_of_false id ?_
      rintro ⟨q, hq, he⟩
      exact hq (Option.some.inj he).symm
    | _ =>
      refine iff_of_true hag ⟨_, ?_, rfl⟩
      exact nofun

theorem not_exited (h : Placed s) (ht : t ∈ (s.queue q).tqList) : (s.thr t).ktState ≠ .exited := by
  intro he
  by_cases hq : q = .runq
  · rw [h.ready (hq ▸ ht)] at he
    cases he
  have := (h.asleep t).2 ⟨q, hq, ht⟩
  rw [he] at this
  exact this

theorem congr (h : Placed s) (hq : s'.queue = s.queue) (hw : ∀ x, (s'.thr x).ktWchan = (s.thr x).ktWchan)
    (hst : ∀ x, (s'.thr x).ktState = (s.thr x).ktState) : Placed s' :=
  ⟨h.toFiled.congr hq hw, fun t => (h.agrees t).congr (hw t) (hst t)⟩

/-- One thread changes. -/
theorem change (h : Placed s) (hf : Filed s') (t : ℕ) (ht : (s'.thr t).Agrees)
    (hother : ∀ x, x ≠ t → s'.thr x = s.thr x) : Placed s' := by
  refine ⟨hf, fun x => ?_⟩
  by_cases hx : x = t
  · rw [hx]
    exact ht
  · rw [hother x hx]
    exact h.agrees x

end Placed

theorem Turn.placed (h : Turn ρ s s') (hρ : ¬ ρ.gives) (hp : Placed s) : Placed s' := by
  have hf := h.filed hp.toFiled
  have hrun : Fit .runq .run := by simp [Fit]
  have hlinked : ∀ (s : State) {q t st}, Fit q st → (((s.setState t st).link q t).thr t).Agrees := by
    intro s q t st hfit
    refine Kthread.agrees_of_fit (q := q) ?_ ?_
    · rw [link_thr, if_pos rfl]
    · rw [link_thr, if_pos rfl, setState_self]
      exact hfit
  cases h with
  | alike h => exact hp.congr h.queue h.wchan h.state
  | wake q t =>
    refine hp.change hf t (hlinked _ hrun) fun x hx => ?_
    rw [link_thr, if_neg hx, setState_thr, if_neg hx, unlink_thr, if_neg hx]
  | ready t =>
    refine hp.change hf t (hlinked _ hrun) fun x hx => ?_
    rw [link_thr, if_neg hx, setState_thr, if_neg hx]
  | sleep q st _ _ hfit =>
    refine hp.change hf s.curthr (hlinked _ hfit) fun x hx => ?_
    rw [link_thr, if_neg hx, setState_thr, if_neg hx]
  | exit _ hw =>
    refine hp.change hf s.curthr ?_ fun x hx => ?_
    · rw [setState_thr, if_pos rfl, Kthread.Agrees]
      rw [hw]
      exact id
    · rw [setState_thr, if_neg hx]
  | giveUp hg => exact absurd hg hρ
  | cancel t r =>
    refine hp.change hf t (Kthread.agrees_of_fit (q := .runq) ?_ ?_) fun x hx => ?_
    · rw [link_thr, if_pos rfl]
    · rw [link_thr, if_pos rfl, detached_thr, if_pos rfl]
      exact hrun
    · rw [link_thr, if_neg hx, detached_thr, if_neg hx]
  | flag t =>
    exact hp.congr rfl (setThr_field (·.ktWchan) rfl) (setThr_field (·.ktState) rfl)
  | born t p =>
    refine hp.change hf t ?_ fun x hx => ?_
    · rw [newThread_thr, if_pos rfl]
      exact id
    · rw [newThread_thr, if_neg hx]
  | clear q hq => exact ⟨hf, hp.agrees⟩

theorem Turns.placed (h : Turns ρ s s') (hρ : ¬ ρ.gives) (hp : Placed s) : Placed s' :=
  h.invariant (fun _ _ hp hd => hd.placed hρ hp) hp

/-! ### The running thread -/

/-- The running thread is as it should be. -/
def Going (s : State) : Prop := (s.thr s.curthr).ktState = .run ∧ (s.thr s.curthr).ktCancelled = false

/-- As long as it does not stop it stays so, even if it is woken from a queue. -/
theorem Turn.going (h : Turn ρ s s') (hr : ¬ ρ.rests) (hρ : ¬ ρ.gives) (hg : Going s) : Going s' := by
  obtain ⟨hst, hc⟩ := hg
  cases h with
  | alike h =>
    rw [Going, h.curthr, h.state, h.cancelled]
    exact ⟨hst, hc⟩
  | wake q t =>
    change ((((s.unlink q t).setState t .run).link .runq t).thr s.curthr).ktState = .run ∧
      ((((s.unlink q t).setState t .run).link .runq t).thr s.curthr).ktCancelled = false
    by_cases hx : s.curthr = t
    · simp [hx, ← hc]
    · simp [hx, hst, hc]
  | ready t =>
    change (((s.setState t .run).link .runq t).thr s.curthr).ktState = .run ∧
      (((s.setState t .run).link .runq t).thr s.curthr).ktCancelled = false
    by_cases hx : s.curthr = t
    · simp [hx, ← hc]
    · simp [hx, hst, hc]
  | sleep _ _ hf | exit hf => exact absurd hf hr
  | giveUp hg => exact absurd hg hρ
  | cancel t r ht =>
    change (((s.detached t r).link .runq t).thr s.curthr).ktState = .run ∧
      (((s.detached t r).link .runq t).thr s.curthr).ktCancelled = false
    rw [link_thr, if_neg ht.symm, detached_thr, if_neg ht.symm]
    exact ⟨hst, hc⟩
  | flag t ht =>
    simp [Going, State.setThr, Function.update_of_ne ht.symm, hst, hc]
  | born t p _ ht =>
    change ((s.newThread t p).thr s.curthr).ktState = .run ∧ ((s.newThread t p).thr s.curthr).ktCancelled = false
    rw [newThread_thr, if_neg ht.symm]
    exact ⟨hst, hc⟩
  | clear q => exact ⟨hst, hc⟩

theorem Turns.going (h : Turns ρ s s') (hr : ¬ ρ.rests) (hρ : ¬ ρ.gives) (hg : Going s) : Going s' :=
  h.invariant (fun _ _ hg hd => hd.going hr hρ hg) hg

/-- What the running thread is doing: it goes on, or it is in `sched_switch`, or it is about to be
ended there. -/
def Phase (s : State) : Prop :=
  Going s ∨ Switching s ∨ (s.thr s.curthr).ktState = .run ∧ ∃ status l, s.cpu.frames = .doExit status :: l

structure Sorted (s : State) : Prop extends Placed s where
  phase : Phase s

theorem Goes.sorted (h : Goes ρ s s') (hρ : ¬ ρ.gives) (hp : Placed s)
    (hg : Going s ∨ ∃ l, s'.cpu.frames = .schedSwitch :: l) : Sorted s' := by
  refine ⟨h.turns.placed hρ hp, ?_⟩
  rcases h with h | ⟨-, l, hf⟩
  · rcases hg with hg | ⟨l, hf⟩
    · exact .inl (h.going id hρ hg)
    · exact .inr (.inl ⟨l, .inl hf⟩)
  · exact .inr (.inl ⟨l, .inl hf⟩)

/-- A thread that has exited stays so, if it is not the one that acts. -/
theorem Turn.exited (h : Turn ρ s s') (hp : Placed s) (hex : (s.thr t).ktState = .exited)
    (hcur : ρ.rests ∨ ρ.gives → t ≠ s.curthr) (hr : ¬ ρ.ready t) (hb : ¬ ρ.born t) : (s'.thr t).ktState = .exited := by
  cases h with
  | alike h => exact (h.state t).trans hex
  | wake q u _ hl =>
    have hne : t ≠ u := fun he => hp.not_exited (he ▸ List.mem_of_getLast? hl) hex
    rwa [link_thr, if_neg hne, setState_thr, if_neg hne, unlink_thr, if_neg hne]
  | ready u hu =>
    have hne : t ≠ u := fun he => hr (he ▸ hu)
    rwa [link_thr, if_neg hne, setState_thr, if_neg hne]
  | sleep q st hrest =>
    have hne := hcur (.inl hrest)
    rwa [link_thr, if_neg hne, setState_thr, if_neg hne]
  | exit hrest => rwa [setState_thr, if_neg (hcur (.inl hrest))]
  | giveUp hg => rwa [setState_thr, if_neg (hcur (.inr hg))]
  | cancel u r _ hst =>
    have hne : t ≠ u := by
      rintro rfl
      rw [hex] at hst
      cases hst
    rwa [link_thr, if_neg hne, detached_thr, if_neg hne]
  | flag u =>
    by_cases hne : t = u
    · simpa [State.setThr, hne] using hne ▸ hex
    · simpa [State.setThr, hne] using hex
  | born u p hu =>
    have hne : t ≠ u := fun he => hb (he ▸ hu)
    rwa [newThread_thr, if_neg hne]
  | clear => exact hex

theorem Turns.exited (h : Turns ρ s s') (hρ : ¬ ρ.gives) (hp : Placed s) (hex : (s.thr t).ktState = .exited)
    (hcur : ρ.rests → t ≠ s.curthr) (hr : ¬ ρ.ready t) (hb : ¬ ρ.born t) : (s'.thr t).ktState = .exited := by
  refine (h.invariant (I := fun x => (Placed x ∧ x.curthr = s.curthr) ∧ (x.thr t).ktState = .exited) ?_
    ⟨⟨hp, rfl⟩, hex⟩).2
  rintro x y ⟨⟨hx, hc⟩, he⟩ hd
  refine ⟨⟨hd.placed hρ hx, hd.curthr.trans hc⟩, hd.exited hx he ?_ hr hb⟩
  rw [hc]
  exact fun hor => hcur (hor.resolve_right hρ)

/-! ### The switch -/

theorem Placed.unlink_runq (h : Placed s) (hl : (s.queue .runq).tqList.getLast? = some t) :
    Placed (s.unlink .runq t) := by
  refine h.change (h.toFiled.unlink hl) t ?_ fun x hx => ?_
  · rw [unlink_thr, if_pos rfl, Kthread.Agrees]
    rw [h.ready (List.mem_of_getLast? hl)]
    exact id
  · rw [unlink_thr, if_neg hx]

/-- The loop of `sched_switch` takes the thread that has waited longest. -/
theorem Placed.schedPick {n : ℕ} (h : Placed s) (hs : schedPick n s = .ok s') :
    ∃ t, (s.queue .runq).tqList.getLast? = some t ∧ s' = (s.unlink .runq t).turnTo t := by
  refine schedPick_rec (M := fun s s' => Placed s → ∃ t, (s.queue .runq).tqList.getLast? = some t ∧
    s' = (s.unlink .runq t).turnTo t) (fun hl _ _ => ⟨_, hl, rfl⟩) (fun hl hex _ h => ?_) n hs h
  exact absurd hex (h.not_exited (List.mem_of_getLast? hl))

theorem Placed.switchTail {old ipl : ℕ} (h : Placed s) (hst : (s.thr s.curthr).ktState = .run) :
    Sorted (switchTail s old ipl).2 := by
  unfold Sched.switchTail
  split_ifs with hc
  · exact ⟨h.congr rfl (fun _ => rfl) fun _ => rfl, .inr (.inr ⟨hst, 0, _, rfl⟩)⟩
  have hsame := contextSwitch_same { s with ipl := ipl } old s.curthr
  refine ⟨h.congr rfl (fun x => (hsame x).1) fun x => (hsame x).2.1, .inl ⟨?_, ?_⟩⟩
  · exact (hsame s.curthr).2.1.trans hst
  · exact (hsame s.curthr).2.2.2.trans (by simpa using hc)

/-- How `sched_switch` goes: the processor halts, or the thread that has waited longest is taken off
the run queue. -/
theorem Placed.schedSwitch_cases {b : Bool} (h : Placed s) (hs : schedSwitch s = .ok (b, s')) :
    s' = { s with ipl := IPL_LOW }.push (.intrWait s.ipl) ∨
    ∃ t s1, (s.queue .runq).tqList.getLast? = some t ∧ Placed s1 ∧ s1.curthr = t ∧ (s1.thr t).ktState = .run ∧
      (∀ x, (s1.thr x).ktState = (s.thr x).ktState) ∧ s' = (Sched.switchTail s1 s.curthr s.ipl).2 := by
  by_cases hne : (s.queue .runq).tqList = []
  · rw [schedSwitch_empty hne] at hs
    exact .inl (Prod.mk.inj (Except.ok.inj hs)).2.symm
  rw [schedSwitch_pick (h.size .runq).ge hne] at hs
  obtain ⟨s1, h1, h2⟩ := ok_of_map hs
  have hhigh : Placed { s with ipl := IPL_HIGH } := h.congr rfl (fun _ => rfl) fun _ => rfl
  obtain ⟨t, hl, rfl⟩ := hhigh.schedPick h1
  have hsame := sameThreads_unlink { s with ipl := IPL_HIGH } .runq t
  exact .inr ⟨t, ({ s with ipl := IPL_HIGH }.unlink .runq t).turnTo t, hl, (hhigh.unlink_runq hl).congr rfl (fun _ => rfl) fun _ => rfl, rfl,
    (hsame.ktState t).trans (hhigh.ready (List.mem_of_getLast? hl)), hsame.ktState, (congrArg Prod.snd h2).symm⟩

theorem switchTail_same (s : State) (old ipl : ℕ) : (switchTail s old ipl).2.curthr = s.curthr ∧
    ∀ x, ((switchTail s old ipl).2.thr x).ktState = (s.thr x).ktState := by
  unfold switchTail
  split_ifs
  · exact ⟨rfl, fun _ => rfl⟩
  · exact ⟨rfl, fun x => (contextSwitch_same _ old s.curthr x).2.1⟩

theorem Placed.schedSwitch {b : Bool} (h : Placed s) (hs : schedSwitch s = .ok (b, s')) : Sorted s' := by
  rcases h.schedSwitch_cases hs with rfl | ⟨t, s1, -, hp, rfl, hst, -, rfl⟩
  · exact ⟨h.congr rfl (fun _ => rfl) fun _ => rfl, .inr (.inl ⟨_, .inr ⟨_, rfl⟩⟩)⟩
  · exact hp.switchTail hst

/-! ### Steps and runs -/

/-- Nobody calls `proc_kill_all`, a queue is emptied only with nobody on it, and a thread that has
exited is not made runnable. -/
def StateFine (s : State) : Op → Prop
  | .call .killAll => False
  | .call c => c.ClearsFine s ∧ ∀ t, c.readies s = some t → (s.thr t).ktState ≠ .exited
  | _ => True

def StateStep (s : State) (op : Op) (s' : State) : Prop := Enabled s op ∧ step s op = .ok s' ∧ StateFine s op

/-- The changes that a step makes: threads that have exited stay so, unless an object is used again. -/
def stepRights (s : State) (op : Op) : Rights where
  rests := True
  gives := False
  ready t := (s.thr t).ktState ≠ .exited
  born t := ∃ p, op = .call (.thread t p)

theorem Sorted.going (h : Sorted s) (hf : s.cpu.frames = []) : Going s := by
  rcases h.phase with hg | hsw | ⟨-, status, l, hl⟩
  · exact hg
  · exact absurd hsw (not_switching_nil hf)
  rw [hf] at hl
  cases hl

theorem Sorted.call {c : Call} (h : Sorted s) (hen : Enabled s (.call c)) (hfine : StateFine s (.call c))
    (hs : call s c = .ok s') : Going s ∧ Goes (stepRights s (.call c)) s s' := by
  have hg := h.going hen.1
  have hk : c ≠ .killAll := by
    rintro rfl
    exact hfine
  have hc : c.ClearsFine s ∧ ∀ t, c.readies s = some t → (s.thr t).ktState ≠ .exited := by
    cases c with
    | killAll => exact absurd rfl hk
    | _ => exact hfine
  refine ⟨hg, call_goes hen hk hc.1 (fun hcan => ?_) hc.2 (fun t p he => ⟨p, by rw [he]⟩) hs⟩
  -- the running thread is not cancelled: `sched_switch` would have ended it
  rw [hg.2] at hcan
  cases hcan

theorem contextSwitch_alike (s : State) (old ipl : ℕ) : Alike s (contextSwitch { s with ipl := ipl } old s.curthr) where
  queue := rfl
  wchan x := (contextSwitch_same _ old s.curthr x).1
  state x := (contextSwitch_same _ old s.curthr x).2.1
  cancelled x := (contextSwitch_same _ old s.curthr x).2.2.2
  curthr := rfl

/-- A thread goes on with a call other than `sched_switch`: it is as it should be, or it is ended. -/
theorem Sorted.cont_goes {b : Bool} (h : Sorted s) (hf : s.cpu.frames = c :: l) (hi : ∀ ipl, c ≠ .intrWait ipl)
    (hsw : c ≠ .schedSwitch) (hs : exec s.pop c = .ok (b, s')) :
    (s.thr s.curthr).ktState = .run ∧ Goes (stepRights s .cont) s.pop s' ∧
      (Going s ∨ ∃ l, s'.cpu.frames = .schedSwitch :: l) := by
  rcases h.phase with hg | ⟨l', hl | ⟨ipl, hl⟩⟩ | ⟨hst, status, l', hl⟩
  · refine ⟨hg.1, ?_, .inl hg⟩
    by_cases hn : c.Neutral
    · exact exec_goes hn hs
    cases c with
    | schedSwitch => exact absurd rfl hsw
    | switchTail old ipl =>
      have hcan : (s.pop.thr s.pop.curthr).ktCancelled = false := hg.2
      rw [exec, switchTail, if_neg (by simp [hcan])] at hs
      obtain ⟨-, rfl⟩ := Prod.mk.inj (Except.ok.inj hs)
      exact Turns.goes (.alike (contextSwitch_alike s.pop old ipl))
    | contextSwitch old ipl =>
      obtain ⟨-, rfl⟩ := Prod.mk.inj (Except.ok.inj hs)
      exact Turns.goes (.alike (contextSwitch_alike s.pop old ipl))
    | _ => exact absurd trivial hn
  · exact absurd (List.cons.inj (hf.symm.trans hl)).1 hsw
  · exact absurd (List.cons.inj (hf.symm.trans hl)).1 (hi ipl)
  · obtain ⟨rfl, -⟩ := List.cons.inj (hf.symm.trans hl)
    obtain ⟨s1, h1, h2⟩ := ok_of_map hs
    obtain ⟨-, rfl⟩ := Prod.mk.inj h2
    have hstops : Turns (stepRights s .cont).stops s.pop s1 ∧ ∃ l, s1.cpu.frames = .schedSwitch :: l := doExit_stops h1
    exact ⟨hst, .inr hstops, .inr hstops.2⟩

theorem Sorted.cont {b : Bool} (h : Sorted s) (hf : s.cpu.frames = c :: l) (hi : ∀ ipl, c ≠ .intrWait ipl)
    (hs : exec s.pop c = .ok (b, s')) : Sorted s' := by
  have hpop : Placed s.pop := h.toPlaced.congr rfl (fun _ => rfl) fun _ => rfl
  by_cases hsw : c = .schedSwitch
  · subst hsw
    exact hpop.schedSwitch hs
  · obtain ⟨-, hgoes, hor⟩ := h.cont_goes hf hi hsw hs
    exact hgoes.sorted id hpop hor

theorem Sorted.step (h : Sorted s) (hs : StateStep s op s') : Sorted s' := by
  obtain ⟨hen, hs, hfine⟩ := hs
  cases op with
  | call c =>
    obtain ⟨hg, hgoes⟩ := h.call hen hfine hs
    exact hgoes.sorted id h.toPlaced (.inl hg)
  | cont =>
    obtain ⟨c, l, b, hf, hi, h1⟩ := step_cont hen hs
    exact h.cont hf hi h1
  | intr ws =>
    rcases step_intr hen hs with ⟨s1, ipl, l, -, h1, -, rfl⟩ | ⟨hf, h1⟩
    · have hturns : Turns (stepRights s (.intr ws)).still s s1 := interrupt_turns ws h1
      refine ⟨(hturns.placed id h.toPlaced).congr rfl (fun _ => rfl) fun _ => rfl, .inr (.inl ⟨_, .inl rfl⟩)⟩
    · have hturns : Turns (stepRights s (.intr ws)).still s s' := interrupt_turns ws h1
      exact ⟨hturns.placed id h.toPlaced, .inl (hturns.going id id (h.going hf))⟩

/-- A thread that has exited stays so and is not switched to, unless a new thread is made of it. -/
theorem Sorted.exited (h : Sorted s) (hs : StateStep s op s') (hex : (s.thr t).ktState = .exited)
    (hnew : ∀ p, op ≠ .call (.thread t p)) : (s'.thr t).ktState = .exited ∧ (s'.curthr = t → s.curthr = t) := by
  obtain ⟨hen, hs, hfine⟩ := hs
  have hready : ¬ (stepRights s op).ready t := not_not.2 hex
  have hborn : ¬ (stepRights s op).born t := fun ⟨p, hp⟩ => hnew p hp
  -- a thread that acts is in `KT_RUN`
  have hact : (s.thr s.curthr).ktState = .run → t ≠ s.curthr := by
    rintro hst rfl
    rw [hst] at hex
    cases hex
  cases op with
  | call c =>
    obtain ⟨hg, hgoes⟩ := h.call hen hfine hs
    refine ⟨hgoes.turns.exited id h.toPlaced hex (fun _ => hact hg.1) hready hborn, fun he => ?_⟩
    exact hgoes.turns.curthr.symm.trans he
  | intr ws =>
    have hintr : ∀ {s₁}, interrupt s ws = .ok s₁ → (s₁.thr t).ktState = .exited ∧ (s₁.curthr = t → s.curthr = t) := by
      intro s₁ h1
      have hturns : Turns (stepRights s (.intr ws)).still s s₁ := interrupt_turns ws h1
      exact ⟨hturns.exited id h.toPlaced hex False.elim hready hborn, hturns.curthr.symm.trans⟩
    rcases step_intr hen hs with ⟨s1, ipl, l, -, h1, -, rfl⟩ | ⟨hf, h1⟩
    · exact (hintr h1 :)
    · exact hintr h1
  | cont =>
    obtain ⟨c, l, b, hf, hi, h1⟩ := step_cont hen hs
    have hpop : Placed s.pop := h.toPlaced.congr rfl (fun _ => rfl) fun _ => rfl
    by_cases hsw : c = .schedSwitch
    · subst hsw
      rcases hpop.schedSwitch_cases h1 with rfl | ⟨u, s2, -, -, rfl, hst, hsame, rfl⟩
      · exact ⟨hex, id⟩
      obtain ⟨hcur, hstate⟩ := switchTail_same s2 s.pop.curthr s.pop.ipl
      refine ⟨(hstate t).trans ((hsame t).trans hex), fun he => ?_⟩
      rw [hcur] at he
      rw [he, hsame t] at hst
      exact absurd (hst.symm.trans hex) nofun
    · obtain ⟨hst, hgoes, -⟩ := h.cont_goes hf hi hsw h1
      refine ⟨hgoes.turns.exited id hpop hex (fun _ => hact hst) hready hborn, fun he => ?_⟩
      exact hgoes.turns.curthr.symm.trans he

theorem Sorted.statesAgree (h : Sorted s) : StatesAgree s where
  asleep := h.asleep
  ready _ ht := h.ready ht
  current hn := by
    rcases h.phase with hg | ⟨l, hl | ⟨ipl, hl⟩⟩ | ⟨hst, -⟩
    · exact hg.1
    · exact absurd trivial (hn .schedSwitch (hl ▸ List.mem_cons_self))
    · exact absurd trivial (hn (.intrWait ipl) (hl ▸ List.mem_cons_self))
    · exact hst
  exited _ hex _ ht := h.not_exited ht hex

theorem sorted_boot (p t : ℕ) (ints : ℕ → ℤ) : Sorted (bootState p t ints) :=
  ⟨⟨filed_boot p t ints, fun _ => id⟩, .inl ⟨rfl, rfl⟩⟩

/-- In every run all of whose steps meet the condition, the states of the threads agree with the
queues, and a thread that has exited never runs again. -/
theorem states_agree {ints : ℕ → ℤ} {ops : List Op} (h : Run StateStep (bootState p t ints) ops s) :
    StatesAgree s ∧ ∀ op s' x, StateStep s op s' → (s.thr x).ktState = .exited →
      (∀ q, op ≠ .call (.thread x q)) → (s'.thr x).ktState = .exited ∧ (s'.curthr = x → s.curthr = x) := by
  have hs : Sorted s := h.invariant (sorted_boot p t ints) fun _ _ _ ha hstep => ha.step hstep
  exact ⟨hs.statesAgree, fun op s' x hstep hex hnew => hs.exited hstep hex hnew⟩

/-! ### Runs by computation -/

def State.sorts (s : State) (op : Op) : Bool :=
  s.files op && match op with
    | .call (.makeRunnable t) => (s.thr t).ktState ≠ .exited
    | .call .yield => (s.thr s.curthr).ktState ≠ .exited
    | _ => true

theorem Sorted.stateStep (h : Sorted s) (hs : s.sorts op = true) : StateStep s op (s.next op) := by
  unfold State.sorts at hs
  rw [Bool.and_eq_true] at hs
  obtain ⟨hfile, hst⟩ := hs
  obtain ⟨hen, hstep, hfine⟩ := h.toFiled.queueStep hfile
  refine ⟨hen, hstep, ?_⟩
  cases op with
  | cont | intr => trivial
  | call c =>
    cases c with
    | killAll =>
      rw [State.files, Bool.and_eq_true] at hfile
      exact absurd hfile.2 Bool.false_ne_true
    | makeRunnable u | yield =>
      refine ⟨hfine, fun x hx => ?_⟩
      cases hx
      simpa using hst
    | _ => exact ⟨hfine, fun _ hx => by cases hx⟩

theorem state_run_of {ints : ℕ → ℤ} {ops : List Op}
    (hp : Passes State.sorts State.next (bootState p t ints) ops) :
    Run StateStep (bootState p t ints) ops (ops.foldl State.next (bootState p t ints)) :=
  Run.of_passes (sorted_boot p t ints) (fun _ _ _ h hs => h.step hs) (fun _ _ h hfit => h.stateStep hfit) ops hp

/-- The idle thread sleeps and init runs; init creates a process with its thread on the run queue. -/
def initOps : List Op :=
  readyOps ++ [.call (.sleep 3), .cont, .cont, .call (.create 102), .call (.thread 2 102), .call (.makeRunnable 2)]

/-- The idle thread is asleep, init runs and the third thread is ready. -/
theorem states_agree_init : ∃ s, Run StateStep (bootState 100 0 fun _ => 0) initOps s ∧
    (s.thr 0).ktState = .sleep ∧ s.curthr = 1 ∧ (s.queue .runq).tqList = [2] ∧ StatesAgree s := by
  have hrun : Run StateStep (bootState 100 0 fun _ => 0) initOps _ := state_run_of (by decide +kernel)
  exact ⟨_, hrun, by decide +kernel, by decide +kernel, by decide +kernel, (states_agree hrun).1⟩

/-- `proc_kill_all` marks a thread as exited that is on the run queue. -/
theorem killAll_leaves_exited_queued : ∃ s s', Run StateStep (bootState 100 0 fun _ => 0) initOps s ∧
    Enabled s (.call .killAll) ∧ step s (.call .killAll) = .ok s' ∧ s'.cpu.frames = [] ∧
    (s'.thr 2).ktState = .exited ∧ 2 ∈ (s'.queue .runq).tqList ∧ ¬ StatesAgree s' := by
  have hrun : Run StateStep (bootState 100 0 fun _ => 0) initOps _ := state_run_of (by decide +kernel)
  have hs := step_next (initOps.foldl State.next (bootState 100 0 fun _ => 0)) (.call .killAll) (by decide +kernel)
  have hex : (((initOps.foldl State.next (bootState 100 0 fun _ => 0)).next (.call .killAll)).thr 2).ktState =
      .exited := by decide +kernel
  have hmem : 2 ∈ (((initOps.foldl State.next (bootState 100 0 fun _ => 0)).next (.call .killAll)).queue
      .runq).tqList := by decide +kernel
  exact ⟨_, _, hrun, ⟨by decide +kernel, trivial⟩, hs, by decide +kernel, hex, hmem,
    fun hag => hag.exited 2 hex .runq hmem⟩

end Weenix.Sched
