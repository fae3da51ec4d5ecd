import Weenix.Proofs.SchedTurn

/-! The queues and the back pointers of the threads on them. They agree as long as the run
queue is initialised while it is empty, a process is made out of an object nobody waits on,
and `proc_kill_all` does not have to take the init thread off a queue. -/

namespace Weenix.Sched

open Runs Exec List State

variable {s s' : State} {q : Queue} {c : Code} {op : Op} {t x p : ℕ} {ρ : Rights}

/-- A thread is on the queue that its back pointer names, once, and on no other; and queues know
how many threads are on them. -/
structure Filed (s : State) : Prop where
  mem : ∀ q t, t ∈ (s.queue q).tqList ↔ (s.thr t).ktWchan = some q
  nodup : ∀ q, (s.queue q).tqList.Nodup
  size : ∀ q, (s.queue q).tqSize = (s.queue q).tqList.length

namespace Filed

section
variable (h : Filed s)
include h

theorem not_mem (hw : (s.thr t).ktWchan = none) (q : Queue) : t ∉ (s.queue q).tqList := by
  rw [h.mem, hw]
  exact nofun

theorem congr (hq : s'.queue = s.queue) (hw : ∀ x, (s'.thr x).ktWchan = (s.thr x).ktWchan) : Filed s' := by
  refine ⟨fun q t => ?_, hq ▸ h.nodup, hq ▸ h.size⟩
  rw [hq, hw]
  exact h.mem q t

theorem setState (t : ℕ) (st : KtState) : Filed (s.setState t st) :=
  h.congr rfl fun x => setState_wchan s t x st

theorem link (hw : (s.thr t).ktWchan = none) (q : Queue) : Filed (s.link q t) := by
  refine ⟨fun r x => ?_, fun r => ?_, fun r => ?_⟩
  · rw [link_list, link_thr]
    by_cases hx : x = t
    · subst hx
      rw [if_pos rfl, Option.some.injEq]
      split_ifs with hr
      · exact iff_of_true mem_cons_self hr.symm
      · exact iff_of_false (h.not_mem hw r) (Ne.symm hr)
    rw [if_neg hx, ← h.mem]
    split_ifs with hr
    · rw [hr, mem_cons]
      exact or_iff_right hx
    · rfl
  · rw [link_list]
    split_ifs
    · exact nodup_cons.2 ⟨h.not_mem hw q, h.nodup q⟩
    · exact h.nodup r
  · rw [link_list, link_size]
    split_ifs
    · rw [h.size, length_cons]
      rfl
    · exact h.size r

theorem unlink (hl : (s.queue q).tqList.getLast? = some t) : Filed (s.unlink q t) := by
  have hlist := dropLast_append_getLast? t hl
  have hnodup := h.nodup q
  rw [← hlist, nodup_append] at hnodup
  have hgone : t ∉ (s.queue q).tqList.dropLast := fun hx => hnodup.2.2 t hx t (mem_singleton_self t) rfl
  refine ⟨fun r x => ?_, fun r => ?_, fun r => ?_⟩
  · rw [unlink_list, unlink_thr]
    by_cases hx : x = t
    · subst hx
      rw [if_pos rfl]
      refine iff_of_false ?_ nofun
      split_ifs with hr
      · exact hgone
      intro hm
      have hq := (h.mem q x).1 (mem_of_getLast? hl)
      exact hr (Option.some.inj (((h.mem r x).1 hm).symm.trans hq))
    · rw [if_neg hx, ← h.mem]
      split_ifs with hr
      · rw [hr]
        refine ⟨mem_of_mem_dropLast, fun hm => ?_⟩
        rw [← hlist] at hm
        exact (mem_append.1 hm).resolve_right fun he => hx (mem_singleton.1 he)
      · rfl
  · rw [unlink_list]
    split_ifs
    · exact hnodup.1
    · exact h.nodup r
  · rw [unlink_list, unlink_size]
    split_ifs
    · rw [h.size]
      conv_lhs => rw [← hlist]
      rw [length_append, length_singleton]
      omega
    · exact h.size r

theorem clear (hq : (s.queue q).tqList = []) : Filed (schedQueueInit s q) := by
  have hlist : ∀ r, ((schedQueueInit s q).queue r).tqList = (s.queue r).tqList := by
    intro r
    rw [reset_list]
    split_ifs with hr
    · rw [hr, hq]
    · rfl
  refine ⟨fun r x => ?_, fun r => ?_, fun r => ?_⟩
  · rw [hlist]
    exact h.mem r x
  · rw [hlist]
    exact h.nodup r
  rw [hlist, reset_size]
  split_ifs with hr
  · rw [hr, hq]
    rfl
  · exact h.size r

/-- `list_remove` of a thread on `r`, with `tq_size`. -/
theorem detached {r : Queue} (hr : (s.thr t).ktWchan = some r) : Filed (s.detached t r) := by
  have hlist := State.detached_list s t r
  have hsize : ∀ q, ((s.detached t r).queue q).tqSize =
      if q = r then (s.queue r).tqSize - 1 else (s.queue q).tqSize := fun q => setQueue_size _ r q _
  refine ⟨fun q x => ?_, fun q => ?_, fun q => ?_⟩
  · rw [hlist, (h.nodup q).mem_erase_iff, detached_thr, h.mem]
    split_ifs with hx
    · exact iff_of_false (fun hn => hn.1 hx) id
    · exact and_iff_right hx
  · rw [hlist]
    exact (h.nodup q).erase t
  rw [hlist, hsize]
  split_ifs with hq
  · have hmem := (h.mem r t).2 hr
    have hpos := length_pos_of_mem hmem
    rw [hq, length_erase_of_mem hmem, h.size]
    omega
  have hnot : t ∉ (s.queue q).tqList := by
    rw [h.mem, hr]
    exact fun he => hq (Option.some.inj he).symm
  rw [erase_of_not_mem hnot]
  exact h.size q

theorem newThread (hq : ∀ q, t ∉ (s.queue q).tqList) (p : ℕ) : Filed (s.newThread t p) := by
  refine ⟨fun r x => ?_, h.nodup, h.size⟩
  rw [newThread_thr]
  split_ifs with hx
  · exact iff_of_false (hx ▸ hq r) id
  · exact h.mem r x

end

end Filed

theorem Turn.filed (h : Turn ρ s s') (hf : Filed s) : Filed s' := by
  cases h with
  | alike h => exact hf.congr h.queue h.wchan
  | wake q t _ hl =>
    refine ((hf.unlink hl).setState t .run).link ?_ .runq
    rw [setState_wchan, unlink_thr, if_pos rfl]
  | ready t _ hw =>
    refine (hf.setState t .run).link ?_ .runq
    rwa [setState_wchan]
  | sleep q st _ _ _ hw =>
    refine (hf.setState _ st).link ?_ q
    rwa [setState_wchan]
  | exit | giveUp => exact hf.setState _ _
  | cancel t r _ _ hr =>
    refine (hf.detached hr).link ?_ .runq
    rw [detached_thr, if_pos rfl]
  | flag t => exact hf.congr rfl (setThr_field (·.ktWchan) rfl)
  | born t p _ _ hq => exact hf.newThread hq p
  | clear q hq => exact hf.clear hq

/-- Whoever is on the run queue stays there. -/
theorem Turn.runq (h : Turn ρ s s') (hx : x ∈ (s.queue .runq).tqList) : x ∈ (s'.queue .runq).tqList := by
  cases h with
  | alike h =>
    rw [h.queue]
    exact hx
  | wake q t hq hl =>
    refine mem_cons_of_mem t ?_
    change x ∈ ((s.unlink q t).queue .runq).tqList
    rwa [unlink_list, if_neg hq.symm]
  | ready t =>
    exact mem_cons_of_mem t hx
  | sleep q st _ hq =>
    rw [link_list, if_neg hq.symm]
    exact hx
  | cancel t r =>
    rw [link_list, if_pos rfl, mem_cons]
    by_cases hxt : x = t
    · exact .inl hxt
    refine .inr ?_
    rw [State.detached_list]
    exact (mem_erase_of_ne hxt).2 hx
  | clear q hq =>
    rw [reset_list]
    split_ifs with hr
    · rw [hr, hq] at hx
      exact hx
    · exact hx
  | exit | giveUp | flag | born => exact hx

/-- Nobody on the run queue is lost: it is still there, or runs, or has exited. -/
def KeepsRunq (s s' : State) : Prop :=
  ∀ t ∈ (s.queue .runq).tqList, (s.thr t).ktState ≠ .exited → t ∈ (s'.queue .runq).tqList ∨ s'.curthr = t

structure KeepsQueues (s s' : State) : Prop where
  filed : Filed s'
  runq : KeepsRunq s s'

theorem Turns.keepsQueues (h : Turns ρ s s') (hf : Filed s) : KeepsQueues s s' := by
  have hall := h.invariant (I := fun s' => Filed s' ∧ ∀ t ∈ (s.queue .runq).tqList, t ∈ (s'.queue .runq).tqList)
    (fun a b ha hd => ⟨hd.filed ha.1, fun t ht => hd.runq (ha.2 t ht)⟩) ⟨hf, fun _ ht => ht⟩
  exact ⟨hall.1, fun t ht _ => .inl (hall.2 t ht)⟩

/-! ### The switch -/

/-- The loop of `sched_switch` leaves out nobody but threads that have exited. -/
theorem schedPick_keepsQueues (n : ℕ) (h : schedPick n s = .ok s') : Filed s → KeepsQueues s s' := by
  have hleft : ∀ {s : State} {t x}, (s.queue .runq).tqList.getLast? = some t → x ∈ (s.queue .runq).tqList → x ≠ t →
      x ∈ ((s.unlink .runq t).queue .runq).tqList := by
    intro s t x hl hx hxt
    rw [← dropLast_append_getLast? t hl] at hx
    exact (mem_append.1 hx).resolve_right fun he => hxt (mem_singleton.1 he)
  refine schedPick_rec (M := fun s s' => Filed s → KeepsQueues s s') (fun {s t} hl _ hf => ?_)
    (fun {s s' t} hl hex hmore hf => ?_) n h
  · refine ⟨(hf.unlink hl).congr rfl fun _ => rfl, fun x hx _ => ?_⟩
    by_cases hxt : x = t
    · exact .inr hxt.symm
    · exact .inl (hleft hl hx hxt)
  obtain ⟨h1, h2⟩ := hmore ((hf.unlink hl).congr rfl fun _ => rfl)
  refine ⟨h1, fun x hx hst => h2 x (hleft hl hx fun he => hst (he ▸ hex)) ?_⟩
  exact fun he => hst (((sameThreads_unlink s .runq t).ktState x).symm.trans he)

theorem KeepsQueues.congr {s1 : State} (h : KeepsQueues s s1) (hq : s'.queue = s1.queue)
    (hw : ∀ x, (s'.thr x).ktWchan = (s1.thr x).ktWchan) (hc : s'.curthr = s1.curthr) : KeepsQueues s s' := by
  refine ⟨h.filed.congr hq hw, fun t ht hst => ?_⟩
  rw [hq, hc]
  exact h.runq t ht hst

theorem Filed.alike (hf : Filed s) (h : Alike s s') : KeepsQueues s s' :=
  ⟨hf.congr h.queue h.wchan, fun _ ht _ => .inl (h.queue ▸ ht)⟩

theorem switchTail_keepsQueues {s1 : State} {old ipl : ℕ} (h : KeepsQueues s s1) :
    KeepsQueues s (switchTail s1 old ipl).2 := by
  unfold switchTail
  split_ifs
  · exact h.congr rfl (fun _ => rfl) rfl
  · exact h.congr rfl (fun x => (contextSwitch_same _ old s1.curthr x).1) rfl

theorem schedSwitch_keepsQueues {b : Bool} (hf : Filed s) (h : schedSwitch s = .ok (b, s')) : KeepsQueues s s' := by
  by_cases hne : (s.queue .runq).tqList = []
  · rw [schedSwitch_empty hne] at h
    cases h
    exact hf.alike (.of_thr rfl rfl rfl)
  rw [schedSwitch_pick (hf.size .runq).ge hne] at h
  obtain ⟨s1, h1, h2⟩ := ok_of_map h
  have hpick : KeepsQueues s s1 := by
    obtain ⟨h3, h4⟩ := schedPick_keepsQueues _ h1 (hf.congr rfl fun _ => rfl)
    exact ⟨h3, h4⟩
  have hs' : s' = (switchTail s1 s.curthr s.ipl).2 := by rw [h2]
  rw [hs']
  exact switchTail_keepsQueues hpick

/-! ### Killing all processes -/

/-- Marking the processes and their threads changes no queue. -/
theorem killProcs_same (l : List ℕ) {init init' : Option ℕ} (h : killProcs l init s = .ok (init', s')) :
    s'.queue = s.queue ∧ s'.curthr = s.curthr ∧ ∀ x, (s'.thr x).ktWchan = (s.thr x).ktWchan := by
  refine killProcs_rel (M := fun s s' => s'.queue = s.queue ∧ s'.curthr = s.curthr ∧
    ∀ x, (s'.thr x).ktWchan = (s.thr x).ktWchan) (fun _ => ⟨rfl, rfl, fun _ => rfl⟩) (fun h1 h2 => ?_)
    (fun s t => ⟨rfl, rfl, fun x => setState_wchan s t x .exited⟩) (fun _ _ => ⟨rfl, rfl, fun _ => rfl⟩) l h
  exact ⟨h2.1.trans h1.1, h2.2.1.trans h1.2.1, fun x => (h2.2.2 x).trans (h1.2.2 x)⟩

/-- The init thread that `proc_kill_all` turns to is running or on no queue. -/
def KillFine (s : State) : Prop :=
  ∀ init s₁, killProcs s.procList none s = .ok (some init, s₁) → init = s.curthr ∨ (s.thr init).ktWchan = none

theorem procKillAll_iff (hf : Filed s) (h : procKillAll s = .ok s') : KeepsQueues s s' ↔ KillFine s := by
  obtain ⟨init, s1, h1, h2⟩ := procKillAll_ok h
  obtain ⟨hq, hc, hw⟩ := killProcs_same _ h1
  have hfine : KillFine s ↔ init = s.curthr ∨ (s.thr init).ktWchan = none := by
    refine ⟨fun hk => hk init s1 h1, fun hk i s2 h3 => ?_⟩
    obtain ⟨hi, -⟩ := Prod.mk.inj (Except.ok.inj (h1.symm.trans h3))
    cases hi
    exact hk
  rw [hfine]
  rw [hc] at h2
  rcases h2 with ⟨hne, rfl⟩ | ⟨rfl, rfl⟩
  · rw [or_iff_right hne]
    have hlist : ∀ r, ((contextSwitch ((s1.turnTo init).remove init) s.curthr init).queue r) =
        { s.queue r with tqList := (s.queue r).tqList.erase init } := by
      intro r
      rw [← hq]
      rfl
    constructor
    · intro hk
      cases hr : (s.thr init).ktWchan with
      | none => rfl
      | some r =>
        -- one thread less is on the queue, but its size is as it was
        have hmem := (hf.mem r init).2 hr
        have hpos := length_pos_of_mem hmem
        have hsize := hk.filed.size r
        rw [hlist, hf.size, length_erase_of_mem hmem] at hsize
        omega
    · intro hnone
      have hqueue : (contextSwitch ((s1.turnTo init).remove init) s.curthr init).queue = s.queue := by
        funext r
        rw [hlist, erase_of_not_mem (hf.not_mem hnone r)]
      refine ⟨hf.congr hqueue fun x => ?_, fun x hx _ => .inl (hqueue ▸ hx)⟩
      rw [(contextSwitch_same _ s.curthr init x).1, remove_thr]
      split_ifs with hx
      · rw [hx, hnone]
      · exact hw x
  · refine iff_of_true ?_ (.inl rfl)
    refine (hf.alike (Alike.of_thr rfl rfl rfl : Alike s s)).congr hq (fun x => ?_) rfl
    rw [(contextSwitch_same _ s.curthr s.curthr x).1]
    exact hw x

/-! ### Steps and runs -/

/-- The run queue is initialised while it is empty, nobody waits on the object of a new process,
and `proc_kill_all` finds the init thread running or on no queue. -/
def QueueFine (s : State) : Op → Prop
  | .call .killAll => KillFine s
  | .call c => c.ClearsFine s
  | _ => True

theorem FirstFine.of_filed (hs : schedMakeRunnable s t = .ok s') (hk : Filed s') (hf : Filed s) : FirstFine s t := by
  intro hpid hfirst
  by_contra hne
  obtain ⟨x, hx⟩ := exists_mem_of_ne_nil _ hne
  unfold schedMakeRunnable at hs
  split_ifs at hs with hw hcond
  · obtain ⟨-, rfl⟩ := ktqueueEnqueue_ok hs
    -- `x` was on the run queue and still points there
    have hxt : x ≠ t := by
      rintro rfl
      exact hw ((hf.mem .runq x).1 hx)
    have hmem := (hk.mem .runq x).2 (by
      rw [link_thr, if_neg hxt, setState_wchan]
      exact (hf.mem .runq x).1 hx)
    have hnil : x ∈ ((schedQueueInit s .runq).queue .runq).tqList := (mem_cons.1 hmem).resolve_left hxt
    cases hnil
  · exact hcond ⟨hpid, hfirst⟩

theorem Call.ClearsFine.of_filed {c : Call} (hs : call s c = .ok s') (hk : Filed s') (hf : Filed s) : c.ClearsFine s := by
  cases c with
  | makeRunnable t => exact FirstFine.of_filed hs hk hf
  | yield =>
    obtain ⟨s1, h1, h2⟩ := ok_of_bind hs
    cases h2
    exact FirstFine.of_filed h1 (hk.congr rfl fun _ => rfl) hf
  | create p =>
    have hsame := procCreate_same hs
    by_contra hne
    obtain ⟨x, hx⟩ := exists_mem_of_ne_nil _ hne
    have hmem := (hk.mem (.wait p) x).2 (by
      rw [hsame.thr]
      exact (hf.mem _ x).1 hx)
    rw [hsame.queue, reset_list, if_pos rfl] at hmem
    cases hmem
  | _ => trivial

def anyTurn : Rights := ⟨True, True, fun _ => True, fun _ => True⟩

theorem call_iff {c : Call} (hf : Filed s) (hen : Enabled s (.call c)) (hs : call s c = .ok s') :
    KeepsQueues s s' ↔ QueueFine s (.call c) := by
  by_cases hk : c = .killAll
  · subst hk
    exact procKillAll_iff hf hs
  have hfine : QueueFine s (.call c) ↔ c.ClearsFine s := by
    cases c with
    | killAll => exact absurd rfl hk
    | _ => rfl
  rw [hfine]
  refine ⟨fun hkeep => Call.ClearsFine.of_filed hs hkeep.filed hf, fun hc => ?_⟩
  have hgoes : Goes anyTurn s s' :=
    call_goes hen hk hc (fun _ => trivial) (fun _ _ => trivial) (fun _ _ _ => trivial) hs
  exact hgoes.turns.keepsQueues hf

theorem cont_keepsQueues {b : Bool} (hf : Filed s) (hs : exec s c = .ok (b, s')) : KeepsQueues s s' := by
  by_cases hn : c.Neutral
  · have hgoes : Goes anyTurn s s' := exec_goes hn hs
    exact hgoes.turns.keepsQueues hf
  cases c with
  | schedSwitch => exact schedSwitch_keepsQueues hf hs
  | switchTail old ipl =>
    have hs' : s' = (switchTail s old ipl).2 := by rw [Except.ok.inj hs]
    rw [hs']
    exact switchTail_keepsQueues (hf.alike (.of_thr rfl rfl rfl))
  | contextSwitch old ipl =>
    cases hs
    exact (hf.alike (Alike.of_thr rfl rfl rfl : Alike s s)).congr rfl
      (fun x => (contextSwitch_same _ old s.curthr x).1) rfl
  | _ => exact absurd trivial hn

theorem step_iff (hf : Filed s) (hen : Enabled s op) (hs : step s op = .ok s') :
    KeepsQueues s s' ↔ QueueFine s op := by
  cases op with
  | call c => exact call_iff hf hen hs
  | cont =>
    refine iff_of_true ?_ trivial
    obtain ⟨c, l, b, hfr, -, h1⟩ := step_cont hen hs
    have hpop : Filed s.pop := hf.congr rfl fun _ => rfl
    obtain ⟨h2, h3⟩ := cont_keepsQueues hpop h1
    exact ⟨h2, h3⟩
  | intr ws =>
    refine iff_of_true ?_ trivial
    rcases step_intr hen hs with ⟨s1, ipl, l, -, h1, -, rfl⟩ | ⟨-, h1⟩
    · have hturns : Turns anyTurn s s1 := interrupt_turns ws h1
      exact (hturns.keepsQueues hf).congr rfl (fun _ => rfl) rfl
    · have hturns : Turns anyTurn s s' := interrupt_turns ws h1
      exact hturns.keepsQueues hf

theorem filed_boot (p t : ℕ) (ints : ℕ → ℤ) : Filed (bootState p t ints) :=
  ⟨fun _ _ => iff_of_false nofun nofun, fun _ => nodup_nil, fun _ => rfl⟩

/-! ### Runs by computation -/

def State.enables (s : State) : Op → Bool
  | .intr _ => match s.cpu.frames with
    | [] => s.ipl = IPL_LOW
    | .intrWait _ :: _ => true
    | _ => false
  | .cont => match s.cpu.frames with
    | [] | .intrWait _ :: _ => false
    | _ => true
  | .call c => s.cpu.frames = [] && match c with
    | .makeRunnable t => t ∈ s.thrObjs && t ≠ s.curthr
    | .create p => p ∉ s.procObjs
    | .thread t p => t ∉ s.thrObjs && t ≠ s.curthr && (s.thr t).ktWchan = none && p ∈ s.procObjs
    | .cancel t _ => t ∈ s.thrObjs
    | .kill p _ => p ∈ s.procObjs
    | _ => true

theorem Filed.enabled (hf : Filed s) (h : s.enables op = true) : Enabled s op := by
  cases op with
  | intr ws =>
    unfold State.enables at h
    cases hfr : s.cpu.frames with
    | nil =>
      rw [hfr] at h
      exact .inr ⟨hfr, by simpa using h⟩
    | cons c l =>
      rw [hfr] at h
      cases c with
      | intrWait ipl => exact .inl ⟨ipl, l, hfr⟩
      | _ => cases h
  | cont =>
    unfold State.enables at h
    cases hfr : s.cpu.frames with
    | nil =>
      rw [hfr] at h
      cases h
    | cons c l =>
      refine ⟨c, l, hfr, ?_⟩
      rintro ipl rfl
      rw [hfr] at h
      cases h
  | call c =>
    unfold State.enables at h
    rw [Bool.and_eq_true, decide_eq_true_eq] at h
    refine ⟨h.1, ?_⟩
    obtain ⟨-, h⟩ := h
    cases c with
    | makeRunnable | create | cancel | kill => simpa using h
    | thread t p =>
      simp only [Bool.and_eq_true, decide_eq_true_eq] at h
      exact ⟨h.1.1.1, h.1.1.2, hf.not_mem h.1.2, h.2⟩
    | _ => trivial

def State.firstFine (s : State) (t : ℕ) : Bool :=
  (s.proc (s.thr t).ktProc).pPid ≠ 0 || !s.schedFirst || (s.queue .runq).tqList = []

theorem State.first_fine (h : s.firstFine t = true) : FirstFine s t := by
  intro hpid hfirst
  simpa [State.firstFine, hpid, hfirst] using h

def State.orders (s : State) : Op → Bool
  | .call .killAll => false
  | .call (.makeRunnable t) => s.firstFine t
  | .call .yield => s.firstFine s.curthr
  | .call (.create p) => (s.queue (.wait p)).tqList = []
  | _ => true

theorem State.queue_fine (h : s.orders op = true) : QueueFine s op := by
  cases op with
  | cont | intr => trivial
  | call c =>
    cases c with
    | killAll => cases h
    | makeRunnable t | yield => exact first_fine h
    | create p => exact of_decide_eq_true (p := (s.queue (.wait p)).tqList = []) h
    | _ => trivial

def State.files (s : State) (op : Op) : Bool := (step s op).isOk && s.enables op && s.orders op

def QueueStep (s : State) (op : Op) (s' : State) : Prop := Enabled s op ∧ step s op = .ok s' ∧ QueueFine s op

/-- In a run all of whose steps meet the condition the queues are in order, and the next step
keeps them so, and loses nobody on the run queue, exactly if it meets the condition as well. -/
theorem keepsQueues_iff {ints : ℕ → ℤ} {ops : List Op} (h : Run QueueStep (bootState p t ints) ops s)
    (hen : Enabled s op) (hs : step s op = .ok s') : Filed s ∧ (KeepsQueues s s' ↔ QueueFine s op) := by
  have hf : Filed s := h.invariant (filed_boot p t ints) fun a e b ha hstep =>
    ((step_iff ha hstep.1 hstep.2.1).2 hstep.2.2).filed
  exact ⟨hf, step_iff hf hen hs⟩

theorem Filed.queueStep (hf : Filed s) (h : s.files op = true) : QueueStep s op (s.next op) := by
  rw [State.files, Bool.and_eq_true, Bool.and_eq_true] at h
  obtain ⟨⟨hok, hen⟩, hfine⟩ := h
  exact ⟨hf.enabled hen, step_next s op hok, queue_fine hfine⟩

theorem queue_run_of {ints : ℕ → ℤ} {ops : List Op}
    (hp : Passes State.files State.next (bootState p t ints) ops) :
    Run QueueStep (bootState p t ints) ops (ops.foldl State.next (bootState p t ints)) :=
  Run.of_passes (filed_boot p t ints) (fun _ _ _ hf hs => ((step_iff hf hs.1 hs.2.1).2 hs.2.2).filed)
    (fun _ _ hf hfit => hf.queueStep hfit) ops hp

/-- A process with its thread on the run queue. -/
def readyOps : List Op := [.call (.create 101), .call (.thread 1 101), .call (.makeRunnable 1)]

/-- The idle thread yields and the other thread runs. -/
theorem keepsQueues_yield : ∃ s s', Run QueueStep (bootState 100 0 fun _ => 0) (readyOps ++ [.call (.sleep 3)]) s ∧
    step s .cont = .ok s' ∧ s'.curthr = 1 ∧ KeepsQueues s s' := by
  have hrun : Run QueueStep (bootState 100 0 fun _ => 0) (readyOps ++ [.call (.sleep 3)]) _ :=
    queue_run_of (by decide +kernel)
  have hen : Enabled ((readyOps ++ [Op.call (.sleep 3)]).foldl State.next (bootState 100 0 fun _ => 0)) .cont :=
    ⟨.schedSwitch, [], by decide +kernel, fun _ => Code.noConfusion⟩
  have hs := step_next ((readyOps ++ [Op.call (.sleep 3)]).foldl State.next (bootState 100 0 fun _ => 0)) .cont
    (by decide +kernel)
  exact ⟨_, _, hrun, hs, by decide +kernel, ((keepsQueues_iff hrun hen hs).2).2 trivial⟩

/-- `proc_kill_all` takes the init thread off the run queue, whose size stays 1. -/
theorem killAll_miscounts : ∃ s s', Run QueueStep (bootState 100 0 fun _ => 0) readyOps s ∧
    Enabled s (.call .killAll) ∧ step s (.call .killAll) = .ok s' ∧
    (s'.queue .runq).tqList = [] ∧ (s'.queue .runq).tqSize = 1 ∧ ¬ KeepsQueues s s' := by
  have hrun : Run QueueStep (bootState 100 0 fun _ => 0) readyOps _ := queue_run_of (by decide +kernel)
  have hs := step_next (readyOps.foldl State.next (bootState 100 0 fun _ => 0)) (.call .killAll) (by decide +kernel)
  refine ⟨_, _, hrun, ⟨by decide +kernel, trivial⟩, hs, by decide +kernel, by decide +kernel, fun hk => ?_⟩
  exact absurd (hk.filed.size .runq) (by decide +kernel)

-- a thread waits on the run queue when the first thread of the idle process is made runnable:
-- the run queue is emptied and the thread lost
example : ∃ s s', Run QueueStep (bootState 100 0 fun _ => 0) readyOps s ∧
    step s (.call .yield) = .ok s' ∧ (s.queue .runq).tqList = [1] ∧ (s'.queue .runq).tqList = [0] ∧
    (s'.thr 1).ktWchan = some .runq := by
  have hrun : Run QueueStep (bootState 100 0 fun _ => 0) readyOps _ := queue_run_of (by decide +kernel)
  have hs := step_next (readyOps.foldl State.next (bootState 100 0 fun _ => 0)) (.call .yield) (by decide +kernel)
  exact ⟨_, _, hrun, hs, by decide +kernel, by decide +kernel, by decide +kernel⟩

end Weenix.Sched
