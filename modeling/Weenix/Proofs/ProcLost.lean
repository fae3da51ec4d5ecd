import Weenix.Proofs.ProcSys

/-! Whether a process sleeps in `do_waitpid(-1)` while a child of it has exited. An exit wakes
the parent of the process that exits. A child that had exited before and moves to the init
process with its siblings wakes nobody, so init sleeps on if it slept. -/

namespace Weenix.Sched

open Runs Exec Function List State

variable {s s' s₁ u : State} {op : Op} {c : Code} {l : List Code} {t x p q i parent idle : ℕ} {status : ℤ}
  {r : Queue} {ints : ℕ → ℤ}

def WaitsAny (s : State) (x : ℕ) : Prop :=
  x ∈ (s.queue (.wait (s.thr x).ktProc)).tqList ∧ ∃ st, .waitAny st ∈ point s x

def HasExited (s : State) (p : ℕ) : Prop := ∃ c ∈ (s.proc p).pChildren, (s.proc c).pState = .dead

def Lost (s : State) : Prop := ∃ x, WaitsAny s x ∧ HasExited s (s.thr x).ktProc

/-- On `p_wait` are threads of the process itself, and they cannot be cancelled. -/
def Waiters (s : State) : Prop :=
  ∀ p x, x ∈ (s.queue (.wait p)).tqList → (s.thr x).ktProc = p ∧ (s.thr x).ktState = .sleep

theorem Lost.mono (hw : ∀ x, WaitsAny s' x → WaitsAny s x ∧ (s'.thr x).ktProc = (s.thr x).ktProc)
    (he : ∀ p, HasExited s' p → HasExited s p) (h : Lost s') : Lost s := by
  obtain ⟨x, hx, hex⟩ := h
  obtain ⟨hx', hp⟩ := hw x hx
  exact ⟨x, hx', he _ (hp ▸ hex)⟩

/-! ### Calls that do not concern `p_wait` -/

/-- The queues `p_wait` stay, and so do the threads on them. -/
structure Away (s s' : State) : Prop where
  list : ∀ p, (s'.queue (.wait p)).tqList = (s.queue (.wait p)).tqList
  thr : ∀ p, ∀ x ∈ (s.queue (.wait p)).tqList,
    (s'.thr x).ktState = (s.thr x).ktState ∧ (s'.thr x).ktProc = (s.thr x).ktProc

namespace Away

theorem of_same (hq : s'.queue = s.queue) (ht : s'.thr = s.thr) : Away s s' :=
  ⟨fun _ => by rw [hq], fun _ _ _ => by rw [ht]; exact ⟨rfl, rfl⟩⟩

theorem trans (h1 : Away s s₁) (h2 : Away s₁ s') : Away s s' := by
  refine ⟨fun p => (h2.list p).trans (h1.list p), fun p x hx => ?_⟩
  obtain ⟨a1, a2⟩ := h1.thr p x hx
  obtain ⟨b1, b2⟩ := h2.thr p x (by rwa [h1.list])
  exact ⟨b1.trans a1, b2.trans a2⟩

/-- Only `t` changes, which is on none of these queues. -/
theorem moved (ht : ∀ p, t ∉ (s.queue (.wait p)).tqList)
    (hq : ∀ p, (s'.queue (.wait p)).tqList = (s.queue (.wait p)).tqList)
    (hthr : ∀ x, x ≠ t → s'.thr x = s.thr x) : Away s s' := by
  refine ⟨hq, fun p x hx => ?_⟩
  rw [hthr x]
  · exact ⟨rfl, rfl⟩
  rintro rfl
  exact ht p hx

theorem waiters (h : Away s s') (hw : Waiters s) : Waiters s' := by
  intro p x hx
  rw [h.list] at hx
  rw [(h.thr p x hx).1, (h.thr p x hx).2]
  exact hw p x hx

section
variable (h : Away s s')
  (hpt : ∀ p, ∀ x ∈ (s.queue (.wait p)).tqList, ∀ st, Code.waitAny st ∈ point s' x ↔ Code.waitAny st ∈ point s x)
include h hpt

theorem waitsAny (x : ℕ) : WaitsAny s' x ↔ WaitsAny s x ∧ (s'.thr x).ktProc = (s.thr x).ktProc := by
  constructor
  · rintro ⟨hx, st, hst⟩
    rw [h.list] at hx
    have hp := (h.thr _ x hx).2
    refine ⟨⟨?_, st, (hpt _ x hx st).1 hst⟩, hp⟩
    rwa [← hp]
  · rintro ⟨⟨hx, st, hst⟩, hp⟩
    refine ⟨?_, st, (hpt _ x hx st).2 hst⟩
    rwa [h.list, hp]

/-- If the processes and the stacks of the threads on these queues stay too, nothing changes. -/
theorem lost_iff
    (hproc : ∀ x, (s'.proc x).pChildren = (s.proc x).pChildren ∧ (s'.proc x).pState = (s.proc x).pState) :
    Lost s' ↔ Lost s := by
  have hex : ∀ p, HasExited s' p ↔ HasExited s p := by
    intro p
    rw [HasExited, HasExited, (hproc p).1]
    refine exists_congr fun c => and_congr_right fun _ => ?_
    rw [(hproc c).2]
  constructor
  · exact Lost.mono (fun x hx => (h.waitsAny hpt x).1 hx) fun p => (hex p).1
  rintro ⟨x, hx, hxe⟩
  have hp := (h.thr _ x hx.1).2
  refine ⟨x, (h.waitsAny hpt x).2 ⟨hx, hp⟩, ?_⟩
  rw [hp]
  exact (hex _).2 hxe

end

end Away

/-- The changes of calls that do not concern `p_wait`. -/
def apart : Scope := ⟨True, fun q => ∀ p, q ≠ .wait p, fun _ => True, fun _ => True⟩

theorem Queued.apart (h : Queued s) (hx : x ∈ (s.queue r).tqList) (hr : ∀ p, r ≠ .wait p) (p : ℕ) :
    x ∉ (s.queue (.wait p)).tqList := by
  intro hm
  have hchan := (h.mem r x hx).symm.trans (h.mem _ x hm)
  exact hr p (Option.some.inj hchan)

theorem Does.away (h : Does apart s s') (ho : Queued s) : Away s s' := by
  cases h with
  | other h => exact .of_same h.queue h.thr
  | push | delThread => exact .of_same rfl rfl
  | link q t hq hw =>
    refine .moved (fun p => ho.not_mem hw _) (fun p => ?_) fun x hx => ?_
    · rw [link_list, if_neg (hq p).symm]
    · rw [link_thr, if_neg hx]
  | unlink q t hq hl =>
    refine .moved (ho.apart (mem_of_getLast? hl) hq) (fun p => ?_) fun x hx => ?_
    · rw [unlink_list, if_neg (hq p).symm]
    · rw [unlink_thr, if_neg hx]
  | state t st hw =>
    refine .moved (fun p => ho.not_mem hw _) (fun _ => rfl) fun x hx => ?_
    rw [setState_thr, if_neg hx]
  | reset q hq =>
    refine ⟨fun p => ?_, fun _ _ _ => ⟨rfl, rfl⟩⟩
    rw [reset_list, if_neg (hq p).symm]
  | newThread t p _ _ _ hq =>
    refine .moved (fun p => hq _) (fun _ => rfl) fun x hx => ?_
    rw [newThread_thr, if_neg hx]

theorem Effects.away (h : Effects apart s s') (ho : Orderly s) : Away s s' := by
  have hboth : Orderly s' ∧ Away s s' := by
    refine h.invariant (I := fun x => Orderly x ∧ Away s x) (fun a b ha hd => ?_) ⟨ho, .of_same rfl rfl⟩
    exact ⟨hd.orderly ha.1, ha.2.trans (hd.away ha.1.queued)⟩
  exact hboth.2

theorem Acts.away (h : Acts apart s s') (ho : Orderly s) : Away s s' := Effects.away h.effects ho

theorem quiet_away {c : Call} (hc : c.Quiet) (hen : Enabled s (.call c)) (hw : (s.thr s.curthr).ktWchan = none)
    (ho : Orderly s) (hs : call s c = .ok s') : Away s s' := by
  have hn : Unqueued apart s := .inl trivial
  have hsleepy : Sleepy apart := ⟨fun _ => Queue.noConfusion, fun _ _ => Queue.noConfusion, trivial, fun _ => trivial⟩
  have hlock : ∀ m, c.Locks m → Away s s' := by
    intro m hm
    obtain ⟨s₁, k, hacts, rfl⟩ := lock_acts hsleepy hw hn (fun _ => Queue.noConfusion) (fun _ => ⟨trivial, trivial⟩) hm hs
    exact (hacts.away ho).trans (.of_same rfl rfl)
  cases c with
  | lock m => exact hlock m (.inl rfl)
  | lockCancellable m => exact hlock m (.inr (.inl rfl))
  | unlock m => exact hlock m (.inr (.inr rfl))
  | create | thread | exit | cancel | kill | killAll | waitpid | setCwd | openFile => exact hc.elim
  | _ => exact Acts.away (quiet_acts hsleepy hw hn (by trivial) (by trivial) hen hs) ho

/-! ### Exit -/

theorem adopt_pPproc (hi : s.procInitproc = some i) (h : adopt s p = .ok s') :
    s'.procInitproc = some i ∧ (s'.proc p).pPproc = some i ∧ ∀ x, x ≠ p →
      (s'.proc x).pPproc = (s.proc x).pPproc ∧ (s'.proc x).pChildLink = (s.proc x).pChildLink := by
  rw [adopt, hi] at h
  cases h
  refine ⟨hi, ?_, fun x hx => ?_⟩
  · by_cases hpi : p = i
    · simp [State.setProc, hpi]
    · simp [State.setProc, update_of_ne hpi]
  by_cases hxi : x = i
  · subst hxi
    simp [State.setProc, update_of_ne hx]
  · simp [State.setProc, update_of_ne hx, update_of_ne hxi]

theorem childRemove_link (s : State) (p : ℕ) (hx : x ≠ p) :
    ((childRemove s p).proc x).pPproc = (s.proc x).pPproc ∧
      ((childRemove s p).proc x).pChildLink = (s.proc x).pChildLink := by
  simp [childRemove, setProc_proc, hx]

/-- The children that move have the init process as their parent. -/
theorem reparent_pPproc (x : ℕ) (l : List ℕ) (hi : s.procInitproc = some i) (h : reparent l s = .ok s')
    (hx : ((s.proc x).pPproc = some i ∨ x ∈ l ∧ (s.proc x).pChildLink = true)) : (s'.proc x).pPproc = some i := by
  induction l generalizing s s' with
  | nil =>
    cases h
    exact hx.resolve_right fun hm => by cases hm.1
  | cons p l ih =>
    unfold reparent at h
    split_ifs at h with hl
    · obtain ⟨s₁, h1, h2⟩ := ok_of_bind h
      obtain ⟨hi1, hp, hother⟩ := adopt_pPproc (s := childRemove s p) hi h1
      refine ih hi1 h2 ?_
      by_cases hxp : x = p
      · exact .inl (hxp ▸ hp)
      obtain ⟨h3, h4⟩ := hother x hxp
      obtain ⟨h5, h6⟩ := childRemove_link s p hxp
      rw [h3, h4, h5, h6]
      exact hx.imp_right fun hm => ⟨(mem_cons.1 hm.1).resolve_left hxp, hm.2⟩
    · refine ih hi h (hx.imp_right fun hm => ⟨(mem_cons.1 hm.1).resolve_left ?_, hm.2⟩)
      rintro rfl
      exact hl hm.2

/-- With at most one thread in the parent, the wake-up reaches whoever is on `p_wait`. -/
theorem wakeParent_empties {ts : List ℕ} (hlen : ts.length ≤ 1) (ho : Queued u)
    (hown : ∀ x ∈ (u.queue (.wait parent)).tqList, ts = [x] ∧ (u.thr x).ktState = .sleep)
    (h : wakeParent parent ts u = .ok s') :
    (∀ q, (s'.queue (.wait q)).tqList = if q = parent then [] else (u.queue (.wait q)).tqList) ∧
      ∀ x, x ∉ (u.queue (.wait parent)).tqList → (s'.thr x).ktState = (u.thr x).ktState := by
  have hidle : (u.queue (.wait parent)).tqList = [] → s' = u →
      (∀ q, (s'.queue (.wait q)).tqList = if q = parent then [] else (u.queue (.wait q)).tqList) ∧
        ∀ x, x ∉ (u.queue (.wait parent)).tqList → (s'.thr x).ktState = (u.thr x).ktState := by
    rintro hnil rfl
    refine ⟨fun q => ?_, fun _ _ => rfl⟩
    split_ifs with hq
    · rw [hq, hnil]
    · rfl
  cases ts with
  | nil =>
    refine hidle (eq_nil_iff_forall_not_mem.2 fun x hx => ?_) (Except.ok.inj h).symm
    cases (hown x hx).1
  | cons t ts =>
    obtain rfl : ts = [] := by simpa using hlen
    unfold wakeParent at h
    split_ifs at h with hst
    · obtain ⟨⟨r, s₁⟩, h1, h2⟩ := ok_of_bind h
      cases h2
      rcases schedWakeupOn_ok h1 with ⟨-, hnil, rfl⟩ | ⟨y, -, hl, h3⟩
      · exact hidle hnil rfl
      obtain ⟨-, rfl⟩ := ktqueueEnqueue_ok h3
      have hdrop : (u.queue (.wait parent)).tqList.dropLast = [] := by
        have hnodup := ho.nodup (.wait parent)
        generalize (u.queue (.wait parent)).tqList = ws at hown hnodup
        rcases ws with _ | ⟨a, _ | ⟨b, ws⟩⟩
        · rfl
        · rfl
        · have ha := (hown a mem_cons_self).1
          have hb := (hown b (mem_cons_of_mem _ mem_cons_self)).1
          obtain rfl := singleton_inj.1 (ha.symm.trans hb)
          exact absurd mem_cons_self (nodup_cons.1 hnodup).1
      refine ⟨fun q => ?_, fun x hx => ?_⟩
      · change ((u.unlink (.wait parent) y).queue (.wait q)).tqList = _
        rw [unlink_list, hdrop]
        simp only [Queue.wait.injEq]
      have hxy : x ≠ y := by
        rintro rfl
        exact hx (mem_of_getLast? hl)
      rw [link_thr, if_neg hxy, setState_thr, if_neg hxy, unlink_thr, if_neg hxy]
    · refine hidle (eq_nil_iff_forall_not_mem.2 fun x hx => ?_) (Except.ok.inj h).symm
      obtain ⟨h1, h2⟩ := hown x hx
      exact hst (singleton_inj.1 h1 ▸ h2)

/-- How an exit ends: the queue of the parent is empty, the others stay, and the children that had
exited are with the init process. -/
structure Left (s : State) (i parent : ℕ) (s' : State) : Prop where
  init : s.procInitproc = some i
  pPproc : (s.proc s.curproc).pPproc = some parent
  list : ∀ q, (s'.queue (.wait q)).tqList = if q = parent then [] else (s.queue (.wait q)).tqList
  ktProc : ∀ x, (s'.thr x).ktProc = (s.thr x).ktProc
  state : ∀ q, q ≠ parent → ∀ x ∈ (s.queue (.wait q)).tqList, (s'.thr x).ktState = (s.thr x).ktState
  point : ∀ q, ∀ x ∈ (s.queue (.wait q)).tqList, point s' x = point s x
  dead : (s'.proc s'.curproc).pState = .dead
  children : ∀ q ∈ s.procObjs, q ≠ s.curproc → q ≠ parent →
    (HasExited s' q ↔ HasExited s q ∨ q = i ∧ HasExited s s.curproc)

namespace ProcInv

/-- The threads of a process: none or one. -/
theorem threads_le (h : ProcInv idle s) (hp : p ∈ s.procObjs) : (s.proc p).pThreads.length ≤ 1 := by
  cases hl : (s.proc p).pThreads with
  | nil => exact Nat.zero_le 1
  | cons t l =>
    obtain ⟨ht, htp⟩ := h.threads.own p hp t (hl ▸ mem_cons_self)
    have hone := (h.threads.owner t ht).2
    rw [htp, hl] at hone
    rw [hone]
    exact le_rfl

/-- A process and its parent, before the exit and once the children have moved. -/
theorem died_parent (h : ProcInv idle s) (hpid : 1 ≤ (s.proc s.curproc).pPid) (htree : ProcTree idle u)
    (hdied : Died s u) (hpp : (u.proc s.curproc).pPproc = some parent) :
    (s.proc s.curproc).pPproc = some parent ∧ parent ∈ s.procObjs ∧ parent ≠ s.curproc := by
  have hroot : s.curproc ≠ idle := by
    intro he
    rw [he, h.tree.root.2.1, PID_IDLE] at hpid
    omega
  obtain ⟨-, r, hr, hrp, hm⟩ := h.tree.parent _ h.curproc.1 hroot
  have hrc : r ≠ s.curproc := by
    rintro rfl
    exact h.tree.strict _ hr hrp
  have hmu := hdied.grows r hr hrc _ hm
  have hru := (htree.child r (hdied.procObjs ▸ hr) _ hmu).2.2
  obtain rfl := Option.some.inj (hpp.symm.trans hru)
  exact ⟨hrp, hr, hrc⟩

/-- Which processes have an exited child once the children have moved. -/
theorem died_children (h : ProcInv idle s) (htree : ProcTree idle u) (hdied : Died s u)
    (hdead : (u.proc s.curproc).pState = .dead) (hpp : (u.proc s.curproc).pPproc = some parent)
    (hadopt : ∀ x ∈ (s.proc s.curproc).pChildren, (u.proc x).pPproc = some i)
    (hq : q ∈ s.procObjs) (hqc : q ≠ s.curproc) (hqp : q ≠ parent) :
    HasExited u q ↔ HasExited s q ∨ q = i ∧ HasExited s s.curproc := by
  have hstays : ∀ c, (s.proc c).pState = .dead → (u.proc c).pState = .dead := by
    intro c hc
    by_cases hcc : c = s.curproc
    · rw [hcc]
      exact hdead
    · rw [hdied.state c hcc]
      exact hc
  constructor
  · rintro ⟨c, hc, hd⟩
    obtain ⟨hco, hci, hcp⟩ := htree.child q (hdied.procObjs ▸ hq) c hc
    have hcc : c ≠ s.curproc := by
      rintro rfl
      exact hqp (Option.some.inj (hcp.symm.trans hpp))
    rw [hdied.state c hcc] at hd
    rw [hdied.procObjs] at hco
    -- where it was before the children moved
    obtain ⟨-, r, hr, -, hm⟩ := h.tree.parent c hco hci
    by_cases hrc : r = s.curproc
    · subst hrc
      exact .inr ⟨Option.some.inj (hcp.symm.trans (hadopt c hm)), c, hm, hd⟩
    have hmu := hdied.grows r hr hrc c hm
    obtain rfl := htree.parent_unique (hdied.procObjs ▸ hr) (hdied.procObjs ▸ hq) hmu hc
    exact .inl ⟨c, hm, hd⟩
  · rintro (⟨c, hc, hd⟩ | ⟨rfl, c, hc, hd⟩)
    · exact ⟨c, hdied.grows q hq hqc c hc, hstays c hd⟩
    obtain ⟨hco, hci, -⟩ := h.tree.child _ h.curproc.1 c hc
    obtain ⟨-, r, -, hr, hm⟩ := htree.parent c (hdied.procObjs ▸ hco) hci
    obtain rfl := Option.some.inj (hr.symm.trans (hadopt c hc))
    exact ⟨c, hm, hstays c hd⟩

theorem left (h : ProcInv idle s) (hw : Waiters s) (hwc : (s.thr s.curthr).ktWchan = none)
    (hni : s.procInitproc ≠ some s.curproc) (hs : doExit s status = .ok s') : ∃ i parent, Left s i parent s' := by
  obtain ⟨hpid, s₁, parent, h1, hpp, h2⟩ := doExit_ok hni hs
  obtain ⟨i, hi⟩ := h.exists_init hpid
  obtain ⟨htree, hmoves⟩ := h.died hpid hi (fun he => hni (he ▸ hi)) h1 status
  obtain ⟨-, -, -, -, hpoint⟩ := h.exit_spec hni hs
  have hdied := hmoves.died status
  have hcalls : Calls (fun _ => False) (s₁.died s.curproc status) s' := wakes_calls.wakeParent trivial _ h2
  obtain ⟨hparent, hpo, hpc⟩ := h.died_parent hpid htree hdied hpp
  have hadopt : ∀ x ∈ (s.proc s.curproc).pChildren, ((s₁.died s.curproc status).proc x).pPproc = some i := by
    intro x hx
    obtain ⟨hxo, hxi, -⟩ := h.tree.child _ h.curproc.1 x hx
    have hlink : (s.exiting.proc x).pChildLink = true := by
      rw [(s.exiting_proc x).1.pChildLink]
      exact (h.tree.parent x hxo hxi).1
    have hmoved := reparent_pPproc x _ (s := s.exiting) hi h1 (.inr ⟨hx, hlink⟩)
    rw [State.died, setProc_proc]
    split_ifs with he
    · exact he ▸ hmoved
    · exact hmoved
  have hdead : ((s₁.died s.curproc status).proc s.curproc).pState = .dead := by
    rw [State.died, setProc_proc, if_pos rfl]
  generalize s₁.died s.curproc status = u at *
  have hnot : ∀ q, ∀ x ∈ (s.queue (.wait q)).tqList, x ≠ s.curthr := by
    rintro q x hx rfl
    exact h.orderly.queued.not_mem hwc _ hx
  have hqueued : Queued u := (hdied.orderly h.orderly hwc).queued
  have hlen : (u.proc parent).pThreads.length ≤ 1 := by
    rw [hdied.threads]
    exact h.threads_le hpo
  have hown : ∀ x ∈ (u.queue (.wait parent)).tqList, (u.proc parent).pThreads = [x] ∧ (u.thr x).ktState = .sleep := by
    intro x hx
    rw [hdied.queue] at hx
    obtain ⟨hxp, hxs⟩ := hw parent x hx
    rw [hdied.threads, hdied.thr_ne (hnot parent x hx), ← hxp]
    exact ⟨(h.threads.owner x (h.threads.onq _ x hx)).2, hxs⟩
  obtain ⟨hlist, hstate⟩ := wakeParent_empties hlen hqueued hown h2
  refine ⟨i, parent, hi, hparent, fun q => ?_, fun x => (hcalls.ktProc x).trans (hdied.ktProc x), fun q hq x hx => ?_,
    fun q x hx => ?_, ?_, fun q hq hqc hqp => ?_⟩
  · rw [hlist, hdied.queue]
  · rw [hstate x, hdied.thr_ne (hnot q x hx)]
    intro hm
    rw [hdied.queue] at hm
    exact hq ((hw q x hx).1.symm.trans (hw parent x hm).1)
  · rw [hpoint, if_neg (hnot q x hx)]
  · rw [hcalls.proc, hcalls.curproc, hdied.curproc]
    exact hdead
  · rw [HasExited, hcalls.proc]
    exact h.died_children htree hdied hdead hpp hadopt hq hqc hqp

end ProcInv

namespace Left

theorem waiters (h : Left s i parent s') (hw : Waiters s) : Waiters s' := by
  intro q x hx
  rw [h.list] at hx
  split_ifs at hx with hq
  · cases hx
  rw [h.ktProc, h.state q hq x hx]
  exact hw q x hx

theorem waitsAny (h : Left s i parent s') (x : ℕ) : WaitsAny s' x ↔ WaitsAny s x ∧ (s.thr x).ktProc ≠ parent := by
  rw [WaitsAny, WaitsAny, h.ktProc, h.list]
  split_ifs with hq
  · exact iff_of_false (fun hx => by cases hx.1) fun hx => hx.2 hq
  constructor
  · rintro ⟨hx, hst⟩
    rw [h.point _ x hx] at hst
    exact ⟨⟨hx, hst⟩, hq⟩
  · rintro ⟨⟨hx, hst⟩, -⟩
    rw [h.point _ x hx]
    exact ⟨hx, hst⟩

end Left

/-! ### Steps -/

/-- An exit that brings the init process children that have exited is that of a child of init, or
comes while init does not sleep in `do_waitpid(-1)`. -/
def WakesInit (s : State) : Op → Prop
  | .call (.exit _) => HasExited s s.curproc → ∀ i, s.procInitproc = some i →
      (s.proc s.curproc).pPproc = some i ∨ ∀ x, WaitsAny s x → (s.thr x).ktProc ≠ i
  | _ => True

theorem Left.lost_iff (h : Left s i parent s') (hinv : ProcInv idle s) (hwc : (s.thr s.curthr).ktWchan = none)
    (hnl : ¬ Lost s) (status : ℤ) : Lost s' ↔ ¬ WakesInit s (.call (.exit status)) := by
  have hobj : ∀ x, WaitsAny s x → (s.thr x).ktProc ∈ s.procObjs ∧ (s.thr x).ktProc ≠ s.curproc := by
    intro x hx
    have hto := hinv.threads.onq _ x hx.1
    refine ⟨(hinv.threads.owner x hto).1, fun he => ?_⟩
    obtain rfl := hinv.thread_unique hto hinv.threads.cur (he.trans hinv.stable.proc)
    exact hinv.orderly.queued.not_mem hwc _ hx.1
  constructor
  · rintro ⟨x, hx, hex⟩ hfine
    obtain ⟨hxs, hxp⟩ := (h.waitsAny x).1 hx
    rw [h.ktProc] at hex
    rcases (h.children _ (hobj x hxs).1 (hobj x hxs).2 hxp).1 hex with hold | ⟨hxi, hcur⟩
    · exact hnl ⟨x, hxs, hold⟩
    rcases hfine hcur i h.init with hpar | hnone
    · rw [h.pPproc] at hpar
      exact hxp (hxi.trans (Option.some.inj hpar).symm)
    · exact hnone x hxs hxi
  · intro hbad
    by_contra hno
    refine hbad fun hcur j hj => ?_
    obtain rfl := Option.some.inj (h.init.symm.trans hj)
    by_contra hor
    obtain ⟨hpar, hsome⟩ := not_or.1 hor
    push Not at hsome
    obtain ⟨x, hx, hxi⟩ := hsome
    have hxp : (s.thr x).ktProc ≠ parent := by
      rintro he
      exact hpar (h.pPproc.trans (congrArg some (he.symm.trans hxi)))
    refine hno ⟨x, (h.waitsAny x).2 ⟨hx, hxp⟩, ?_⟩
    rw [h.ktProc]
    exact (h.children _ (hobj x hx).1 (hobj x hx).2 hxp).2 (.inr ⟨hxi, hcur⟩)

namespace ProcInv

section
variable (h : ProcInv idle s)
include h

/-- A thread that is not in the switch is on no queue. -/
theorem not_waiting (hn : ¬ Switching s) (r : Queue) : ∀ x ∈ (s.queue r).tqList, x ≠ s.curthr := by
  rintro x hx rfl
  exact h.orderly.queued.not_mem (h.stable.wchan hn) _ hx

/-- A call that keeps the processes and the queues `p_wait`. -/
theorem keeps (hn : ¬ Switching s) (hw : Waiters s) (ha : Away s s') (hcur : s'.curthr = s.curthr)
    (hctx : ∀ x, x ≠ s.curthr → (∃ r, x ∈ (s.queue r).tqList) → (s'.thr x).ktCtx = (s.thr x).ktCtx)
    (hproc : ∀ x, (s'.proc x).pChildren = (s.proc x).pChildren ∧ (s'.proc x).pState = (s.proc x).pState) :
    Waiters s' ∧ (Lost s' ↔ Lost s) := by
  refine ⟨ha.waiters hw, ha.lost_iff (fun p x hx st => ?_) hproc⟩
  have hxc := h.not_waiting hn _ x hx
  rw [point, point, hcur, if_neg hxc, if_neg hxc, hctx x hxc ⟨_, hx⟩]

theorem quiet_lost {c : Call} (hw : Waiters s) (hc : c.Quiet) (hen : Enabled s (.call c))
    (hs : Sched.call s c = .ok s') : Waiters s' ∧ (Lost s' ↔ Lost s) := by
  have hn : ¬ Switching s := not_switching_nil hen.1
  obtain ⟨hcalls, -⟩ := quiet_calls hc hen.1 hs
  refine h.keeps hn hw (quiet_away hc hen (h.stable.wchan hn) h.orderly hs) hcalls.curthr (fun x _ _ => hcalls.ktCtx x)
    fun x => ?_
  rw [hcalls.proc]
  exact ⟨rfl, rfl⟩

theorem create_lost (hw : Waiters s) (hnew : p ∉ s.procObjs)
    (hlen : (s.procList.length : ℤ) < PROC_MAX_COUNT) (hs : procCreate s p = .ok s') :
    Waiters s' ∧ (Lost s' → Lost s) := by
  obtain ⟨pid, -, -, -, -, -, hc⟩ := h.tree.procCreate_spec hnew h.curproc.1 hlen hs
  obtain ⟨cwd, hborn⟩ := hc.born
  obtain ⟨hthr, -, hpoint⟩ := hc.threads
  have hlist : ∀ q x, x ∈ (s'.queue (.wait q)).tqList → x ∈ (s.queue (.wait q)).tqList := by
    intro q x hx
    rw [hc.rest] at hx
    rw [reset_list] at hx
    split_ifs at hx
    · cases hx
    · exact hx
  -- the new process has not exited and has no children
  have hstate : ∀ c, (s'.proc c).pState = .dead → c ≠ p ∧ (s.proc c).pState = .dead := by
    intro c hd
    have hcp : c ≠ p := by
      rintro rfl
      rw [hborn] at hd
      cases hd
    by_cases hcc : c = s.curproc
    · rw [hcc, hc.cur] at hd
      exact ⟨hcp, hcc ▸ hd⟩
    · rw [hc.other c hcp hcc] at hd
      exact ⟨hcp, hd⟩
  refine ⟨fun q x hx => ?_, Lost.mono (fun x hx => ?_) fun q hq => ?_⟩
  · rw [hthr]
    exact hw q x (hlist q x hx)
  · rw [WaitsAny, hpoint, hthr] at hx
    exact ⟨⟨hlist _ x hx.1, hx.2⟩, by rw [hthr]⟩
  obtain ⟨c, hm, hd⟩ := hq
  obtain ⟨hcp, hd'⟩ := hstate c hd
  refine ⟨c, ?_, hd'⟩
  by_cases hqp : q = p
  · rw [hqp, hborn] at hm
    cases hm
  by_cases hqc : q = s.curproc
  · rw [hqc, hc.cur] at hm
    rw [hqc]
    exact (mem_append.1 hm).resolve_right fun he => hcp (mem_singleton.1 he)
  · rw [hc.other q hqp hqc] at hm
    exact hm

/-- One round of `do_waitpid`: the caller goes to sleep in `do_waitpid(-1)` only if no child has exited. -/
theorem waited_lost (hf : s.cpu.frames = []) (hw : Waiters s) (hs : Waited c s s')
    (hex : ∀ st, c = .waitAny st → s'.cpu = s.cpu ∨ ¬ HasExited s s.curproc) : Waiters s' ∧ (Lost s' → Lost s) := by
  have hn : ¬ Switching s := not_switching_nil hf
  cases hs with
  | error v =>
    obtain ⟨h1, h2⟩ : Waiters { s with ret := v } ∧ (Lost { s with ret := v } ↔ Lost s) :=
      h.keeps hn hw (.of_same rfl rfl) rfl (fun _ _ _ => rfl) fun _ => ⟨rfl, rfl⟩
    exact ⟨h1, h2.1⟩
  | reap p t v hr hv =>
    refine ⟨hw, Lost.mono (fun x hx => ⟨hx, rfl⟩) ?_⟩
    rintro q ⟨c, hm, hd⟩
    exact ⟨c, mem_of_mem_erase hm, hd⟩
  | sleep hc =>
    have hlist : ∀ q x, x ∈ (((s.push c).sleep (.wait s.curproc) .sleep).queue (.wait q)).tqList →
        x = s.curthr ∧ q = s.curproc ∨ x ∈ (s.queue (.wait q)).tqList := by
      intro q x hx
      rw [sleep_list] at hx
      split_ifs at hx with hq
      · obtain rfl := Queue.wait.inj hq
        exact (mem_cons.1 hx).imp_left (⟨·, rfl⟩)
      · exact .inr hx
    have hproc : ∀ x, (((s.push c).sleep (.wait s.curproc) .sleep).thr x).ktProc = (s.thr x).ktProc := by
      intro x
      rw [sleep_thr]
      split_ifs <;> rfl
    refine ⟨fun q x hx => ?_, ?_⟩
    · rw [hproc, sleep_thr]
      rcases hlist q x hx with ⟨rfl, rfl⟩ | hx
      · rw [if_pos (by rfl)]
        exact ⟨h.stable.proc.symm, rfl⟩
      · rw [if_neg (by exact h.not_waiting hn _ x hx)]
        exact hw q x hx
    rintro ⟨x, ⟨hx, st, hst⟩, hxe⟩
    rw [point_sleep] at hst
    rw [hproc] at hx hxe
    rcases hlist _ x hx with ⟨rfl, hq⟩ | hx
    · exfalso
      have hcode : c = .waitAny st := by
        rw [if_pos (by rfl), point_push, if_pos rfl, point_cur, hf] at hst
        exact (mem_singleton.1 ((mem_cons.1 hst).resolve_left Code.noConfusion)).symm
      rw [hq] at hxe
      rcases hex st hcode with hcpu | hno
      · have := congrArg Context.frames hcpu
        rw [hf] at this
        cases this
      · exact hno hxe
    · have hxc := h.not_waiting hn _ x hx
      rw [if_neg (by exact hxc), point_push, if_neg hxc] at hst
      exact ⟨x, ⟨hx, st, hst⟩, hxe⟩

theorem waitAny_sleeps (hwc : (s.thr s.curthr).ktWchan = none) {st : StatusPtr}
    (hs : Sched.waitAny s st = .ok s') : s'.cpu = s.cpu ∨ ¬ HasExited s s.curproc := by
  rcases h.waitAny hwc st with he | ⟨hno, -⟩ | ⟨p, t, -, he⟩
  · obtain rfl := Except.ok.inj (hs.symm.trans he)
    exact .inl rfl
  · refine .inr ?_
    rintro ⟨c, hc, hd⟩
    exact hno c hc hd
  · obtain rfl := Except.ok.inj (hs.symm.trans he)
    exact .inl rfl

theorem waitpid_lost {pid options : ℤ} {a : ℕ} (hw : Waiters s) (hf : s.cpu.frames = [])
    (hpid : pid = -1 ∨ procLookup s pid ≠ none) (hs : Sched.doWaitpid s pid options a = .ok s') :
    Waiters s' ∧ (Lost s' → Lost s) := by
  have hwc := h.stable.wchan (not_switching_nil hf)
  rcases h.doWaitpid pid options a hpid with he | ⟨-, he⟩ | ⟨p, q, hp, -, -, he⟩
  · obtain rfl := Except.ok.inj (hs.symm.trans he)
    refine h.waited_lost (c := .waitAny (.out a)) hf hw (.error _ (by decide)) fun _ _ => .inl rfl
  · rw [he] at hs
    obtain ⟨s₁, h1, h2⟩ := h.waitAny_waited hwc (.out a)
    obtain rfl := Except.ok.inj (hs.symm.trans h1)
    exact h.waited_lost hf hw h2 fun _ _ => h.waitAny_sleeps hwc hs
  rw [he] at hs
  obtain ⟨s₁, h1, h2⟩ := h.waitPid_waited hwc (mem_of_getLast? hp) pid (.out a)
  obtain rfl := Except.ok.inj (hs.symm.trans h1)
  exact h.waited_lost hf hw h2 fun _ hc => by cases hc

theorem setProc_lost (hw : Waiters s) (hn : ¬ Switching s) (p : ℕ) {f : Proc → Proc}
    (hs' : s' = s.setProc p f) (hf : ∀ a, (f a).pChildren = a.pChildren ∧ (f a).pState = a.pState) :
    Waiters s' ∧ (Lost s' ↔ Lost s) := by
  subst hs'
  refine h.keeps hn hw (.of_same rfl rfl) rfl (fun _ _ _ => rfl) fun x => ?_
  rw [setProc_proc]
  split_ifs with hx
  · exact hx ▸ hf _
  · exact ⟨rfl, rfl⟩

theorem thread_lost (hw : Waiters s) (hn : ¬ Switching s)
    (hq : ∀ q, t ∉ (s.queue q).tqList) : Waiters (kthreadCreate s t p) ∧ (Lost (kthreadCreate s t p) ↔ Lost s) := by
  have hthr : ∀ x, x ≠ t → (kthreadCreate s t p).thr x = s.thr x := fun x hx => update_of_ne hx _ _
  refine h.keeps hn hw (.moved (fun _ => hq _) (fun _ => rfl) hthr) rfl (fun x _ hx => ?_) fun x => ?_
  · rw [hthr x]
    rintro rfl
    exact hq _ hx.choose_spec
  rw [kthreadCreate, setProc_proc]
  split_ifs with hxp
  · rw [hxp]
    exact ⟨rfl, rfl⟩
  · exact ⟨rfl, rfl⟩

end

/-- A switch, or a halt for want of a thread to run, or an interrupt that ends a halt. -/
theorem switch_lost (hw : Waiters s) (ha : Away s s') (hf : s.cpu.frames = c :: l) (hc : c.Inner)
    (hpt : ∀ x st, Code.waitAny st ∈ point s' x ↔ .waitAny st ∈ if x = s.curthr then l else point s x)
    (hproc : s'.proc = s.proc) : Waiters s' ∧ (Lost s' ↔ Lost s) := by
  refine ⟨ha.waiters hw, ha.lost_iff (fun p x _ st => ?_) fun x => by rw [hproc]; exact ⟨rfl, rfl⟩⟩
  rw [hpt]
  split_ifs with hx
  · rw [hx, point_cur, hf, mem_cons]
    refine (or_iff_right ?_).symm
    rintro rfl
    exact hc
  · rfl

theorem takeRunq_away (ho : Orderly s) (k : ℕ) : Away s (s.takeRunq k) :=
  (takeRunq_effects (fun _ => Queue.noConfusion) k s).away ho

section
variable (h : ProcInv idle s) (hw : Waiters s)
include h hw

theorem cont_lost (hf : s.cpu.frames = c :: l) (hi : ∀ ipl, c ≠ .intrWait ipl)
    {b : Bool} (hs : exec s.pop c = .ok (b, s')) :
    Waiters s' ∧ (Lost s' → Lost s) ∧ (c.Inner → (Lost s' ↔ Lost s)) := by
  have htail : s.pop.cpu.frames = l := by
    change s.cpu.frames.tail = l
    rw [hf]
    rfl
  rcases h.exec_cases hf hi hs with ⟨rfl, -, rfl⟩ | ⟨t, k, rfl, ht, rfl⟩ | ⟨rfl, hout, hex⟩
  · have hpt : ∀ x st, Code.waitAny st ∈ point ({ s.pop with ipl := IPL_LOW }.push (.intrWait s.ipl)) x ↔
        .waitAny st ∈ if x = s.curthr then l else point s x := by
      intro x st
      change _ ∈ (if x = s.curthr then .intrWait s.ipl :: s.pop.cpu.frames else (s.thr x).ktCtx.frames) ↔ _
      rw [htail]
      split_ifs with hx
      · simp
      · rw [point, if_neg hx]
    have ha : Away s ({ s.pop with ipl := IPL_LOW }.push (.intrWait s.ipl)) := .of_same rfl rfl
    obtain ⟨h1, h2⟩ := switch_lost hw ha hf trivial hpt rfl
    exact ⟨h1, h2.1, fun _ => h2⟩
  · have hpop : Orderly s.pop := h.orderly.congr rfl rfl
    have hfirst : Away s s.pop := .of_same rfl rfl
    have htake : Away s (s.pop.takeRunq k) := hfirst.trans (takeRunq_away hpop k)
    have ha : Away s (Sched.switched s.pop t k) := by
      refine htake.trans ⟨fun _ => rfl, fun p x _ => ?_⟩
      have hsame := contextSwitch_same { s.pop.takeRunq k with
        curthr := t, curproc := (s.pop.thr t).ktProc, ipl := s.pop.ipl } s.pop.curthr t x
      exact ⟨hsame.2.1, hsame.2.2.1⟩
    have hcalls : Calls (fun _ => False) s (s.pop.takeRunq k) := (Calls.pop s).trans (takeRunq_calls k _)
    obtain ⟨h1, h2⟩ := switch_lost hw ha hf trivial (fun x st => by rw [point_switched hf t k x]) hcalls.proc
    exact ⟨h1, h2.1, fun _ => h2⟩
  have hcsw : c ≠ .schedSwitch := by
    rintro rfl
    exact hout
  have hn := not_switching_cons hf hcsw hi
  have hpop := h.pop hf hout
  have hin : ¬ c.Inner := by
    intro hc
    cases c <;> first | exact hc.elim | exact hout.elim
  obtain ⟨hw1, hl1⟩ : Waiters s.pop ∧ (Lost s.pop ↔ Lost s) :=
    h.keeps hn hw (.of_same rfl rfl) rfl (fun _ _ _ => rfl) fun _ => ⟨rfl, rfl⟩
  rcases hex with hwait | ⟨ipl, v, rfl⟩
  · have hsleeps : ∀ st, c = .waitAny st → s'.cpu = s.pop.cpu ∨ ¬ HasExited s.pop s.pop.curproc := by
      rintro st rfl
      obtain ⟨rfl, h1⟩ := exec_ok hs
      exact hpop.waitAny_sleeps (h.pop_wchan hf hout) h1
    obtain ⟨h1, h2⟩ := hpop.waited_lost htail hw1 hwait hsleeps
    exact ⟨h1, fun hl => hl1.1 (h2 hl), fun hc => absurd hc hin⟩
  · exact ⟨hw1, hl1.1, fun hc => absurd hc hin⟩

theorem intr_lost {ws : List Wake} (hen : Enabled s (.intr ws)) (hs : Sched.step s (.intr ws) = .ok s') :
    Waiters s' ∧ (Lost s' ↔ Lost s) ∧ s'.proc = s.proc ∧ s'.curthr = s.curthr ∧ s'.curproc = s.curproc := by
  have heff : ∀ {s₁}, interrupt s ws = .ok s₁ → Away s s₁ ∧ Calls (fun _ => False) s s₁ := fun h1 =>
    ⟨((wakes_effects fun _ => Queue.noConfusion).interrupt (fun _ _ => Queue.noConfusion) ws h1 (.inl trivial)).away
      h.orderly, interrupt_calls ws h1⟩
  rcases step_intr hen hs with ⟨s₁, ipl, l, hf, h1, hhan, rfl⟩ | ⟨hf, h1⟩
  · obtain ⟨ha, hcalls⟩ := heff h1
    have hcpu := hhan.cpu fun _ => id
    have hpt : ∀ x st, Code.waitAny st ∈ point ({ s₁.pop with ipl := ipl }.push .schedSwitch) x ↔
        .waitAny st ∈ if x = s.curthr then l else point s x := by
      intro x st
      change _ ∈ (if x = s₁.curthr then .schedSwitch :: s₁.cpu.frames.tail else (s₁.thr x).ktCtx.frames) ↔ _
      rw [hcpu, hf, hcalls.curthr, hcalls.ktCtx]
      split_ifs with hx
      · simp
      · rw [point, if_neg hx]
    have hres : Away s₁ ({ s₁.pop with ipl := ipl }.push .schedSwitch) := .of_same rfl rfl
    obtain ⟨h2, h3⟩ := switch_lost hw (ha.trans hres) hf trivial hpt hcalls.proc
    exact ⟨h2, h3, hcalls.proc, hcalls.curthr, hcalls.curproc⟩
  · obtain ⟨ha, hcalls⟩ := heff h1
    obtain ⟨h2, h3⟩ := h.keeps (not_switching_nil hf) hw ha hcalls.curthr (fun x _ _ => hcalls.ktCtx x)
      fun x => by rw [hcalls.proc]; exact ⟨rfl, rfl⟩
    exact ⟨h2, h3, hcalls.proc, hcalls.curthr, hcalls.curproc⟩

/-- A step from a state in which no exit is lost. -/
theorem step_lost (hnl : ¬ Lost s) (hs : TreeStep s op s') :
    Waiters s' ∧ (Lost s' ↔ ¬ WakesInit s op) ∧ (Lost s' → (s'.proc s'.curproc).pState = .dead) := by
  have hkeep : WakesInit s op → Waiters s' ∧ (Lost s' → Lost s) →
      Waiters s' ∧ (Lost s' ↔ ¬ WakesInit s op) ∧ (Lost s' → (s'.proc s'.curproc).pState = .dead) :=
    fun hfine ⟨h1, h2⟩ => ⟨h1, iff_of_false (fun hl => hnl (h2 hl)) (not_not.2 hfine), fun hl => absurd (h2 hl) hnl⟩
  obtain ⟨hen, ha, hs⟩ := hs
  cases op with
  | intr ws =>
    obtain ⟨h1, h2, -⟩ := h.intr_lost hw hen hs
    exact hkeep trivial ⟨h1, h2.1⟩
  | cont =>
    obtain ⟨c, l, b, hf, hi, h1⟩ := step_cont hen hs
    obtain ⟨h2, h3, -⟩ := h.cont_lost hw hf hi h1
    exact hkeep trivial ⟨h2, h3⟩
  | call c =>
    have hn : ¬ Switching s := not_switching_nil hen.1
    cases c with
    | cancel | kill | killAll => exact ha.elim
    | exit status =>
      have hwc := h.stable.wchan hn
      obtain ⟨i, parent, hleft⟩ := h.left hw hwc ha hs
      exact ⟨hleft.waiters hw, hleft.lost_iff h hwc hnl status, fun _ => hleft.dead⟩
    | create p => exact hkeep trivial (h.create_lost hw hen.2 ha hs)
    | waitpid pid options a => exact hkeep trivial (h.waitpid_lost hw hen.1 ha hs)
    | thread t p =>
      cases hs
      obtain ⟨h1, h2⟩ := h.thread_lost (p := p) hw hn hen.2.2.2.1
      exact hkeep trivial ⟨h1, h2.1⟩
    | setCwd v | openFile fd f =>
      obtain ⟨h1, h2⟩ := h.setProc_lost hw hn s.curproc (Except.ok.inj hs).symm fun _ => ⟨rfl, rfl⟩
      exact hkeep trivial ⟨h1, h2.1⟩
    | _ =>
      obtain ⟨h1, h2⟩ := h.quiet_lost hw (by trivial) hen hs
      exact hkeep trivial ⟨h1, h2.1⟩

/-- Between an exit and the next switch nobody is woken. -/
theorem step_stays (hl : Lost s) (hd : (s.proc s.curproc).pState = .dead) (hs : TreeStep s op s') :
    Waiters s' ∧ Lost s' ∧ (s'.curthr = s.curthr → (s'.proc s'.curproc).pState = .dead) := by
  obtain ⟨o, ho, hfr⟩ := h.ending hd
  obtain ⟨hen, -, hs⟩ := hs
  cases op with
  | call c =>
    rw [hen.1] at hfr
    cases hfr
  | intr ws =>
    obtain ⟨h1, h2, hproc, -, hcp⟩ := h.intr_lost hw hen hs
    refine ⟨h1, h2.2 hl, fun _ => ?_⟩
    rw [hproc, hcp]
    exact hd
  | cont =>
    obtain ⟨c, l, hf, hi⟩ := hen
    obtain ⟨rfl, -⟩ := List.cons.inj (hf.symm.trans hfr)
    rw [Sched.step, hf] at hs
    obtain ⟨⟨b, s₁⟩, h1, rfl⟩ := ok_of_map hs
    obtain ⟨h2, -, h3⟩ := h.cont_lost hw hf hi h1
    refine ⟨h2, (h3 ho).2 hl, fun hcur => ?_⟩
    rcases h.exec_cases hf hi h1 with ⟨rfl, -, rfl⟩ | ⟨t, k, rfl, ht, rfl⟩ | ⟨rfl, hout, -⟩
    · exact hd
    · -- the thread of a process that has exited is not on the run queue
      obtain rfl : t = s.curthr := hcur
      exact absurd (h.stable.proc ▸ hd) (h.alive_of_mem ht)
    · cases c <;> first | exact ho.elim | exact hout.elim

end

end ProcInv

/-! ### Runs -/

theorem waiters_boot (p t : ℕ) (ints : ℕ → ℤ) : Waiters (bootState p t ints) := fun _ _ h => by cases h

theorem not_lost_boot (p t : ℕ) (ints : ℕ → ℤ) : ¬ Lost (bootState p t ints) := by
  rintro ⟨x, hx, -⟩
  cases hx.1

/-- A step after which no exit is lost, if it passes the processor to another thread. -/
def PassStep (s : State) (op : Op) (s' : State) : Prop := TreeStep s op s' ∧ (s'.curthr ≠ s.curthr → ¬ Lost s')

def WokenStep (s : State) (op : Op) (s' : State) : Prop := TreeStep s op s' ∧ WakesInit s op

/-- Along a run without lost exits every exit wakes who has to be woken, up to an exit behind which
the processor has not been passed yet. -/
theorem passRun_woken {ops : List Op} (h : Run PassStep (bootState p t ints) ops s) :
    ProcInv p s ∧ Waiters s ∧ ((Run WokenStep (bootState p t ints) ops s ∧ ¬ Lost s) ∨
      (Lost s ∧ (s.proc s.curproc).pState = .dead)) := by
  induction h with
  | nil => exact ⟨procInv_boot p t ints, waiters_boot p t ints, .inl ⟨.nil, not_lost_boot p t ints⟩⟩
  | @snoc es s s' op _ hs ih =>
    obtain ⟨hinv, hw, ⟨hrun, hnl⟩ | ⟨hl, hd⟩⟩ := ih
    · obtain ⟨hw', hiff, hdead⟩ := hinv.step_lost hw hnl hs.1
      refine ⟨hinv.step hs.1, hw', ?_⟩
      by_cases hfine : WakesInit s op
      · exact .inl ⟨hrun.snoc ⟨hs.1, hfine⟩, fun hl => hiff.1 hl hfine⟩
      · exact .inr ⟨hiff.2 hfine, hdead (hiff.2 hfine)⟩
    obtain ⟨hw', hl', hdead⟩ := hinv.step_stays hw hl hd hs.1
    have hcur : s'.curthr = s.curthr := by
      by_contra hne
      exact hs.2 hne hl'
    exact ⟨hinv.step hs.1, hw', .inr ⟨hl', hdead hcur⟩⟩

theorem wokenRun_pass {ops : List Op} (h : Run WokenStep (bootState p t ints) ops s) :
    ProcInv p s ∧ Waiters s ∧ ¬ Lost s ∧ Run PassStep (bootState p t ints) ops s := by
  induction h with
  | nil => exact ⟨procInv_boot p t ints, waiters_boot p t ints, not_lost_boot p t ints, .nil⟩
  | @snoc es s s' op _ hs ih =>
    obtain ⟨hinv, hw, hnl, hrun⟩ := ih
    obtain ⟨hw', hiff, -⟩ := hinv.step_lost hw hnl hs.1
    have hnl' : ¬ Lost s' := fun hl => hiff.1 hl hs.2
    exact ⟨hinv.step hs.1, hw', hnl', hrun.snoc ⟨hs.1, fun _ => hnl'⟩⟩

/-- In a run of processes with one thread each, and with nothing cancelled, no exit is lost when the processor is
passed on, exactly if no exit brings a sleeping init process children that have exited, other than one of init's own
children. The run does not end between an exit and the switch that follows it. -/
theorem no_exit_lost_iff {ops : List Op} (hend : (s.proc s.curproc).pState ≠ .dead) :
    Run PassStep (bootState p t ints) ops s ↔ Run WokenStep (bootState p t ints) ops s := by
  constructor
  · intro h
    obtain ⟨-, -, ⟨hrun, -⟩ | ⟨-, hd⟩⟩ := passRun_woken h
    · exact hrun
    · exact absurd hd hend
  · intro h
    exact (wokenRun_pass h).2.2.2

def State.leavesNone (s : State) : Op → Bool
  | .call (.exit _) => (s.proc s.curproc).pChildren = []
  | _ => true

theorem WakesInit.of_leavesNone (h : s.leavesNone op = true) : WakesInit s op := by
  cases op with
  | cont | intr => trivial
  | call c =>
    cases c with
    | exit status =>
      rintro ⟨c, hc, -⟩
      have hnil : (s.proc s.curproc).pChildren = [] := of_decide_eq_true h
      rw [hnil] at hc
      cases hc
    | _ => trivial

theorem tree_run_of {ops : List Op} (hp : Passes State.fits State.next (bootState p t ints) ops) :
    Run TreeStep (bootState p t ints) ops (ops.foldl State.next (bootState p t ints)) :=
  Run.of_passes (I := ProcInv p) (procInv_boot p t ints) (fun _ _ _ h hs => h.step hs) (fun _ _ h hfit => h.fits hfit)
    ops hp

theorem woken_run_of {ops : List Op}
    (hp : Passes (fun s op => s.fits op && s.leavesNone op) State.next (bootState p t ints) ops) :
    Run WokenStep (bootState p t ints) ops (ops.foldl State.next (bootState p t ints)) := by
  refine Run.of_passes (I := ProcInv p) (procInv_boot p t ints) (fun _ _ _ h hs => h.step hs.1) (fun s op h hfit => ?_)
    ops hp
  rw [Bool.and_eq_true] at hfit
  exact ⟨h.fits hfit.1, .of_leavesNone hfit.2⟩

/-- Init waits for a process that exits, and is woken. -/
theorem no_exit_lost_reaped : ∃ s, s.curproc = 101 ∧ s.procObjs = [101, 100] ∧
    Run PassStep (bootState 100 0 fun _ => 0) (reapOps (-1) 3 ++ [.cont]) s := by
  have hrun : Run WokenStep (bootState 100 0 fun _ => 0) (reapOps (-1) 3 ++ [.cont]) _ :=
    woken_run_of (by decide +kernel)
  exact ⟨_, by decide +kernel, by decide +kernel, (no_exit_lost_iff (by decide +kernel)).2 hrun⟩

/-- Init waits for any child; its child has a child, which has a child. The last of these exits first, then its
parent. -/
def orphanOps : List Op :=
  [.call (.create 101), .call (.thread 1 101), .call (.makeRunnable 1), .call .switch, .cont, .cont,
    .call (.setCwd 7), .call (.create 102), .call (.thread 2 102), .call (.makeRunnable 2),
    .call (.waitpid (-1) 0 5), .cont, .cont,
    .call (.setCwd 7), .call (.create 103), .call (.thread 3 103), .call (.makeRunnable 3), .call .yield, .cont, .cont,
    .call (.create 104), .call (.thread 4 104), .call (.makeRunnable 4), .call .yield, .cont,
    .call .yield, .cont, .cont,
    .call (.exit 0), .cont,
    .call (.exit 0)]

/-- The processor passes on to thread 2 while init sleeps in `do_waitpid(-1)` with an exited child. -/
theorem orphan_exit_lost : ∃ s s', Run TreeStep (bootState 100 0 fun _ => 0) orphanOps s ∧ TreeStep s .cont s' ∧
    s.curthr = 3 ∧ s'.curthr = 2 ∧ s'.procInitproc = some 101 ∧ (s'.proc 101).pThreads = [1] ∧
    (s'.queue (.wait 101)).tqList = [1] ∧ (s'.proc 101).pChildren = [102, 104] ∧ (s'.proc 104).pState = .dead ∧
    Lost s' := by
  have hrun : Run TreeStep (bootState 100 0 fun _ => 0) orphanOps _ := tree_run_of (by decide +kernel)
  refine ⟨_, (orphanOps.foldl State.next (bootState 100 0 fun _ => 0)).next .cont, hrun, ?_, by decide +kernel,
    by decide +kernel, by decide +kernel, by decide +kernel, by decide +kernel, by decide +kernel, by decide +kernel,
    1, ⟨by decide +kernel, .out 5, by decide +kernel⟩, 104, by decide +kernel, by decide +kernel⟩
  have hinv : ProcInv 100 _ := procInv_run hrun
  exact hinv.fits (by decide +kernel)

end Weenix.Sched
