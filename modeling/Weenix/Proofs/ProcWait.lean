import Weenix.Proofs.ProcInv

/-! `do_waitpid`: it returns an error, or the caller sleeps, or one exited child goes. -/

namespace Weenix.Sched

open List State

variable {s s' : State} {t x p idle : ℕ} {pid : ℤ} {st : StatusPtr}

theorem unlinkChild_dead (hl : (s.proc p).pChildLink = true) (hc : (s.proc p).pChildren = []) :
    unlinkChild s p = .ok (childRemove s p) := by
  rw [unlinkChild, if_pos hl, hc]
  rfl

theorem procFree_ok (hl : (s.proc p).pListLink = true) (hc : (s.proc p).pChildLink = false)
    (hp : p ∈ s.procObjs) : procFree s p = .ok { { s with procList := s.procList.erase p }.setProc p
      fun q => { q with pListLink := false } with procObjs := s.procObjs.erase p } := by
  have hc' : (({ s with procList := s.procList.erase p }.setProc p
      fun q => { q with pListLink := false }).proc p).pChildLink = false := by
    rw [setProc_proc, if_pos rfl]
    exact hc
  simp only [procFree, hl, if_true, hc', Bool.false_eq_true, if_false]
  exact if_pos hp

/-- The thread of an exited child is destroyed and the process freed. -/
theorem destroy_free (ht : t ∈ s.thrObjs) (hproc : (s.thr t).ktProc = p)
    (hl : (s.proc p).pListLink = true) (hp : p ∈ s.procObjs) :
    ∃ s1, kthreadDestroy (childRemove s p) t = .ok s1 ∧ procFree s1 p = .ok (s.reaped p t) := by
  refine ⟨{ childRemove s p with thrObjs := s.thrObjs.erase t }.setProc p
    fun q => { q with pThreads := q.pThreads.erase t }, ?_, ?_⟩
  · subst hproc
    exact if_pos ht
  refine (procFree_ok ?_ ?_ ?_).trans ?_
  · simpa [setProc_proc, childRemove] using hl
  · simp [setProc_proc, childRemove]
  · exact hp
  refine congrArg Except.ok (congrArg (fun f => { s with
    thrObjs := s.thrObjs.erase t, procList := s.procList.erase p, procObjs := s.procObjs.erase p,
    proc := f }) (funext fun x => ?_))
  by_cases hx : x = p
  · simp [State.setProc, childRemove, hx]
  · simp [State.setProc, childRemove, hx]

/-- What is there to reap: an exited child with its thread. -/
structure Reapable (s : State) (p t : ℕ) : Prop where
  child : p ∈ (s.proc s.curproc).pChildren
  dead : (s.proc p).pState = .dead
  thread : (s.proc p).pThreads = [t]
  exited : (s.thr t).ktState = .exited
  thrObj : t ∈ s.thrObjs
  ktProc : (s.thr t).ktProc = p
  childLink : (s.proc p).pChildLink = true
  listLink : (s.proc p).pListLink = true
  children : (s.proc p).pChildren = []
  procObj : p ∈ s.procObjs

theorem ProcInv.reapable (h : ProcInv idle s) (hp : p ∈ (s.proc s.curproc).pChildren)
    (hd : (s.proc p).pState = .dead) : ∃ t, Reapable s p t := by
  obtain ⟨hpo, hpi, -⟩ := h.tree.child _ h.curproc.1 p hp
  obtain ⟨t, ht, hst⟩ := h.threads.dead p hpo hd
  obtain ⟨hto, hproc⟩ := h.threads.own p hpo t (ht ▸ mem_singleton_self t)
  exact ⟨t, hp, hd, ht, hst, hto, hproc, (h.tree.parent p hpo hpi).1, h.tree.linked p hpo,
    h.tree.childless p hpo hd, hpo⟩

/-- The scan for an exited child stops at the first one, having destroyed its thread. -/
theorem reapScan_spec (l : List ℕ) (w : Wait) (hl : (∀ p ∈ l, (s.proc p).pState = .dead → ∃ t, Reapable s p t)) :
    (∃ w', reapScan l w s = .ok (w', s) ∧ w'.count = w.count ∧ w'.status = w.status ∧
      ∀ p ∈ l, (s.proc p).pState ≠ .dead) ∨
    ∃ p t s1, p ∈ l ∧ Reapable s p t ∧ kthreadDestroy (childRemove s p) t = .ok s1 ∧
      reapScan l w s = .ok (⟨w.count + 1, (s.proc p).pPid, some p, .pStatus p⟩, s1) := by
  induction l generalizing w with
  | nil =>
    exact .inl ⟨w, rfl, rfl, rfl, fun _ h => by cases h⟩
  | cons p l ih =>
    by_cases hd : (s.proc p).pState = .dead
    · obtain ⟨t, hr⟩ := hl p mem_cons_self hd
      obtain ⟨s1, h1, -⟩ := destroy_free hr.thrObj hr.ktProc hr.listLink hr.procObj
      refine .inr ⟨p, t, s1, mem_cons_self, hr, h1, ?_⟩
      have hthr : ((childRemove s p).proc p).pThreads = [t] := by
        simpa [childRemove, setProc_proc] using hr.thread
      have hfind : ([t].find? fun t => decide (((childRemove s p).thr t).ktState = .exited)) = some t := by
        have hex : ((childRemove s p).thr t).ktState = .exited := hr.exited
        rw [List.find?_singleton, if_pos (decide_eq_true hex)]
      rw [reapScan, if_neg (not_not.2 hd), unlinkChild_dead hr.childLink hr.children]
      simp only [bind, Except.bind, hthr, hfind, h1]
      rfl
    · rw [reapScan, if_pos hd]
      rcases ih { w with p := some p } fun x hx => hl x (mem_cons_of_mem _ hx) with
        ⟨w', h1, h2, h3, h4⟩ | ⟨x, t, s1, hx, hr, h1, h2⟩
      · exact .inl ⟨w', h1, h2, h3, forall_mem_cons.2 ⟨hd, h4⟩⟩
      · exact .inr ⟨x, t, s1, mem_cons_of_mem _ hx, hr, h1, h2⟩

theorem schedSleepOn_total (hw : (s.thr s.curthr).ktWchan = none) (q : Queue) :
    schedSleepOn s q = .ok (s.sleep q .sleep) := by
  have hw' : ¬ ((s.setState s.curthr .sleep).thr s.curthr).ktWchan ≠ none := by
    rw [setState_wchan]
    exact not_not.2 hw
  rw [schedSleepOn, ktqueueEnqueue, if_neg hw']
  rfl

/-- One round of `do_waitpid(-1)`. -/
theorem ProcInv.waitAny (h : ProcInv idle s) (hw : (s.thr s.curthr).ktWchan = none) (st : StatusPtr) :
    waitAny s st = .ok { s with ret := -1 } ∨
    ((∀ p ∈ (s.proc s.curproc).pChildren, (s.proc p).pState ≠ .dead) ∧
      waitAny s st = .ok ((s.push (.waitAny st)).sleep (.wait s.curproc) .sleep)) ∨
    ∃ p t, Reapable s p t ∧ waitAny s st = .ok { s.reaped p t with ret := (s.proc p).pPid } := by
  rw [Sched.waitAny]
  split_ifs with hne
  · exact .inl rfl
  refine .inr ?_
  rcases reapScan_spec (s.proc s.curproc).pChildren ⟨0, -1, none, st⟩ fun p hp hd => h.reapable hp hd with
    ⟨w', h1, h2, h3, h4⟩ | ⟨p, t, s1, hp, hr, h1, h2⟩
  · refine .inl ⟨h4, ?_⟩
    rw [h1]
    change (if w'.count = 0 then _ else _) = _
    rw [if_pos h2, h3]
    exact schedSleepOn_total (s := s.push (.waitAny st)) hw _
  refine .inr ⟨p, t, hr, ?_⟩
  obtain ⟨s2, h3, h4⟩ := destroy_free hr.thrObj hr.ktProc hr.listLink hr.procObj
  obtain rfl : s1 = s2 := Except.ok.inj (h1.symm.trans h3)
  rw [h2]
  change (procFree s1 p >>= fun s => _) = _
  rw [h4]
  rfl

/-- One round of `do_waitpid(pid)` for a child. -/
theorem ProcInv.waitPid (h : ProcInv idle s) (hw : (s.thr s.curthr).ktWchan = none)
    (hp : p ∈ (s.proc s.curproc).pChildren) (pid : ℤ) (st : StatusPtr) : ((s.proc p).pState ≠ .dead ∧
      waitPid s pid p st = .ok ((s.push (.waitPid pid p st)).sleep (.wait s.curproc) .sleep)) ∨
    ∃ t, Reapable s p t ∧ waitPid s pid p st = .ok { s.reaped p t with ret := pid } := by
  rw [Sched.waitPid]
  split_ifs with hd
  · obtain ⟨t, hr⟩ := h.reapable hp hd
    refine .inr ⟨t, hr, ?_⟩
    obtain ⟨s1, h1, h2⟩ := destroy_free hr.thrObj hr.ktProc hr.listLink hr.procObj
    have hthr : ((childRemove s p).proc p).pThreads = [t] := by
      simpa [childRemove, setProc_proc] using hr.thread
    have hdestroy : destroyExited [t] (childRemove s p) = .ok s1 := by
      have hex : ((childRemove s p).thr t).ktState = .exited := hr.exited
      rw [destroyExited, if_pos hex, h1]
      rfl
    rw [unlinkChild_dead hr.childLink hr.children]
    change (destroyExited ((childRemove s p).proc p).pThreads (childRemove s p) >>= fun s => _) = _
    rw [hthr, hdestroy]
    change (procFree s1 p >>= fun s => _) = _
    rw [h2]
    rfl
  · exact .inl ⟨hd, schedSleepOn_total (s := s.push (.waitPid pid p st)) hw _⟩

/-- The search for a child by its pid ends at the last child. -/
theorem findChild_eq (s : State) (pid : ℤ) (p : ℕ) : findChild s pid p =
    ((s.proc s.curproc).pChildren.any fun x => decide ((s.proc x).pPid = pid),
      ((s.proc s.curproc).pChildren.getLast?).getD p) := by
  rw [findChild]
  generalize (s.proc s.curproc).pChildren = l
  have hfold : ∀ (l : List ℕ) (b : Bool) (p : ℕ),
      l.foldl (fun r x => (r.1 || decide ((s.proc x).pPid = pid), x)) (b, p) =
        (b || l.any fun x => decide ((s.proc x).pPid = pid), l.getLast?.getD p) := by
    intro l
    induction l with
    | nil => simp
    | cons x l ih =>
      intro b p
      rw [foldl_cons, ih, any_cons, Bool.or_assoc]
      cases l with
      | nil => rfl
      | cons y l => rw [List.getLast?_cons_cons, List.getLast?_cons]; rfl
  rw [hfold, Bool.false_or]

/-- How `do_waitpid` goes: it returns an error, or waits for any child, or for the last one. -/
theorem ProcInv.doWaitpid (h : ProcInv idle s) (pid options : ℤ) (a : ℕ)
    (hpid : pid = -1 ∨ procLookup s pid ≠ none) :
    doWaitpid s pid options a = .ok { s with ret := -ECHILD } ∨
    (pid = -1 ∧ doWaitpid s pid options a = Sched.waitAny s (.out a)) ∨
    ∃ p c, (s.proc s.curproc).pChildren.getLast? = some p ∧ procLookup s pid = some c ∧
      c ∈ (s.proc s.curproc).pChildren ∧ doWaitpid s pid options a = Sched.waitPid s pid p (.out a) := by
  have hfirst : ¬ (procLookup s pid = none ∧ pid ≠ -1) := fun hx => hpid.elim hx.2 fun hn => hn hx.1
  rw [Sched.doWaitpid, if_neg hfirst]
  by_cases hopt : options ≠ 0 ∧ pid < -1
  · rw [if_pos hopt]
    exact .inl rfl
  by_cases hany : pid = -1
  · split_ifs
    · exact .inl rfl
    · exact .inr (.inl ⟨hany, rfl⟩)
  obtain ⟨c, hc⟩ := Option.ne_none_iff_exists'.1 (hpid.resolve_left hany)
  rw [hc]
  dsimp only
  have hcpid : (s.proc c).pPid = pid := by
    simpa using List.find?_some hc
  have hco : c ∈ s.procObjs := (h.tree.same c).1 (mem_of_find?_eq_some hc)
  split_ifs with hpp
  · exact .inl rfl
  rw [not_not] at hpp
  -- the process found is on the list of its parent, so there is a last child
  have hcc : c ∈ (s.proc s.curproc).pChildren := by
    have hci : c ≠ idle := by
      rintro rfl
      rw [h.tree.root.2.2] at hpp
      cases hpp
    obtain ⟨-, q, -, hq, hm⟩ := h.tree.parent c hco hci
    obtain rfl := Option.some.inj (hpp.symm.trans hq)
    exact hm
  obtain ⟨p, hp⟩ : ∃ p, (s.proc s.curproc).pChildren.getLast? = some p :=
    Option.ne_none_iff_exists'.1 fun hn => by
      rw [List.getLast?_eq_none_iff.1 hn] at hcc
      cases hcc
  have hfind : findChild s pid c = (true, p) := by
    rw [findChild_eq, hp]
    refine Prod.ext (any_eq_true.2 ⟨c, hcc, by simpa using hcpid⟩) rfl
  rw [hfind]
  exact .inr (.inr ⟨p, c, hp, rfl, hcc, rfl⟩)

end Weenix.Sched
