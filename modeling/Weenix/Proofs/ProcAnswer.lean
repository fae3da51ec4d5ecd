import Weenix.Proofs.ProcReap

/-! When `do_waitpid` answers `-ECHILD`. -/

namespace Weenix.Sched

open Exec

variable {s s' : State} {p q a idle : ℕ} {pid options v : ℤ} {st : StatusPtr} {c : Code}

/-- What the process table is to `do_waitpid`: pids are distinct and not negative, and the children of the caller are
on the list of processes with the caller as their parent. -/
structure Table (s : State) : Prop where
  range : ∀ p ∈ s.procList, 0 ≤ (s.proc p).pPid
  pids : ∀ p ∈ s.procList, ∀ q ∈ s.procList, (s.proc p).pPid = (s.proc q).pPid → p = q
  child : ∀ p ∈ (s.proc s.curproc).pChildren,
    p ∈ s.procList ∧ (s.proc p).pPproc = some s.curproc ∧ 0 < (s.proc p).pPid

theorem ProcInv.table (h : ProcInv idle s) : Table s := by
  refine ⟨fun p hp => (h.tree.range p ((h.tree.same p).1 hp)).1, fun p hp q hq => ?_, fun p hp => ?_⟩
  · exact h.tree.pids p ((h.tree.same p).1 hp) q ((h.tree.same q).1 hq)
  obtain ⟨hpo, hpi, hpp⟩ := h.tree.child _ h.curproc.1 p hp
  refine ⟨(h.tree.same p).2 hpo, hpp, ?_⟩
  have hzero : (s.proc p).pPid ≠ 0 := by
    intro h0
    exact hpi (h.tree.pids p hpo idle h.tree.root.1 (h0.trans h.tree.root.2.1.symm))
  have := (h.tree.range p hpo).1
  omega

def IsChild (s : State) (pid : ℤ) : Prop := ∃ p ∈ (s.proc s.curproc).pChildren, (s.proc p).pPid = pid

/-- The cases in which the comment of `do_waitpid` asks for `-ECHILD`. -/
def Refused (s : State) (pid options : ℤ) : Prop :=
  (s.proc s.curproc).pChildren = [] ∨ (0 < pid ∧ ¬ IsChild s pid) ∨ (pid ≠ -1 ∧ pid ≤ 0) ∨ options ≠ 0

/-- The call that `c` is the rest of returns `v`, at once or after more rounds of sleep, in whatever states it is
woken up. -/
inductive Answers : Code → ℤ → Prop
  | now {c : Code} {u u' : State} : Table u → exec u c = .ok (false, u') → u'.cpu = u.cpu → Answers c u'.ret
  | later {c c' : Code} {u u' : State} {v : ℤ} : Table u → exec u c = .ok (false, u') →
      u'.cpu.frames = .schedSwitch :: c' :: u.cpu.frames → Answers c' v → Answers c v

def WaitpidReturns (s : State) (pid options : ℤ) (a : ℕ) (v : ℤ) : Prop :=
  ∃ s', doWaitpid s pid options a = .ok s' ∧
    (s'.cpu = s.cpu ∧ s'.ret = v ∨ ∃ c, s'.cpu.frames = .schedSwitch :: c :: s.cpu.frames ∧ Answers c v)

structure WaitpidContract (s : State) (pid options : ℤ) (a : ℕ) : Prop where
  refuses : Refused s pid options → doWaitpid s pid options a = .ok { s with ret := -ECHILD }
  accepts : ¬ Refused s pid options → ¬ WaitpidReturns s pid options a (-ECHILD)

/-! ### Rounds -/

theorem waitAny_ends (h : waitAny s st = .ok s') :
    (s'.cpu = s.cpu ∧ (s'.ret = -1 ∨ ∃ p ∈ (s.proc s.curproc).pChildren, s'.ret = (s.proc p).pPid)) ∨
      ∃ st', s'.cpu.frames = .schedSwitch :: .waitAny st' :: s.cpu.frames := by
  unfold waitAny at h
  split_ifs at h
  · cases h
    exact .inl ⟨rfl, .inl rfl⟩
  obtain ⟨⟨w, s1⟩, h1, h2⟩ := ok_of_bind h
  obtain ⟨hs, hw⟩ := reapScan_spares _ h1
  dsimp only at h2
  split_ifs at h2
  · obtain ⟨-, rfl⟩ := schedSleepOn_ok h2
    refine .inr ⟨w.status, ?_⟩
    rw [← hs.cpu]
    rfl
  split at h2
  · cases h2
  obtain ⟨s2, h3, h4⟩ := ok_of_bind h2
  cases h4
  exact .inl ⟨(Relink.free (A := fun _ => True) h3).spares.cpu.trans hs.cpu, hw⟩

theorem waitPid_ends (h : waitPid s pid p st = .ok s') :
    (s'.cpu = s.cpu ∧ s'.ret = pid) ∨ s'.cpu.frames = .schedSwitch :: .waitPid pid p st :: s.cpu.frames := by
  unfold waitPid at h
  split_ifs at h
  · obtain ⟨s1, h1, h2⟩ := ok_of_bind h
    obtain ⟨s2, h3, h4⟩ := ok_of_bind h2
    obtain ⟨s3, h5, h6⟩ := ok_of_bind h4
    cases h6
    have hunlink := unlinkChild_relinks (A := fun _ => True) (fun _ _ => trivial) h1
    have hrelinks := (hunlink.trans (destroyExited_relinks _ h3)).tail (.free h5)
    exact .inl ⟨(Relinks.spares hrelinks).cpu, rfl⟩
  · obtain ⟨-, rfl⟩ := schedSleepOn_ok h
    exact .inr rfl

def Code.Waiting : Code → Prop
  | .waitAny _ => True
  | .waitPid pid _ _ => 0 < pid
  | _ => False

/-- One round of a call that waits. -/
theorem waiting_round (hc : c.Waiting) (ht : Table s) (h : exec s c = .ok (false, s')) :
    (s'.cpu = s.cpu ∧ s'.ret ≠ -ECHILD) ∨ ∃ c' : Code, c'.Waiting ∧ s'.cpu.frames = .schedSwitch :: c' :: s.cpu.frames := by
  have hech : ECHILD = 10 := rfl
  match c, hc with
  | .waitAny st, _ =>
    obtain ⟨-, hw⟩ := exec_ok h
    rcases waitAny_ends hw with ⟨hcpu, hret⟩ | ⟨st', hf⟩
    · refine .inl ⟨hcpu, ?_⟩
      rcases hret with hret | ⟨p, hp, hret⟩
      · omega
      have := (ht.child p hp).2.2
      omega
    · exact .inr ⟨.waitAny st', trivial, hf⟩
  | .waitPid pid p st, hpid =>
    have hpos : 0 < pid := hpid
    obtain ⟨-, hw⟩ := exec_ok h
    rcases waitPid_ends hw with ⟨hcpu, hret⟩ | hf
    · exact .inl ⟨hcpu, by omega⟩
    · exact .inr ⟨.waitPid pid p st, hpid, hf⟩

theorem ne_cons_cons {α : Type} {x y : α} (l : List α) : l ≠ x :: y :: l := by
  intro h
  have := congrArg List.length h
  simp only [List.length_cons] at this
  omega

theorem Answers.ne_echild (h : Answers c v) (hc : c.Waiting) : v ≠ -ECHILD := by
  induction h with
  | now ht he hcpu =>
    rcases waiting_round hc ht he with ⟨-, hret⟩ | ⟨c', -, hf⟩
    · exact hret
    rw [hcpu] at hf
    exact absurd hf (ne_cons_cons _)
  | later ht he hf _ ih =>
    rcases waiting_round hc ht he with ⟨hcpu, -⟩ | ⟨c', hc', hf'⟩
    · rw [hcpu] at hf
      exact absurd hf (ne_cons_cons _)
    rw [hf] at hf'
    simp only [List.cons.injEq, true_and, and_true] at hf'
    exact ih (hf' ▸ hc')

/-! ### The contract -/

theorem procLookup_some (h : procLookup s pid = some p) : p ∈ s.procList ∧ (s.proc p).pPid = pid :=
  ⟨List.mem_of_find?_eq_some h, by simpa using List.find?_some h⟩

theorem procLookup_none : procLookup s pid = none ↔ ∀ p ∈ s.procList, (s.proc p).pPid ≠ pid := by
  rw [procLookup, List.find?_eq_none]
  simp

theorem Table.lookup_child (ht : Table s) (hp : p ∈ (s.proc s.curproc).pChildren) : procLookup s (s.proc p).pPid = some p := by
  obtain ⟨hlist, -⟩ := ht.child p hp
  cases h : procLookup s (s.proc p).pPid with
  | none => exact absurd rfl (procLookup_none.1 h p hlist)
  | some q =>
    obtain ⟨hq, hpid⟩ := procLookup_some h
    rw [ht.pids q hq p hlist hpid]

theorem findChild_child (h : IsChild s pid) (p : ℕ) : ∃ q, findChild s pid p = (true, q) := by
  obtain ⟨x, hx, hpid⟩ := h
  exact ⟨_, by rw [findChild_eq]; exact Prod.ext (List.any_eq_true.2 ⟨x, hx, by simpa using hpid⟩) rfl⟩

theorem findChild_none (h : ¬ IsChild s pid) (p : ℕ) : ∃ q, findChild s pid p = (false, q) := by
  have hany : ((s.proc s.curproc).pChildren.any fun x => decide ((s.proc x).pPid = pid)) = false := by
    refine List.any_eq_false.2 fun x hx => ?_
    simpa using fun hpid => h ⟨x, hx, hpid⟩
  exact ⟨_, by rw [findChild_eq]; exact Prod.ext hany rfl⟩

/-- What `do_waitpid` does with the pid of a process. -/
theorem doWaitpid_pid (options : ℤ) (a : ℕ) (ht : Table s) (hpid : 0 ≤ pid) (hl : procLookup s pid = some p) :
    (IsChild s pid → ∃ q, doWaitpid s pid options a = waitPid s pid q (.out a)) ∧
      (¬ IsChild s pid → doWaitpid s pid options a = .ok { s with ret := -ECHILD }) := by
  have hgo : ∀ b q, findChild s pid p = (b, q) → doWaitpid s pid options a =
      if (s.proc p).pPproc ≠ some s.curproc ∨ b = false then .ok { s with ret := -ECHILD }
      else waitPid s pid q (.out a) := by
    intro b q hq
    rw [doWaitpid, if_neg (by simp [hl]), if_neg (by omega), if_neg (by omega)]
    simp only [hl, hq]
    cases b <;> simp
  refine ⟨fun hc => ?_, fun hc => ?_⟩
  · obtain ⟨q, hq⟩ := findChild_child hc p
    obtain ⟨x, hx, rfl⟩ := hc
    obtain rfl : x = p := Option.some.inj ((ht.lookup_child hx).symm.trans hl)
    exact ⟨q, (hgo _ _ hq).trans (if_neg (by simp [(ht.child x hx).2.1]))⟩
  · obtain ⟨q, hq⟩ := findChild_none hc p
    exact (hgo _ _ hq).trans (if_pos (.inr rfl))

theorem doWaitpid_any : doWaitpid s (-1) options a =
    if (s.proc s.curproc).pChildren = [] then .ok { s with ret := -ECHILD } else waitAny s (.out a) := by
  rw [doWaitpid, if_neg (by simp), if_neg (by omega), if_pos rfl]

theorem doWaitpid_null (hl : procLookup s pid = none) (hpid : pid ≠ -1) : doWaitpid s pid options a = .error .null := by
  rw [doWaitpid, if_pos ⟨hl, hpid⟩]

/-- `do_waitpid` answers as it should exactly for the pid -1 with no options or without children, and for the pid of a
process with no options or if the process is not a child. -/
def WaitpidFine (s : State) (pid options : ℤ) : Prop :=
  pid = -1 ∧ (options = 0 ∨ (s.proc s.curproc).pChildren = []) ∨
    0 ≤ pid ∧ procLookup s pid ≠ none ∧ (options = 0 ∨ ¬ IsChild s pid)

theorem not_returns_echild (ht : Table s) (hc : c.Waiting)
    (heq : ∀ s', doWaitpid s pid options a = .ok s' → exec s c = .ok (false, s')) :
    ¬ WaitpidReturns s pid options a (-ECHILD) := by
  rintro ⟨s', hs', hend⟩
  rcases waiting_round hc ht (heq s' hs') with ⟨hcpu, hret⟩ | ⟨c', hc', hf⟩
  · rcases hend with ⟨-, hret'⟩ | ⟨c', hf, -⟩
    · exact hret hret'
    rw [hcpu] at hf
    exact ne_cons_cons _ hf
  rcases hend with ⟨hcpu, -⟩ | ⟨c'', hf', ha⟩
  · rw [hcpu] at hf
    exact ne_cons_cons _ hf
  rw [hf] at hf'
  simp only [List.cons.injEq, true_and, and_true] at hf'
  exact (hf' ▸ ha).ne_echild hc' rfl

theorem not_waits_echild (ht : Table s) (hc : c.Waiting) : exec s c ≠ .ok (false, { s with ret := -ECHILD }) := by
  intro h
  rcases waiting_round hc ht h with ⟨-, hret⟩ | ⟨c', -, hf⟩
  · exact hret rfl
  · exact ne_cons_cons _ hf

theorem exec_waitAny (h : waitAny s st = .ok s') : exec s (.waitAny st) = .ok (false, s') := by
  rw [exec, h]
  rfl

theorem exec_waitPid (h : waitPid s pid p st = .ok s') : exec s (.waitPid pid p st) = .ok (false, s') := by
  rw [exec, h]
  rfl

theorem WaitpidContract.fine (ht : Table s) (hc : WaitpidContract s pid options a) : WaitpidFine s pid options := by
  rcases lt_trichotomy pid (-1) with hlt | rfl | hgt
  · -- no process has a negative pid: the assertion follows a null pointer
    have hl : procLookup s pid = none := procLookup_none.2 fun p hp hpid => by
      have := ht.range p hp
      omega
    have := hc.refuses (.inr (.inr (.inl ⟨by omega, by omega⟩)))
    rw [doWaitpid_null hl (by omega)] at this
    cases this
  · refine .inl ⟨rfl, ?_⟩
    by_contra hn
    obtain ⟨hopt, hch⟩ := not_or.1 hn
    have := hc.refuses (.inr (.inr (.inr hopt)))
    rw [doWaitpid_any, if_neg hch] at this
    exact not_waits_echild (c := .waitAny (.out a)) ht trivial (exec_waitAny this)
  refine .inr ⟨by omega, fun hl => ?_, ?_⟩
  · have hnot : ¬ IsChild s pid := by
      rintro ⟨p, hp, rfl⟩
      rw [ht.lookup_child hp] at hl
      cases hl
    have hr : Refused s pid options := by
      by_cases h0 : pid = 0
      · exact .inr (.inr (.inl ⟨by omega, by omega⟩))
      · exact .inr (.inl ⟨by omega, hnot⟩)
    have := hc.refuses hr
    rw [doWaitpid_null hl (by omega)] at this
    cases this
  · by_contra hn
    obtain ⟨hopt, hchild⟩ := not_or.1 hn
    obtain ⟨p, hp, rfl⟩ := not_not.1 hchild
    have hpos := (ht.child p hp).2.2
    obtain ⟨q, hq⟩ := (doWaitpid_pid options a ht (by omega) (ht.lookup_child hp)).1 ⟨p, hp, rfl⟩
    have := hc.refuses (.inr (.inr (.inr hopt)))
    rw [hq] at this
    exact not_waits_echild (c := .waitPid _ q (.out a)) ht hpos (exec_waitPid this)

/-- `do_waitpid` keeps its contract exactly in these cases. -/
theorem waitpidContract_iff (ht : Table s) : WaitpidContract s pid options a ↔ WaitpidFine s pid options := by
  refine ⟨fun hc => hc.fine ht, ?_⟩
  rintro (⟨rfl, hfine⟩ | ⟨hpid, hl, hfine⟩)
  · refine ⟨fun hr => ?_, fun hr => ?_⟩
    · have hch : (s.proc s.curproc).pChildren = [] := by
        rcases hr with hch | ⟨h0, -⟩ | ⟨h1, -⟩ | hopt
        · exact hch
        · omega
        · exact absurd rfl h1
        · exact hfine.resolve_left hopt
      rw [doWaitpid_any, if_pos hch]
    · refine not_returns_echild (c := .waitAny (.out a)) ht trivial fun s' hs' => ?_
      rw [doWaitpid_any, if_neg fun hch => hr (.inl hch)] at hs'
      exact exec_waitAny hs'
  obtain ⟨p, hp⟩ := Option.ne_none_iff_exists'.1 hl
  obtain ⟨hwaits, hrefuses⟩ := doWaitpid_pid options a ht hpid hp
  by_cases hchild : IsChild s pid
  · obtain ⟨x, hx, hxpid⟩ := id hchild
    have hpos := (ht.child x hx).2.2
    have hnot : ¬ Refused s pid options := by
      rintro (hch | ⟨-, hn⟩ | ⟨-, h0⟩ | hopt)
      · rw [hch] at hx
        cases hx
      · exact hn hchild
      · omega
      · exact (hfine.resolve_left hopt) hchild
    refine ⟨fun hr => absurd hr hnot, fun _ => ?_⟩
    obtain ⟨q, hq⟩ := hwaits hchild
    refine not_returns_echild (c := .waitPid pid q (.out a)) ht (by rw [← hxpid]; exact hpos) fun s' hs' => ?_
    rw [hq] at hs'
    exact exec_waitPid hs'
  · refine ⟨fun _ => hrefuses hchild, fun hr => ?_⟩
    refine absurd ?_ hr
    by_cases h0 : pid = 0
    · exact .inr (.inr (.inl ⟨by omega, by omega⟩))
    · exact .inr (.inl ⟨by omega, hchild⟩)

/-- The idle process has no children. -/
theorem waitpidContract_boot : WaitpidContract (bootState 100 0 fun _ => 0) (-1) 0 5 :=
  (waitpidContract_iff (procInv_boot 100 0 fun _ => 0).table).2 (.inl ⟨rfl, .inl rfl⟩)

/-- There is no process with the pid 7: instead of `-ECHILD` a null pointer is followed. -/
theorem waitpid_follows_null : doWaitpid (bootState 100 0 fun _ => 0) 7 0 5 = .error .null ∧
    ¬ WaitpidContract (bootState 100 0 fun _ => 0) 7 0 5 := by
  refine ⟨rfl, fun hc => ?_⟩
  have := hc.refuses (.inl rfl)
  cases this

end Weenix.Sched
