import Weenix.Proofs.SchedEffect

/-! The tree of processes. Every process that has not been reaped is a child of exactly one
other, and creation, exit and reaping keep it so. -/

namespace Weenix.Sched

open List State

variable {s s' : State} {p q x i idle : ℕ}

/-- The process list, the objects of `proc_allocator`, the parents and the lists of children
agree; pids are distinct; an exited process has no children. -/
structure ProcTree (idle : ℕ) (s : State) : Prop where
  list : s.procList.Nodup
  objs : s.procObjs.Nodup
  same : ∀ p, p ∈ s.procList ↔ p ∈ s.procObjs
  linked : ∀ p ∈ s.procObjs, (s.proc p).pListLink = true
  root : idle ∈ s.procObjs ∧ (s.proc idle).pPid = PID_IDLE ∧ (s.proc idle).pPproc = none
  parent : ∀ p ∈ s.procObjs, p ≠ idle → (s.proc p).pChildLink = true ∧
    ∃ q ∈ s.procObjs, (s.proc p).pPproc = some q ∧ p ∈ (s.proc q).pChildren
  child : ∀ q ∈ s.procObjs, ∀ p ∈ (s.proc q).pChildren,
    p ∈ s.procObjs ∧ p ≠ idle ∧ (s.proc p).pPproc = some q
  nodup : ∀ q ∈ s.procObjs, (s.proc q).pChildren.Nodup
  pids : ∀ p ∈ s.procObjs, ∀ q ∈ s.procObjs, (s.proc p).pPid = (s.proc q).pPid → p = q
  range : ∀ p ∈ s.procObjs, 0 ≤ (s.proc p).pPid ∧ (s.proc p).pPid < PROC_MAX_COUNT
  next : 0 ≤ s.nextPid ∧ s.nextPid < PROC_MAX_COUNT
  fresh : s.procInitproc = none → s.procList = [idle] ∧ s.nextPid = PID_INIT
  init : ∀ i, s.procInitproc = some i →
    i ∈ s.procObjs ∧ (s.proc i).pPid = PID_INIT ∧ (s.proc i).pState = .running ∧ (s.proc i).pPproc = some idle
  strict : ∀ p ∈ s.procObjs, (s.proc p).pPproc ≠ some p
  childless : ∀ p ∈ s.procObjs, (s.proc p).pState = .dead → (s.proc p).pChildren = []

/-- Two processes that agree on what the tree is made of. -/
structure SameNode (a b : Proc) : Prop where
  pPid : b.pPid = a.pPid
  pChildren : b.pChildren = a.pChildren
  pPproc : b.pPproc = a.pPproc
  pState : b.pState = a.pState
  pListLink : b.pListLink = a.pListLink
  pChildLink : b.pChildLink = a.pChildLink

theorem SameNode.refl (a : Proc) : SameNode a a := ⟨rfl, rfl, rfl, rfl, rfl, rfl⟩

/-- The states of processes change, but the init process runs and those that are dead have no children. -/
theorem ProcTree.restate (h : ProcTree idle s)
    (hn : ∀ x, SameNode (s.proc x) { s'.proc x with pState := (s.proc x).pState })
    (hl : s'.procList = s.procList) (ho : s'.procObjs = s.procObjs) (hnext : s'.nextPid = s.nextPid)
    (hi : s'.procInitproc = s.procInitproc)
    (hrun : ∀ i, s.procInitproc = some i → (s'.proc i).pState = .running)
    (hdead : ∀ p ∈ s.procObjs, (s'.proc p).pState = .dead → (s.proc p).pChildren = []) : ProcTree idle s' := by
  have hpid := fun x => (hn x).pPid
  have hch := fun x => (hn x).pChildren
  have hpp := fun x => (hn x).pPproc
  have hll := fun x => (hn x).pListLink
  have hcl := fun x => (hn x).pChildLink
  dsimp only at hpid hch hpp hll hcl
  constructor
  all_goals simp only [hl, ho, hnext, hi, hpid, hch, hpp, hll, hcl]
  · exact h.list
  · exact h.objs
  · exact h.same
  · exact h.linked
  · exact h.root
  · exact h.parent
  · exact h.child
  · exact h.nodup
  · exact h.pids
  · exact h.range
  · exact h.next
  · exact h.fresh
  · intro i hi
    obtain ⟨h1, h2, -, h4⟩ := h.init i hi
    exact ⟨h1, h2, hrun i hi, h4⟩
  · exact h.strict
  · exact hdead

theorem ProcTree.congr (h : ProcTree idle s) (hn : ∀ x, SameNode (s.proc x) (s'.proc x))
    (hl : s'.procList = s.procList) (ho : s'.procObjs = s.procObjs) (hnext : s'.nextPid = s.nextPid)
    (hi : s'.procInitproc = s.procInitproc) : ProcTree idle s' :=
  h.restate (fun x => { hn x with pState := rfl }) hl ho hnext hi
    (fun i hi => (hn i).pState.trans (h.init i hi).2.2.1)
    fun p hp hd => h.childless p hp ((hn p).pState.symm.trans hd)

theorem ProcTree.setProc (h : ProcTree idle s) (p : ℕ) (f : Proc → Proc) (hf : ∀ a, SameNode a (f a)) :
    ProcTree idle (s.setProc p f) := by
  refine h.congr (fun x => ?_) rfl rfl rfl rfl
  rw [setProc_proc]
  split_ifs with hx
  · exact hx ▸ hf _
  · exact .refl _

/-- A process has one parent. -/
theorem ProcTree.parent_unique {r : ℕ} (h : ProcTree idle s) (hq : q ∈ s.procObjs) (hr : r ∈ s.procObjs)
    (hpq : p ∈ (s.proc q).pChildren) (hpr : p ∈ (s.proc r).pChildren) : q = r :=
  Option.some.inj ((h.child q hq p hpq).2.2.symm.trans (h.child r hr p hpr).2.2)

/-- Removing a child takes it off the list of its parent only. -/
theorem ProcTree.erase_child (h : ProcTree idle s) (hq : q ∈ s.procObjs) (hx : x ∈ s.procObjs)
    (hpq : p ∈ (s.proc q).pChildren) (hne : x ≠ q) : (s.proc x).pChildren.erase p = (s.proc x).pChildren :=
  erase_of_not_mem fun hm => hne (h.parent_unique hx hq hm hpq)

/-! ### Exit -/

theorem nodup_concat {l : List ℕ} (h : l.Nodup) (hx : x ∉ l) : (l ++ [x]).Nodup :=
  concat_eq_append ▸ h.concat hx

def State.adopted (s : State) (x i : ℕ) : State :=
  { s with proc := fun y => { s.proc y with
      pChildren := if y = i then (s.proc y).pChildren.erase x ++ [x] else (s.proc y).pChildren.erase x
      pPproc := if y = x then some i else (s.proc y).pPproc
      pChildLink := if y = x then true else (s.proc y).pChildLink } }

theorem adopt_childRemove (hi : s.procInitproc = some i) : adopt (childRemove s x) x = .ok (s.adopted x i) := by
  have hproc : ∀ y, ((((childRemove s x).setProc x fun q => { q with pPproc := some i }).setProc i
      fun q => { q with pChildren := q.pChildren ++ [x] }).setProc x
        fun q => { q with pChildLink := true }).proc y = (s.adopted x i).proc y := by
    intro y
    by_cases hyx : y = x <;> by_cases hyi : y = i <;> by_cases hxi : x = i <;>
      simp_all [State.setProc, childRemove, State.adopted]
  rw [adopt, show (childRemove s x).procInitproc = some i from hi]
  exact congrArg Except.ok (congrArg (fun f => { s with proc := f }) (funext hproc))

/-- Moving a child to the init process. -/
theorem ProcTree.adopted (h : ProcTree idle s) (hi : s.procInitproc = some i) (hp : p ∈ s.procObjs)
    (hpr : p ≠ idle) (hx : x ∈ (s.proc p).pChildren) : ProcTree idle (s.adopted x i) := by
  have hio := (h.init i hi).1
  have hxo := h.child p hp x hx
  -- the parent of the init process is the idle process
  have hxi : x ≠ i := by
    rintro rfl
    exact hpr (Option.some.inj (hxo.2.2.symm.trans (h.init x hi).2.2.2))
  have hch : ∀ q ∈ s.procObjs, ∀ y, y ∈ ((s.adopted x i).proc q).pChildren ↔
      if y = x then q = i else y ∈ (s.proc q).pChildren := by
    intro q hq y
    have hmem := (h.nodup q hq).mem_erase_iff (a := y) (b := x)
    by_cases hqi : q = i <;> by_cases hyx : y = x <;> simp_all [State.adopted]
  refine ⟨h.list, h.objs, h.same, h.linked, ⟨h.root.1, h.root.2.1, ?_⟩, fun y hy hyi => ?_, fun q hq y hy => ?_, fun q hq => ?_,
    h.pids, h.range, h.next, h.fresh, fun j hj => ?_, fun y hy => ?_, fun q hq hd => ?_⟩
  · simpa [State.adopted, hxo.2.1.symm] using h.root.2.2
  · by_cases hyx : y = x
    · subst hyx
      exact ⟨by simp [State.adopted], i, hio, by simp [State.adopted], (hch i hio y).2 (by simp)⟩
    obtain ⟨hl, q, hq, hpq, hm⟩ := h.parent y hy hyi
    refine ⟨by simpa [State.adopted, hyx] using hl, q, hq, by simpa [State.adopted, hyx] using hpq, ?_⟩
    rw [hch q hq, if_neg hyx]
    exact hm
  · rw [hch q hq] at hy
    split_ifs at hy with hyx
    · subst hyx hy
      exact ⟨hxo.1, hxo.2.1, by simp [State.adopted]⟩
    · obtain ⟨h1, h2, h3⟩ := h.child q hq y hy
      exact ⟨h1, h2, by simpa [State.adopted, hyx] using h3⟩
  · have herase := (h.nodup q hq).erase x
    have hnot : x ∉ (s.proc q).pChildren.erase x := (h.nodup q hq).not_mem_erase
    by_cases hqi : q = i
    · simpa only [State.adopted, if_pos hqi] using nodup_concat herase hnot
    · simpa only [State.adopted, if_neg hqi] using herase
  · obtain rfl : i = j := Option.some.inj (hi.symm.trans hj)
    simpa [State.adopted, hxi.symm] using h.init i hi
  · by_cases hyx : y = x
    · simpa [State.adopted, hyx] using hxi.symm
    · simpa [State.adopted, hyx] using h.strict y hy
  have hqi : q ≠ i := by
    rintro rfl
    have hrun := (h.init q hi).2.2.1
    change (s.proc q).pState = .dead at hd
    rw [hrun] at hd
    cases hd
  have := h.childless q hq hd
  simp [State.adopted, hqi, this]

/-- What changes when children of `p` move elsewhere. -/
structure Moves (p : ℕ) (s s' : State) : Prop where
  same : s' = { s with proc := s'.proc }
  node : ∀ x, (s'.proc x).pThreads = (s.proc x).pThreads ∧ (s'.proc x).pState = (s.proc x).pState ∧
    (s'.proc x).pPid = (s.proc x).pPid
  grows : ∀ q, q ≠ p → ∀ x ∈ (s.proc q).pChildren, q ∈ s.procObjs → x ∈ (s'.proc q).pChildren

theorem Moves.refl (p : ℕ) (s : State) : Moves p s s :=
  ⟨rfl, fun _ => ⟨rfl, rfl, rfl⟩, fun _ _ _ hx _ => hx⟩

theorem Moves.trans {s1 : State} (h1 : Moves p s s1) (h2 : Moves p s1 s') : Moves p s s' := by
  have hobjs : s1.procObjs = s.procObjs := by rw [h1.same]
  refine ⟨?_, fun x => ?_, fun q hq x hx ho => h2.grows q hq x (h1.grows q hq x hx ho) (hobjs ▸ ho)⟩
  · rw [h2.same, h1.same]
  obtain ⟨a1, a2, a3⟩ := h1.node x
  obtain ⟨b1, b2, b3⟩ := h2.node x
  exact ⟨b1.trans a1, b2.trans a2, b3.trans a3⟩

theorem ProcTree.moves_adopted (h : ProcTree idle s) (hp : p ∈ s.procObjs) (hx : x ∈ (s.proc p).pChildren)
    (i : ℕ) : Moves p s (s.adopted x i) := by
  refine ⟨rfl, fun _ => ⟨rfl, rfl, rfl⟩, fun q hq y hy ho => ?_⟩
  have herase := h.erase_child hp ho hx hq
  by_cases hqi : q = i
  · simp [State.adopted, hqi, hqi ▸ herase, hqi ▸ hy]
  · simp [State.adopted, hqi, herase, hy]

/-- The loop over the children in `proc_cleanup` moves them all to the init process. -/
theorem ProcTree.reparent (hpi : p ≠ i) (hpr : p ≠ idle) (l : List ℕ) (h : ProcTree idle s)
    (hi : s.procInitproc = some i) (hp : p ∈ s.procObjs) (hl : (s.proc p).pChildren = l) :
    ∃ s', reparent l s = .ok s' ∧ ProcTree idle s' ∧ (s'.proc p).pChildren = [] ∧ Moves p s s' := by
  induction l generalizing s with
  | nil =>
    exact ⟨s, rfl, h, hl, .refl p s⟩
  | cons x l ih =>
    have hx : x ∈ (s.proc p).pChildren := hl ▸ mem_cons_self
    obtain ⟨hxo, hxi, -⟩ := h.child p hp x hx
    have hlink := (h.parent x hxo hxi).1
    have hl' : ((s.adopted x i).proc p).pChildren = l := by
      simp [State.adopted, hpi, hl]
    obtain ⟨s', h1, h2, h3, h4⟩ := ih (h.adopted hi hp hpr hx) hi hp hl'
    refine ⟨s', ?_, h2, h3, (h.moves_adopted hp hx i).trans h4⟩
    rw [Sched.reparent, if_pos hlink, adopt_childRemove hi]
    exact h1

/-- A process that has no children left ends. -/
theorem ProcTree.die (h : ProcTree idle s) (hi : s.procInitproc = some i) (hpi : p ≠ i)
    (hl : (s.proc p).pChildren = []) (status : ℤ) :
    ProcTree idle (s.setProc p fun q => { q with pState := .dead, pStatus := status }) := by
  refine h.restate (fun x => ?_) rfl rfl rfl rfl (fun j hj => ?_) fun x hx hd => ?_
  · rw [setProc_proc]
    split_ifs with hx
    · exact hx ▸ ⟨rfl, rfl, rfl, rfl, rfl, rfl⟩
    · exact .refl _
  · obtain rfl : i = j := Option.some.inj (hi.symm.trans hj)
    rw [setProc_proc, if_neg hpi.symm]
    exact (h.init i hi).2.2.1
  by_cases hxp : x = p
  · rw [hxp, hl]
  rw [setProc_proc, if_neg hxp] at hd
  exact h.childless x hx hd

/-! ### Reaping -/

def State.reaped (s : State) (p t : ℕ) : State :=
  { s with
    thrObjs := s.thrObjs.erase t
    procList := s.procList.erase p
    procObjs := s.procObjs.erase p
    proc := fun x => { s.proc x with
      pChildren := (s.proc x).pChildren.erase p
      pChildLink := if x = p then false else (s.proc x).pChildLink
      pListLink := if x = p then false else (s.proc x).pListLink
      pThreads := if x = p then (s.proc x).pThreads.erase t else (s.proc x).pThreads } }

theorem ProcTree.reaped (h : ProcTree idle s) (hp : p ∈ s.procObjs) (hpi : p ≠ idle)
    (hd : (s.proc p).pState = .dead) (t : ℕ) : ProcTree idle (s.reaped p t) := by
  have hmem : ∀ x, x ∈ s.procObjs.erase p ↔ x ≠ p ∧ x ∈ s.procObjs := fun x => h.objs.mem_erase_iff
  have hchild : ∀ q ∈ s.procObjs, ∀ y, y ∈ (s.proc q).pChildren.erase p ↔
      y ≠ p ∧ y ∈ (s.proc q).pChildren := fun q hq y => (h.nodup q hq).mem_erase_iff
  refine ⟨h.list.erase p, h.objs.erase p, fun x => ?_, fun x hx => ?_, ⟨(hmem idle).2 ⟨hpi.symm, h.root.1⟩,
    h.root.2⟩, fun x hx hxi => ?_, fun q hq y hy => ?_, fun q hq => ?_, fun x hx y hy => ?_, fun x hx => ?_,
    h.next, fun hn => ?_, fun j hj => ?_, fun x hx => ?_, fun x hx hdx => ?_⟩
  · change x ∈ s.procList.erase p ↔ x ∈ s.procObjs.erase p
    rw [h.list.mem_erase_iff, hmem, h.same]
  · obtain ⟨hne, hx⟩ := (hmem x).1 hx
    simpa [State.reaped, hne] using h.linked x hx
  · obtain ⟨hne, hx⟩ := (hmem x).1 hx
    obtain ⟨hl, q, hq, hpq, hm⟩ := h.parent x hx hxi
    -- the process that goes has no children, so it is not the parent
    have hqp : q ≠ p := by
      rintro rfl
      rw [h.childless q hp hd] at hm
      cases hm
    refine ⟨by simpa [State.reaped, hne] using hl, q, (hmem q).2 ⟨hqp, hq⟩, hpq, ?_⟩
    exact (hchild q hq x).2 ⟨hne, hm⟩
  · obtain ⟨-, hq⟩ := (hmem q).1 hq
    obtain ⟨hne, hy⟩ := (hchild q hq y).1 hy
    obtain ⟨h1, h2, h3⟩ := h.child q hq y hy
    exact ⟨(hmem y).2 ⟨hne, h1⟩, h2, h3⟩
  · exact (h.nodup q ((hmem q).1 hq).2).erase p
  · exact h.pids x ((hmem x).1 hx).2 y ((hmem y).1 hy).2
  · exact h.range x ((hmem x).1 hx).2
  · have hlist := (h.fresh hn).1
    have hp' := (h.same p).2 hp
    rw [hlist, mem_singleton] at hp'
    exact absurd hp' hpi
  · obtain ⟨h1, h2, h3⟩ := h.init j hj
    refine ⟨(hmem j).2 ⟨?_, h1⟩, h2, h3⟩
    rintro rfl
    rw [h3.1] at hd
    cases hd
  · exact h.strict x ((hmem x).1 hx).2
  · change (s.proc x).pChildren.erase p = []
    rw [h.childless x ((hmem x).1 hx).2 hdx]
    rfl

/-! ### Creation -/

def PidUsed (s : State) (pid : ℤ) : Prop := ∃ p ∈ s.procList, (s.proc p).pPid = pid

def State.pidAt (s : State) (k : ℕ) : ℤ := (s.nextPid + k) % PROC_MAX_COUNT

theorem pidAt_succ (s : State) (k : ℕ) : (s.pidAt k + 1) % PROC_MAX_COUNT = s.pidAt (k + 1) := by
  simp only [State.pidAt, PROC_MAX_COUNT]
  omega

theorem pidAt_eq_next (hn : 0 ≤ s.nextPid ∧ s.nextPid < PROC_MAX_COUNT) {k : ℕ}
    (hk : (k : ℤ) ≤ PROC_MAX_COUNT) (h0 : 0 < k) : s.pidAt k = s.nextPid ↔ (k : ℤ) = PROC_MAX_COUNT := by
  simp only [State.pidAt, PROC_MAX_COUNT] at *
  omega

theorem pidAt_range (s : State) (k : ℕ) : 0 ≤ s.pidAt k ∧ s.pidAt k < PROC_MAX_COUNT := by
  simp only [State.pidAt, PROC_MAX_COUNT]
  omega

/-- The search of `_proc_getid` from a pid on ends, with what it returns and the new value of `next_pid`. -/
inductive GetsId (s : State) : ℤ → ℤ × ℤ → Prop
  | free {pid : ℤ} : ¬ PidUsed s pid → GetsId s pid (pid, (pid + 1) % PROC_MAX_COUNT)
  | full {pid : ℤ} : PidUsed s pid → (pid + 1) % PROC_MAX_COUNT = s.nextPid → GetsId s pid (-1, s.nextPid)
  | failed {pid : ℤ} {r : ℤ × ℤ} : PidUsed s pid → (pid + 1) % PROC_MAX_COUNT ≠ s.nextPid →
      GetsId s ((pid + 1) % PROC_MAX_COUNT) r → GetsId s pid r

/-- The pid at distance `j` is the first free one, and it is what is returned. -/
def FirstFree (s : State) (r : ℤ × ℤ) (j : ℕ) : Prop :=
  ¬ PidUsed s (s.pidAt j) ∧ (∀ i < j, PidUsed s (s.pidAt i)) ∧ r = (s.pidAt j, (s.pidAt j + 1) % PROC_MAX_COUNT)

/-- The search tries the pids behind `next_pid` in turn. The induction is on the number of
pids left to try; those up to distance `k` are in use. -/
theorem procGetidFrom_spec (hn : 0 ≤ s.nextPid ∧ s.nextPid < PROC_MAX_COUNT) : ∀ (n k : ℕ),
    (n + k : ℤ) = PROC_MAX_COUNT → 0 < n → (∀ j < k, PidUsed s (s.pidAt j)) →
    GetsId s (s.pidAt k) (procGetidFrom s n (s.pidAt k)) ∧
    ((∃ j, FirstFree s (procGetidFrom s n (s.pidAt k)) j) ∨
      (∀ j : ℕ, (j : ℤ) < PROC_MAX_COUNT → PidUsed s (s.pidAt j)) ∧
        procGetidFrom s n (s.pidAt k) = (-1, s.nextPid)) := by
  intro n
  induction n with
  | zero => exact fun k _ h0 => absurd h0 (lt_irrefl 0)
  | succ n ih =>
    intro k hk _ hused
    have hany : (s.procList.any fun p => decide ((s.proc p).pPid = s.pidAt k)) = true ↔ PidUsed s (s.pidAt k) := by
      simp [PidUsed]
    rw [procGetidFrom]
    by_cases hu : PidUsed s (s.pidAt k)
    · have hused' := Nat.forall_lt_succ_right.2 ⟨hused, hu⟩
      have hback := pidAt_eq_next hn (k := k + 1) (by push_cast; omega) (Nat.succ_pos k)
      simp only [if_pos (hany.2 hu)]
      split_ifs with hw
      · refine ⟨.full hu hw, .inr ⟨fun j hj => hused' j ?_, rfl⟩⟩
        have := hback.1 ((pidAt_succ s k).symm.trans hw)
        omega
      · have hpos : 0 < n := by
          by_contra h0
          exact hw ((pidAt_succ s k).trans (hback.2 (by omega)))
        obtain ⟨hgets, hcases⟩ := ih (k + 1) (by push_cast; omega) hpos hused'
        rw [← pidAt_succ] at hgets hcases
        exact ⟨.failed hu hw hgets, hcases⟩
    · rw [if_neg (mt hany.1 hu)]
      exact ⟨.free hu, .inl ⟨k, hu, hused, rfl⟩⟩

theorem procGetid_cases (hn : 0 ≤ s.nextPid ∧ s.nextPid < PROC_MAX_COUNT) : GetsId s s.nextPid (procGetid s) ∧
    ((∃ j, FirstFree s (procGetid s) j) ∨
      (∀ j : ℕ, (j : ℤ) < PROC_MAX_COUNT → PidUsed s (s.pidAt j)) ∧ procGetid s = (-1, s.nextPid)) := by
  have h0 : s.pidAt 0 = s.nextPid := by
    simp only [State.pidAt, PROC_MAX_COUNT] at *
    omega
  have hspec := procGetidFrom_spec hn PROC_MAX_COUNT.toNat 0 (by decide) (by decide) (by simp)
  rwa [h0] at hspec

/-- `_proc_getid` ends. It returns the first pid from `next_pid` on that is free, or that there is none. -/
theorem procGetid_first_free (hn : 0 ≤ s.nextPid ∧ s.nextPid < PROC_MAX_COUNT) :
    GetsId s s.nextPid (procGetid s) ∧ ((∃ j, FirstFree s (procGetid s) j) ∨ procGetid s = (-1, s.nextPid)) ∧
    (procGetid s = (-1, s.nextPid) ↔ ∀ pid, 0 ≤ pid → pid < PROC_MAX_COUNT → PidUsed s pid) := by
  obtain ⟨hgets, hcases⟩ := procGetid_cases hn
  refine ⟨hgets, hcases.imp_right And.right, ?_⟩
  rcases hcases with ⟨j, hj⟩ | ⟨hall, he⟩
  · have hrange := pidAt_range s j
    refine iff_of_false (fun he => ?_) fun hall => hj.1 (hall _ hrange.1 hrange.2)
    have := congrArg Prod.fst (hj.2.2.symm.trans he)
    omega
  · refine iff_of_true he fun pid h0 hlt => ?_
    -- the pid is tried when as many have been tried as lie between it and `next_pid`
    have hat : s.pidAt ((pid - s.nextPid) % PROC_MAX_COUNT).toNat = pid := by
      simp only [State.pidAt, PROC_MAX_COUNT] at *
      omega
    rw [← hat]
    refine hall _ ?_
    simp only [PROC_MAX_COUNT]
    omega

/-- The pid 0 is tried first and is that of the idle process. -/
theorem procGetid_collision : PidUsed { bootState 0 0 fun _ => 0 with nextPid := 0 } 0 ∧
    GetsId { bootState 0 0 fun _ => 0 with nextPid := 0 } 0 (1, 2) :=
  ⟨⟨0, by decide, rfl⟩, (procGetid_first_free (s := { bootState 0 0 fun _ => 0 with nextPid := 0 }) (by decide)).1⟩

/-- The pids tried are distinct, so with fewer processes than pids one of them is free. -/
theorem exists_free_pid (hlen : (s.procList.length : ℤ) < PROC_MAX_COUNT) :
    ∃ j : ℕ, (j : ℤ) < PROC_MAX_COUNT ∧ ¬ PidUsed s (s.pidAt j) := by
  by_contra hall
  push Not at hall
  have hsub : (Finset.range 65536).image s.pidAt ⊆ (s.procList.map fun p => (s.proc p).pPid).toFinset := by
    intro pid hpid
    obtain ⟨j, hj, rfl⟩ := Finset.mem_image.1 hpid
    obtain ⟨p, hp, he⟩ := hall j (by
      have := Finset.mem_range.1 hj
      simp only [PROC_MAX_COUNT]
      omega)
    rw [mem_toFinset, mem_map]
    exact ⟨p, hp, he⟩
  have hinj : Set.InjOn s.pidAt (Finset.range 65536 : Finset ℕ) := by
    intro a ha b hb hab
    have ha := Finset.mem_range.1 (Finset.mem_coe.1 ha)
    have hb := Finset.mem_range.1 (Finset.mem_coe.1 hb)
    simp only [State.pidAt, PROC_MAX_COUNT] at hab
    omega
  have hcard := (Finset.card_le_card hsub).trans (toFinset_card_le _)
  rw [Finset.card_image_of_injOn hinj, Finset.card_range, length_map] at hcard
  simp only [PROC_MAX_COUNT] at hlen
  omega

theorem procGetid_spec (hn : 0 ≤ s.nextPid ∧ s.nextPid < PROC_MAX_COUNT)
    (hlen : (s.procList.length : ℤ) < PROC_MAX_COUNT) : ∃ j, FirstFree s (procGetid s) j := by
  rcases (procGetid_cases hn).2 with hj | ⟨hall, -⟩
  · exact hj
  obtain ⟨j, hj, hfree⟩ := exists_free_pid hlen
  exact absurd (hall j hj) hfree

/-- What `proc_create` of an object that is not in use leads to. -/
structure Created (s : State) (new : ℕ) (pid : ℤ) (s' : State) : Prop where
  procObjs : s'.procObjs = new :: s.procObjs
  procList : s'.procList = s.procList ++ [new]
  procInitproc : s'.procInitproc = if pid = PID_INIT then some new else s.procInitproc
  nextPid : 0 ≤ s'.nextPid ∧ s'.nextPid < PROC_MAX_COUNT
  born : ∃ cwd, s'.proc new = ⟨pid, [], [], some s.curproc, 0, .running, true, true,
    List.replicate NFILES none, cwd⟩
  cur : s'.proc s.curproc =
    { s.proc s.curproc with pChildren := (s.proc s.curproc).pChildren ++ [new] }
  other : ∀ x, x ≠ new → x ≠ s.curproc → s'.proc x = s.proc x
  rest : s' = { schedQueueInit s (.wait new) with
    procObjs := s'.procObjs, procList := s'.procList, procInitproc := s'.procInitproc,
    nextPid := s'.nextPid, proc := s'.proc }

theorem ProcTree.procCreate_spec {new : ℕ} (h : ProcTree idle s) (hnew : new ∉ s.procObjs)
    (hcur : s.curproc ∈ s.procObjs) (hlen : (s.procList.length : ℤ) < PROC_MAX_COUNT)
    (hs : procCreate s new = .ok s') :
    ∃ pid, ¬ PidUsed s pid ∧ 0 < pid ∧ pid < PROC_MAX_COUNT ∧ (s.procInitproc = none → pid = PID_INIT) ∧
      (pid = PID_INIT → s.curproc = idle) ∧ Created s new pid s' := by
  obtain ⟨j, hfree, hused, hget⟩ := procGetid_spec h.next hlen
  rw [pidAt_succ] at hget
  have hrange := pidAt_range s j
  have hidle : s.pidAt j ≠ 0 := by
    intro h0
    exact hfree ⟨idle, (h.same idle).2 h.root.1, h.root.2.1.trans h0.symm⟩
  have hpos : 0 < s.pidAt j := lt_of_le_of_ne hrange.1 (Ne.symm hidle)
  have hcn : s.curproc ≠ new := fun he => hnew (he ▸ hcur)
  refine ⟨s.pidAt j, hfree, hpos, hrange.2, fun hn => ?_, fun hp => ?_, ?_⟩
  · -- without an init process there is only the idle process, and the first pid tried is 1
    obtain ⟨hlist, hnext⟩ := h.fresh hn
    have h0 : s.pidAt 0 = PID_INIT := by
      rw [State.pidAt, hnext]
      decide
    rcases Nat.eq_zero_or_pos j with rfl | hj
    · exact h0
    obtain ⟨p, hp, hpid⟩ := hused 0 hj
    rw [hlist, mem_singleton] at hp
    rw [hp, h.root.2.1, h0] at hpid
    cases hpid
  · refine h.pids _ hcur _ h.root.1 (Eq.trans ?_ h.root.2.1.symm)
    by_contra hne
    rw [procCreate, hget] at hs
    dsimp only at hs
    rw [if_pos (show s.pidAt j = PID_INIT ∧ _ from ⟨hp, hne⟩)] at hs
    split_ifs at hs
  rw [procCreate, hget] at hs
  dsimp only at hs
  generalize (if 2 < s.pidAt j then (s.proc s.curproc).pCwd else none) = cwd at hs
  generalize hinit : (if s.pidAt j = PID_INIT then some new else s.procInitproc) = init at hs
  split_ifs at hs
  cases hs
  refine ⟨rfl, rfl, hinit.symm, pidAt_range s (j + 1), ⟨cwd, ?_⟩, ?_, fun x hx hxc => ?_, rfl⟩
  · simp [setProc_proc, hcn.symm, schedQueueInit, State.setQueue]
  · simp [setProc_proc, hcn, schedQueueInit, State.setQueue]
  · simp [setProc_proc, hx, hxc, schedQueueInit, State.setQueue]

theorem ProcTree.created {new : ℕ} {pid : ℤ} (h : ProcTree idle s) (hnew : new ∉ s.procObjs)
    (hcur : s.curproc ∈ s.procObjs) (hrun : (s.proc s.curproc).pState = .running)
    (hfree : ¬ PidUsed s pid) (hpos : 0 < pid) (hlt : pid < PROC_MAX_COUNT)
    (hinit : s.procInitproc = none → pid = PID_INIT) (hidle : pid = PID_INIT → s.curproc = idle)
    (hc : Created s new pid s') : ProcTree idle s' := by
  have hcn : s.curproc ≠ new := fun he => hnew (he ▸ hcur)
  have hlist : new ∉ s.procList := fun hm => hnew ((h.same new).1 hm)
  have hin : idle ≠ new := fun he => hnew (he ▸ h.root.1)
  obtain ⟨cwd, hborn⟩ := hc.born
  have hold : ∀ x ∈ s.procObjs, x ≠ new := fun x hx he => hnew (he ▸ hx)
  have hmem : ∀ x ∈ s.procObjs, x ∈ s'.procObjs := fun x hx => hc.procObjs ▸ mem_cons_of_mem new hx
  have hnew' : new ∈ s'.procObjs := hc.procObjs ▸ mem_cons_self
  have hall : ∀ {P : ℕ → Prop}, (∀ x ∈ s'.procObjs, P x) ↔ P new ∧ ∀ x ∈ s.procObjs, P x := by
    rw [hc.procObjs]
    exact forall_mem_cons
  -- the processes that were there keep everything but the children of the creator
  have hnode : ∀ x ∈ s.procObjs, (s'.proc x).pPid = (s.proc x).pPid ∧
      (s'.proc x).pPproc = (s.proc x).pPproc ∧ (s'.proc x).pState = (s.proc x).pState ∧
      (s'.proc x).pListLink = (s.proc x).pListLink ∧ (s'.proc x).pChildLink = (s.proc x).pChildLink ∧
      (s'.proc x).pChildren = (s.proc x).pChildren ++ if x = s.curproc then [new] else [] := by
    intro x hx
    by_cases hxc : x = s.curproc
    · rw [hxc, hc.cur]
      simp
    · rw [hc.other x (hold x hx) hxc]
      simp [hxc]
  have hpidne : ∀ x ∈ s.procObjs, (s.proc x).pPid ≠ pid := fun x hx he =>
    hfree ⟨x, (h.same x).2 hx, he⟩
  refine ⟨?_, ?_, fun x => ?_, hall.2 ⟨by rw [hborn], fun x hx => ?_⟩, ⟨hmem _ h.root.1, ?_⟩,
    hall.2 ⟨fun _ => ?_, fun x hx hxi => ?_⟩, hall.2 ⟨by simp [hborn], fun q hq y hy => ?_⟩,
    hall.2 ⟨by simp [hborn], fun q hq => ?_⟩, hall.2 ⟨hall.2 ⟨fun _ => rfl, fun y hy he => ?_⟩,
      fun x hx => hall.2 ⟨fun he => ?_, fun y hy he => ?_⟩⟩, hall.2 ⟨?_, fun x hx => ?_⟩, hc.nextPid, fun hn => ?_,
    fun j hj => ?_, hall.2 ⟨?_, fun x hx => ?_⟩, hall.2 ⟨by simp [hborn], fun x hx hd => ?_⟩⟩
  · rw [hc.procList]
    exact nodup_concat h.list hlist
  · rw [hc.procObjs]
    exact nodup_cons.2 ⟨hnew, h.objs⟩
  · rw [hc.procObjs, mem_cons, hc.procList, mem_append, mem_singleton, h.same, or_comm]
  · rw [(hnode x hx).2.2.2.1]
    exact h.linked x hx
  · rw [(hnode idle h.root.1).1, (hnode idle h.root.1).2.1]
    exact h.root.2
  · rw [hborn]
    exact ⟨rfl, s.curproc, hmem _ hcur, rfl, by simp [hc.cur]⟩
  · obtain ⟨hl, q, hq, hpq, hm⟩ := h.parent x hx hxi
    rw [(hnode x hx).2.2.2.2.1, (hnode x hx).2.1]
    refine ⟨hl, q, hmem q hq, hpq, ?_⟩
    rw [(hnode q hq).2.2.2.2.2]
    exact mem_append_left _ hm
  · rw [(hnode q hq).2.2.2.2.2, mem_append] at hy
    rcases hy with hy | hy
    · obtain ⟨h1, h2, h3⟩ := h.child q hq y hy
      exact ⟨hmem y h1, h2, (hnode y h1).2.1.trans h3⟩
    split_ifs at hy with hqc
    · obtain rfl := mem_singleton.1 hy
      exact ⟨hnew', hin.symm, by rw [hborn, hqc]⟩
    · cases hy
  · rw [(hnode q hq).2.2.2.2.2]
    split_ifs
    · exact nodup_concat (h.nodup q hq) fun hm => hnew (h.child q hq new hm).1
    · simpa using h.nodup q hq
  · rw [hborn, (hnode y hy).1] at he
    exact absurd he.symm (hpidne y hy)
  · rw [hborn, (hnode x hx).1] at he
    exact absurd he (hpidne x hx)
  · rw [(hnode x hx).1, (hnode y hy).1] at he
    exact h.pids x hx y hy he
  · rw [hborn]
    exact ⟨hpos.le, hlt⟩
  · rw [(hnode x hx).1]
    exact h.range x hx
  · rw [hc.procInitproc] at hn
    split_ifs at hn with hp
    exact absurd (hinit hn) hp
  · rw [hc.procInitproc] at hj
    split_ifs at hj with hp
    · cases hj
      rw [hborn]
      exact ⟨hnew', hp, rfl, congrArg some (hidle hp)⟩
    obtain ⟨h1, h2⟩ := h.init j hj
    rw [(hnode j h1).1, (hnode j h1).2.2.1, (hnode j h1).2.1]
    exact ⟨hmem j h1, h2⟩
  · rw [hborn]
    exact fun he => hcn (Option.some.inj he)
  · rw [(hnode x hx).2.1]
    exact h.strict x hx
  · rw [(hnode x hx).2.2.1] at hd
    have hxc : x ≠ s.curproc := by
      rintro rfl
      rw [hrun] at hd
      cases hd
    rw [(hnode x hx).2.2.2.2.2, h.childless x hx hd, if_neg hxc]
    rfl

end Weenix.Sched
