import Weenix.Proofs.SchedFiled
import Weenix.Proofs.ProcAnswer

/-! What a step of one process leaves to another that has exited. It does not touch the
descriptors and the state of that process and gives it no children. It puts no thread to
sleep on a `p_wait`, except in `do_waitpid`, where the running thread goes to sleep only if
what it waits for has not exited. -/

namespace Weenix.Sched

open Exec Function

variable {s s' s₁ : State} {q : Queue} {t x r p : ℕ} {status : ℤ} {G : ℕ → Prop}

def Asleep (s : State) (x r : ℕ) : Prop :=
  (s.thr x).ktState = .sleep ∧ (s.thr x).ktWchan = some (.wait r)

def ParentOf (s : State) (r p : ℕ) : Prop := (s.proc p).pPproc = some r ∧ p ∈ (s.proc r).pChildren

/-- A new parent of the process `p` is in `G`. -/
structure Leaves (G : ℕ → Prop) (p : ℕ) (s s' : State) : Prop where
  asleep : ∀ x r, Asleep s' x r → Asleep s x r
  threads : ∀ x r, Asleep s' x r → x ∈ (s'.proc r).pThreads → x ∈ (s.proc r).pThreads
  files : (s'.proc p).pFiles = (s.proc p).pFiles
  dead : (s.proc p).pState = .dead → (s'.proc p).pState = .dead
  children : (s.proc p).pChildren = [] → (s'.proc p).pChildren = []
  init : s.procInitproc ≠ some p → s'.procInitproc ≠ some p
  parent : ∀ r, ParentOf s' r p → ParentOf s r p ∨ G r

namespace Leaves

theorem refl (s : State) : Leaves G p s s :=
  ⟨fun _ _ h => h, fun _ _ _ h => h, rfl, fun h => h, fun h => h, fun h => h, fun _ => .inl⟩

theorem trans (h1 : Leaves G p s s₁) (h2 : Leaves G p s₁ s') : Leaves G p s s' where
  asleep x r hx := h1.asleep x r (h2.asleep x r hx)
  threads x r hx hm := h1.threads x r (h2.asleep x r hx) (h2.threads x r hx hm)
  files := h2.files.trans h1.files
  dead h := h2.dead (h1.dead h)
  children h := h2.children (h1.children h)
  init h := h2.init (h1.init h)
  parent r hr := (h2.parent r hr).elim (h1.parent r) .inr

/-- Only threads change. -/
theorem of_thr (hproc : s'.proc = s.proc) (hi : s'.procInitproc = s.procInitproc)
    (hx : ∀ x r, Asleep s' x r → Asleep s x r) : Leaves G p s s' where
  asleep := hx
  threads x r _ hm := hproc ▸ hm
  files := by rw [hproc]
  dead h := by rwa [hproc]
  children h := by rwa [hproc]
  init h := by rwa [hi]
  parent r hr := .inl (by rwa [ParentOf, hproc] at hr)

theorem of_same (hthr : s'.thr = s.thr) (hproc : s'.proc = s.proc)
    (hi : s'.procInitproc = s.procInitproc) : Leaves G p s s' :=
  of_thr hproc hi fun x r hx => by
    rw [Asleep, hthr] at hx
    exact hx

theorem setThr (t : ℕ) {f : Kthread → Kthread}
    (hf : ∀ r, (f (s.thr t)).ktState = .sleep → (f (s.thr t)).ktWchan = some (.wait r) → Asleep s t r) :
    Leaves G p s (s.setThr t f) := by
  refine of_thr rfl rfl fun x r hx => ?_
  by_cases hxt : x = t
  · subst hxt
    simp only [Asleep, State.setThr, update_self] at hx
    exact hf r hx.1 hx.2
  · simpa only [Asleep, State.setThr, update_of_ne hxt] using hx

theorem setState (t : ℕ) {st : KtState} (hst : st ≠ .sleep) : Leaves G p s (s.setState t st) :=
  setThr t fun _ h _ => absurd h hst

/-- One process changes, and this is another, or it changes neither descriptors nor state, and
gets no children and no parent outside `G`. -/
theorem setProc (r : ℕ) {f : Proc → Proc} (hthr : ∀ a, (f a).pThreads ⊆ a.pThreads)
    (hch : ∀ a, p ∈ (f a).pChildren → p ∈ a.pChildren ∨ G r)
    (hp : ∀ a, r = p → (f a).pFiles = a.pFiles ∧ (a.pState = .dead → (f a).pState = .dead) ∧
      (a.pChildren = [] → (f a).pChildren = []) ∧ ∀ y, (f a).pPproc = some y → a.pPproc = some y ∨ G y) :
    Leaves G p s (s.setProc r f) := by
  have hself : (s.setProc r f).proc p = if p = r then f (s.proc r) else s.proc p :=
    State.setProc_proc s r p f
  refine ⟨fun _ _ h => h, fun x y _ hm => ?_, ?_, fun h => ?_, fun h => ?_, fun h => h, fun y ⟨h, hm⟩ => ?_⟩
  · rw [State.setProc_proc] at hm
    split_ifs at hm with hy
    · rw [hy]
      exact hthr _ hm
    · exact hm
  · rw [hself]
    split_ifs with he
    · rw [(hp _ he.symm).1, he]
    · rfl
  · rw [hself]
    split_ifs with he
    · exact (hp _ he.symm).2.1 (he ▸ h)
    · exact h
  · rw [hself]
    split_ifs with he
    · exact (hp _ he.symm).2.2.1 (he ▸ h)
    · exact h
  · have hpar : (s.proc p).pPproc = some y ∨ G y := by
      rw [hself] at h
      split_ifs at h with he
      · exact he ▸ (hp _ he.symm).2.2.2 y h
      · exact .inl h
    have hmem : p ∈ (s.proc y).pChildren ∨ G y := by
      rw [State.setProc_proc] at hm
      split_ifs at hm with hy
      · exact hy ▸ hch _ hm
      · exact .inl hm
    exact or_iff_not_imp_right.2 fun hG => ⟨hpar.resolve_right hG, hmem.resolve_right hG⟩

/-- One process changes, but not in what is looked at. -/
theorem setProc_same (r : ℕ) {f : Proc → Proc} (hthr : ∀ a, (f a).pThreads ⊆ a.pThreads)
    (hf : ∀ a, (f a).pChildren = a.pChildren ∧ (f a).pFiles = a.pFiles ∧ (f a).pState = a.pState ∧
      (f a).pPproc = a.pPproc) : Leaves G p s (s.setProc r f) := by
  refine setProc r hthr (fun a h => .inl ((hf a).1 ▸ h)) fun a _ => ?_
  obtain ⟨hch, hfiles, hst, hpp⟩ := hf a
  exact ⟨hfiles, hst.trans, hch.trans, fun y hy => .inl (hpp.symm.trans hy)⟩

theorem push (s : State) (c : Code) : Leaves G p s (s.push c) := of_same rfl rfl rfl

end Leaves

/-! ### Queues -/

theorem link_leaves (s : State) (hq : ∀ r, q ≠ .wait r) (t : ℕ) : Leaves G p s (s.link q t) := by
  have hqueue : Leaves G p s (s.setQueue q fun k => ⟨t :: k.tqList, k.tqSize + 1⟩) := .of_same rfl rfl rfl
  exact hqueue.trans (.setThr t fun r _ hw => absurd (Option.some.inj hw) (hq r))

theorem unlink_leaves (s : State) (q : Queue) (t : ℕ) : Leaves G p s (s.unlink q t) := by
  have hqueue : Leaves G p s (s.setQueue q fun k => ⟨k.tqList.dropLast, k.tqSize - 1⟩) := .of_same rfl rfl rfl
  exact hqueue.trans (.setThr t fun _ _ hw => by cases hw)

theorem sleep_leaves {st : KtState} (s : State) (h : st ≠ .sleep ∨ ∀ r, q ≠ .wait r) :
    Leaves G p s (s.sleep q st) := by
  refine .of_thr rfl rfl fun x r hx => ?_
  rw [Asleep, State.sleep_thr] at hx
  split_ifs at hx
  · exact h.elim (absurd hx.1) fun hq => absurd (Option.some.inj hx.2) (hq r)
  · exact hx

theorem wake_leaves (s : State) (q : Queue) (t : ℕ) : Leaves G p s (((s.unlink q t).setState t .run).link .runq t) :=
  ((unlink_leaves s q t).trans (.setState t (by simp))).trans (link_leaves _ (by simp) t)

theorem wakes_leaves : Wakes (fun _ => True) (Leaves G p) where
  refl := .refl
  trans := .trans
  wake s q t _ _ := wake_leaves s q t
  reset _ _ _ _ := .of_same rfl rfl rfl

theorem remove_leaves (s : State) (t : ℕ) : Leaves G p s (s.remove t) := by
  refine .of_thr rfl rfl fun x r hx => ?_
  rw [Asleep, State.remove_thr] at hx
  split_ifs at hx
  · cases hx.2
  · exact hx

theorem detached_leaves (s : State) (t : ℕ) (r : Queue) : Leaves G p s ((s.detached t r).link .runq t) := by
  have hrun : Leaves G p s (s.setThr t fun k => { k with ktCancelled := true, ktState := .run }) :=
    .setThr t fun _ hst _ => by cases hst
  have hdet : Leaves G p s (s.detached t r) := (hrun.trans (remove_leaves _ t)).trans (.of_same rfl rfl rfl)
  exact hdet.trans (link_leaves _ (by simp) t)

theorem schedMakeRunnable_leaves (h : schedMakeRunnable s t = .ok s') : Leaves G p s s' := by
  obtain ⟨s₁, hs1, -, rfl⟩ := schedMakeRunnable_ok h
  have hbase : Leaves G p s s₁ := by
    rcases hs1 with rfl | ⟨-, -, rfl⟩
    · exact .refl _
    · exact .of_same rfl rfl rfl
  exact (hbase.trans (.setState t (by simp))).trans (link_leaves _ (by simp) t)

/-! ### The switch -/

theorem contextSwitch_leaves (s : State) (old new : ℕ) : Leaves G p s (contextSwitch s old new) := by
  have hsave : Leaves G p s (s.setThr old fun k => { k with ktCtx := s.cpu }) := .setThr old fun _ hst hw => ⟨hst, hw⟩
  exact hsave.trans (.of_same rfl rfl rfl)

theorem schedPick_leaves (n : ℕ) (h : schedPick n s = .ok s') : Leaves G p s s' := by
  have htake : ∀ s t, Leaves G p s ((s.unlink .runq t).turnTo t) := fun s t =>
    (unlink_leaves s .runq t).trans (.of_same rfl rfl rfl)
  exact schedPick_rec (fun _ _ => htake _ _) (fun _ _ hmore => (htake _ _).trans hmore) n h

theorem switchTail_leaves (s : State) (old ipl : ℕ) : Leaves G p s (switchTail s old ipl).2 := by
  unfold switchTail
  split_ifs
  · exact (Leaves.push s _).trans (.push _ _)
  have hipl : Leaves G p s { s with ipl := ipl } := .of_same rfl rfl rfl
  exact hipl.trans (contextSwitch_leaves _ old s.curthr)

theorem schedSwitch_leaves {b : Bool} (h : schedSwitch s = .ok (b, s')) : Leaves G p s s' := by
  unfold schedSwitch at h
  dsimp only at h
  have hipl : Leaves G p s { s with ipl := IPL_HIGH } := .of_same rfl rfl rfl
  split_ifs at h
  · cases h
    exact .of_same rfl rfl rfl
  · obtain ⟨s₁, h1, h2⟩ := ok_of_bind h
    have hs' : (switchTail s₁ s.curthr s.ipl).2 = s' := congrArg Prod.snd (Except.ok.inj h2)
    rw [← hs']
    exact (hipl.trans (schedPick_leaves _ h1)).trans (switchTail_leaves _ _ _)
  · cases h
    exact .of_same rfl rfl rfl

/-! ### Mutexes -/

theorem kmutexLock_leaves {m : ℕ} (h : kmutexLock s m = .ok s') : Leaves G p s s' := by
  obtain ⟨-, ⟨-, rfl⟩ | ⟨-, -, rfl⟩⟩ := kmutexLock_ok h
  · exact .of_same rfl rfl rfl
  have hpush : Leaves G p s ({ s with ipl := IPL_HIGH }.push (.lockReturn m s.ipl)) := .of_same rfl rfl rfl
  exact hpush.trans (sleep_leaves _ (.inr (by simp)))

theorem kmutexLockCancellable_leaves {m : ℕ} (h : kmutexLockCancellable s m = .ok s') : Leaves G p s s' := by
  have hpush : Leaves G p s (s.lockWaits m) := .of_same rfl rfl rfl
  obtain ⟨-, ⟨-, rfl⟩ | ⟨-, ⟨-, rfl⟩ | ⟨-, rfl⟩⟩⟩ := kmutexLockCancellable_ok h
  · exact .of_same rfl rfl rfl
  · exact hpush.trans (.setState _ (by simp))
  · exact hpush.trans (sleep_leaves _ (.inr (by simp)))

theorem kmutexUnlock_leaves {m : ℕ} (h : kmutexUnlock s m = .ok s') : Leaves G p s s' := by
  obtain ⟨-, ⟨-, rfl⟩ | ⟨t, -, -, rfl⟩⟩ := kmutexUnlock_ok h
  · exact .of_same rfl rfl rfl
  · exact (wake_leaves s (.mutex m) t).trans (.of_same rfl rfl rfl)

/-! ### Processes -/

theorem childRemove_leaves (s : State) (x : ℕ) : Leaves G p s (childRemove s x) := by
  have herase : Leaves G p s
      { s with proc := fun y => { s.proc y with pChildren := (s.proc y).pChildren.erase x } } := by
    refine ⟨fun _ _ h => h, fun _ _ _ h => h, rfl, fun h => h, fun h => ?_, fun h => h, ?_⟩
    · show (s.proc p).pChildren.erase x = []
      rw [h]
      rfl
    · exact fun r hr => .inl ⟨hr.1, List.mem_of_mem_erase hr.2⟩
  exact herase.trans (.setProc_same x (fun _ _ h => h) fun _ => ⟨rfl, rfl, rfl, rfl⟩)

theorem adopt_leaves (hi : s.procInitproc ≠ some p) (hG : x = p → ∀ i, s.procInitproc = some i → G i)
    (h : adopt s x = .ok s') : Leaves G p s s' := by
  unfold adopt at h
  cases hinit : s.procInitproc with
  | none =>
    rw [hinit] at h
    cases h
  | some i =>
    rw [hinit] at h
    cases h
    have hip : i ≠ p := fun he => hi (he ▸ hinit)
    refine Leaves.trans (Leaves.trans (Leaves.setProc x ?_ ?_ ?_) (Leaves.setProc i ?_ ?_ ?_)) (Leaves.setProc_same x ?_ ?_)
    · exact fun _ _ h => h
    · exact fun _ => .inl
    · intro a he
      refine ⟨rfl, fun h => h, fun h => h, fun y hy => .inr ?_⟩
      exact Option.some.inj hy ▸ hG he i hinit
    · exact fun _ _ h => h
    · exact fun _ hm => (List.mem_append.1 hm).imp_right fun hm => hG (List.mem_singleton.1 hm).symm i hinit
    · exact fun _ he => absurd he hip
    · exact fun _ _ h => h
    · exact fun _ => ⟨rfl, rfl, rfl, rfl⟩

theorem Relink.leaves {W : Prop} (hi : s.procInitproc ≠ some p) (hG : W → ∀ i, s.procInitproc = some i → G i)
    (h : Relink (fun y => y = p → W) s s') : Leaves G p s s' := by
  cases h with
  | unlink x => exact childRemove_leaves s x
  | adopt hx h => exact adopt_leaves hi (fun he => hG (hx he)) h
  | @destroy _ t h =>
    unfold kthreadDestroy at h
    split_ifs at h
    cases h
    have hobjs : Leaves G p s { s with thrObjs := s.thrObjs.erase t } := .of_same rfl rfl rfl
    exact hobjs.trans (.setProc_same _ (fun _ => List.erase_subset) fun _ => ⟨rfl, rfl, rfl, rfl⟩)
  | @free _ x h =>
    obtain ⟨s₁, h1, s2, h2, rfl⟩ := procFree_parts h
    have hlist : Leaves G p s s₁ := by
      rcases h1 with rfl | rfl
      · exact .refl _
      have herase : Leaves G p s { s with procList := s.procList.erase x } := .of_same rfl rfl rfl
      exact herase.trans (.setProc_same x (fun _ _ h => h) fun _ => ⟨rfl, rfl, rfl, rfl⟩)
    have hchild : Leaves G p s₁ s2 := by
      rcases h2 with rfl | rfl
      · exact .refl _
      · exact childRemove_leaves s₁ x
    exact (hlist.trans hchild).trans (.of_same rfl rfl rfl)

/-- The changes of `proc_cleanup` and `do_waitpid` by another process. If the process passes to init, `W` holds. -/
theorem kernel_leaves {W : Prop} : Kernel (fun y => y = p → W) (fun _ => True) fun s s' =>
    s.procInitproc ≠ some p → s.curproc ≠ p → (W → ∀ i, s.procInitproc = some i → G i) →
      Leaves G p s s' ∧ s'.curproc = s.curproc ∧ s'.procInitproc = s.procInitproc where
  refl s _ _ _ := ⟨.refl s, rfl, rfl⟩
  trans h1 h2 hi hc hG := by
    obtain ⟨h1, e1, i1⟩ := h1 hi hc hG
    obtain ⟨h2, e2, i2⟩ := h2 (h1.init hi) (e1 ▸ hc) (i1 ▸ hG)
    exact ⟨h1.trans h2, e2.trans e1, i2.trans i1⟩
  wake s q t _ _ _ _ _ := ⟨wake_leaves s q t, rfl, rfl⟩
  reset _ _ _ _ _ _ _ := ⟨.of_same rfl rfl rfl, rfl, rfl⟩
  wait _ := trivial
  relink h hi _ hG := ⟨h.leaves hi hG, h.same⟩
  own s f hf _ hc _ := ⟨.setProc _ (fun a _ h => (hf a).1 ▸ h) (fun a h => .inl ((hf a).2 ▸ h)) fun _ he => absurd he hc,
    rfl, rfl⟩
  retry _ _ _ _ _ := ⟨.of_same rfl rfl rfl, rfl, rfl⟩
  ret _ _ _ _ _ := ⟨.of_same rfl rfl rfl, rfl, rfl⟩

theorem procCreate_leaves (hx : x ≠ p) (hc : s.curproc ≠ p) (h : procCreate s x = .ok s') : Leaves G p s s' := by
  have hnew : ∀ (a : Proc) (next : ℤ) (i : Option ℕ), a.pThreads = [] → a.pChildren = [] → (i = s.procInitproc ∨ i = some x) →
      Leaves G p s (schedQueueInit { s with
        nextPid := next, procObjs := x :: s.procObjs, procInitproc := i,
        proc := update s.proc x a, procList := s.procList ++ [x] } (.wait x)) := by
    intro a next i ha hch hi
    have hself : update s.proc x a p = s.proc p := update_of_ne hx.symm a s.proc
    refine ⟨fun _ _ h => h, fun y r _ hm => ?_, congrArg _ hself, fun h => (congrArg _ hself).trans h,
      fun h => (congrArg _ hself).trans h, fun h he => ?_, fun r hr => .inl ⟨(congrArg _ hself.symm).trans hr.1, ?_⟩⟩
    · by_cases hr : r = x
      · subst hr
        have hm' : y ∈ (update s.proc r a r).pThreads := hm
        rw [update_self, ha] at hm'
        cases hm'
      · have hm' : y ∈ (update s.proc x a r).pThreads := hm
        rwa [update_of_ne hr] at hm'
    · rcases hi with rfl | rfl
      · exact h he
      · exact hx (Option.some.inj he)
    · have hm : p ∈ (update s.proc x a r).pChildren := hr.2
      by_cases hrx : r = x
      · subst hrx
        rw [update_self, hch] at hm
        cases hm
      · rwa [update_of_ne hrx] at hm
  unfold procCreate at h
  generalize procGetid s = a at h
  obtain ⟨pid, next⟩ := a
  dsimp only at h
  have hinit : (if pid = PID_INIT then some x else s.procInitproc) = s.procInitproc ∨
      (if pid = PID_INIT then some x else s.procInitproc) = some x := by
    split_ifs
    · exact .inr rfl
    · exact .inl rfl
  generalize (if 2 < pid then (s.proc s.curproc).pCwd else none) = cwd at h
  generalize (if pid = PID_INIT then some x else s.procInitproc) = i at h hinit
  split_ifs at h
  · cases h
    refine ((hnew _ next i rfl rfl hinit).trans (Leaves.setProc _ ?_ ?_ ?_)).trans (Leaves.setProc _ ?_ ?_ ?_)
    · exact fun _ _ h => h
    · exact fun _ hm => .inl ((List.mem_append.1 hm).resolve_right fun hp => hx (List.mem_singleton.1 hp).symm)
    · exact fun _ he => absurd he hc
    · exact fun _ _ h => h
    · exact fun _ => .inl
    · exact fun _ he => absurd he hx
  · cases h
    exact hnew _ next i rfl rfl hinit

theorem kthreadCreate_leaves (s : State) (t x : ℕ) : Leaves G p s (kthreadCreate s t x) := by
  have hx : ∀ y r, Asleep (kthreadCreate s t x) y r → y ≠ t ∧ Asleep s y r := by
    intro y r hy
    have hy' : (update s.thr t _ y).ktState = .sleep ∧ (update s.thr t _ y).ktWchan = some (.wait r) := hy
    by_cases hyt : y = t
    · subst hyt
      rw [update_self] at hy'
      cases hy'.1
    · rw [update_of_ne hyt] at hy'
      exact ⟨hyt, hy'⟩
  have hproc : ∀ r, (kthreadCreate s t x).proc r =
      { s.proc r with pThreads := ((kthreadCreate s t x).proc r).pThreads } := by
    intro r
    rw [kthreadCreate, State.setProc_proc]
    split_ifs with hr
    · subst hr
      rfl
    · rfl
  refine ⟨fun y r hy => (hx y r hy).2, fun y r hy hm => ?_, by rw [hproc], fun h => ?_, fun h => ?_, fun h => h,
    fun r h => .inl ?_⟩
  · rw [kthreadCreate, State.setProc_proc] at hm
    split_ifs at hm with hr
    · subst hr
      exact (List.mem_append.1 hm).elim id fun ht => absurd (List.mem_singleton.1 ht) (hx y r hy).1
    · exact hm
  · rw [hproc]
    exact h
  · rw [hproc]
    exact h
  · rw [ParentOf, hproc, hproc r] at h
    exact h

/-! ### Exit -/

section
variable (hi : s.procInitproc ≠ some p) (hc : s.curproc ≠ p)
include hi hc

theorem doExit_leaves (hG : p ∈ (s.proc s.curproc).pChildren → ∀ i, s.procInitproc = some i → G i)
    (h : doExit s status = .ok s') : Leaves G p s s' := by
  obtain ⟨-, -, h⟩ := doExit_starts h
  have hpush : Leaves G p s s.leaving := ((Leaves.setState s.curthr (by simp)).trans (.push _ _)).trans (.push _ _)
  exact hpush.trans (kernel_leaves.cleanupLoop (fun y hy he => he ▸ hy) h hi hc hG).1

theorem kthreadCancel_leaves
    (hG : t = s.curthr → p ∈ (s.proc s.curproc).pChildren → ∀ i, s.procInitproc = some i → G i)
    (h : kthreadCancel s t status = .ok s') : Leaves G p s s' := by
  by_cases ht : t = s.curthr
  · subst ht
    exact doExit_leaves hi hc (hG rfl) h
  rcases kthreadCancel_ok ht h with rfl | rfl | ⟨r, -, -, rfl⟩
  · exact .refl _
  · exact .setThr t fun _ hst hw => ⟨hst, hw⟩
  · exact detached_leaves s t r

end

theorem kthreadCancel_same (ht : t ≠ s.curthr) (h : kthreadCancel s t status = .ok s') : s'.curthr = s.curthr ∧
    s'.curproc = s.curproc ∧ s'.proc = s.proc ∧ s'.procInitproc = s.procInitproc := by
  rcases kthreadCancel_ok ht h with rfl | rfl | ⟨r, -, -, rfl⟩ <;> exact ⟨rfl, rfl, rfl, rfl⟩

theorem killThreads_leaves (status : ℤ) (l : List ℕ) (hi : s.procInitproc ≠ some p) (hc : s.curproc ≠ p)
    (hG : s.curthr ∈ l → p ∈ (s.proc s.curproc).pChildren → ∀ i, s.procInitproc = some i → G i)
    (h : killThreads status l s = .ok s') : Leaves G p s s' := by
  induction l generalizing s s' with
  | nil =>
    cases h
    exact .refl s
  | cons t l ih =>
    have hG' : s.curthr ∈ l → p ∈ (s.proc s.curproc).pChildren → ∀ i, s.procInitproc = some i → G i :=
      fun hl => hG (List.mem_cons_of_mem t hl)
    unfold killThreads at h
    split_ifs at h with hst ht
    · exact ih hi hc hG' h
    · exact kthreadCancel_leaves hi hc (fun he => hG (he ▸ List.mem_cons_self)) h
    obtain ⟨s₁, h1, h2⟩ := ok_of_bind h
    have hcancel : Leaves G p s s₁ := kthreadCancel_leaves hi hc (fun he => absurd he ht) h1
    obtain ⟨ecur, eproc, ep, ei⟩ := kthreadCancel_same ht h1
    refine hcancel.trans (ih (hcancel.init hi) (eproc ▸ hc) ?_ h2)
    rw [ecur, eproc, ep, ei]
    exact hG'

theorem killProcs_leaves (l : List ℕ) {a a' : Option ℕ} (h : killProcs l a s = .ok (a', s')) : Leaves G p s s' := by
  refine killProcs_rel .refl .trans (fun s t => .setState t (by simp)) (fun s x => .setProc x ?_ ?_ ?_) l h
  · exact fun _ _ h => h
  · exact fun _ => .inl
  · exact fun _ _ => ⟨rfl, fun _ => rfl, fun h => h, fun _ => .inl⟩

theorem procKillAll_leaves (h : procKillAll s = .ok s') : Leaves G p s s' := by
  obtain ⟨init, s₁, h1, h2⟩ := procKillAll_ok h
  have hturn : Leaves G p s (s₁.turnTo init) := (killProcs_leaves _ h1).trans (.of_same rfl rfl rfl)
  rcases h2 with ⟨-, rfl⟩ | ⟨-, rfl⟩
  · exact (hturn.trans (remove_leaves _ init)).trans (contextSwitch_leaves _ _ _)
  · exact hturn.trans (contextSwitch_leaves _ _ _)

/-! ### Waiting -/

def Dozes (s s' : State) : Prop :=
  (s.thr s.curthr).ktWchan = none ∧ ∃ (u : State) (c : Code), (u = s ∨ u = s.pop) ∧ c.Barren s ∧
    s' = (u.push c).sleep (.wait s.curproc) .sleep

/-! ### Steps -/

/-- The call may give the process `y` to init: a child of the running process that exits, or a child of a process
that has exited and is reaped. -/
def Call.Passes (s : State) (y : ℕ) : Call → Prop
  | .exit _ => y ∈ (s.proc s.curproc).pChildren
  | .cancel t _ => t = s.curthr ∧ y ∈ (s.proc s.curproc).pChildren
  | .kill x _ => (x = s.curproc ∨ s.curthr ∈ (s.proc x).pThreads) ∧ y ∈ (s.proc s.curproc).pChildren
  | .waitpid _ _ _ => s.Orphan y
  | _ => False

def Code.Passes (s : State) (y : ℕ) : Code → Prop
  | .doExit _ | .cleanupLoop _ => y ∈ (s.proc s.curproc).pChildren
  | .waitAny _ | .waitPid _ _ _ => s.Orphan y
  | _ => False

def Op.Passes (s : State) (y : ℕ) : Op → Prop
  | .call c => c.Passes s y
  | .cont => ∃ c ∈ s.cpu.frames.head?, c.Passes s y
  | .intr _ => False

section
variable (hi : s.procInitproc ≠ some p) (hc : s.curproc ≠ p)
include hi hc

theorem call_leaves {c : Call} (hp : p ∈ s.procObjs) (hG : c.Passes s p → ∀ i, s.procInitproc = some i → G i)
    (hen : Enabled s (.call c)) (h : call s c = .ok s') : Leaves G p s s' ∨ Dozes s s' := by
  have hself : ∀ f : Proc → Proc, (∀ a, (f a).pThreads = a.pThreads ∧ (f a).pChildren = a.pChildren) →
      Leaves G p s (s.setProc s.curproc f) := fun f hf =>
    .setProc _ (fun a _ h => (hf a).1 ▸ h) (fun a h => .inl ((hf a).2 ▸ h)) fun _ he => absurd he hc
  cases c with
  | lock m => exact .inl (kmutexLock_leaves h)
  | lockCancellable m => exact .inl (kmutexLockCancellable_leaves h)
  | unlock m => exact .inl (kmutexUnlock_leaves h)
  | sleep n =>
    obtain ⟨-, rfl⟩ := schedSleepOn_ok h
    exact .inl (sleep_leaves s (.inr (by simp)))
  | sleepCancellable n =>
    obtain ⟨⟨b, s₁⟩, h1, h2⟩ := ok_of_bind h
    rcases schedCancellableSleepOn_ok h1 with ⟨rfl, -, rfl⟩ | ⟨rfl, -, rfl⟩
    · cases h2
      exact .inl (((Leaves.push s _).trans (.setState _ (by simp))).trans (.of_same rfl rfl rfl))
    · cases h2
      exact .inl ((Leaves.push s _).trans (sleep_leaves _ (.inl (by simp))))
  | wakeup n =>
    obtain ⟨⟨a, s₁⟩, h1, h2⟩ := ok_of_bind h
    cases h2
    exact .inl (wakes_leaves.wakeupOn trivial h1)
  | broadcast n => exact .inl (wakes_leaves.broadcastOn trivial Queue.noConfusion h)
  | makeRunnable t => exact .inl (schedMakeRunnable_leaves h)
  | yield =>
    obtain ⟨s₁, h1, h2⟩ := ok_of_bind h
    cases h2
    exact .inl ((schedMakeRunnable_leaves h1).trans (.push _ _))
  | switch =>
    cases h
    exact .inl (.push s _)
  | create x =>
    have hx : x ≠ p := by
      rintro rfl
      exact hen.2 hp
    exact .inl (procCreate_leaves hx hc h)
  | thread t x =>
    cases h
    exact .inl (kthreadCreate_leaves s t x)
  | exit status => exact .inl (doExit_leaves hi hc hG h)
  | cancel t status => exact .inl (kthreadCancel_leaves hi hc (fun ht hm => hG ⟨ht, hm⟩) h)
  | kill x status =>
    have h' : procKill s x status = .ok s' := h
    unfold procKill at h'
    split_ifs at h' with hx
    · exact .inl (doExit_leaves hi hc (fun hm => hG ⟨.inl hx, hm⟩) h')
    · exact .inl (killThreads_leaves status _ hi hc (fun ht hm => hG ⟨.inr ht, hm⟩) h')
  | killAll => exact .inl (procKillAll_leaves h)
  | waitpid pid options a =>
    refine (kernel_leaves.doWaitpid (fun y hy he => he ▸ hy) h).imp (fun h => (h hi hc hG).1) ?_
    rintro ⟨c, hb, hw, rfl⟩
    exact ⟨hw, s, c, .inl rfl, hb, rfl⟩
  | store | setipl =>
    cases h
    exact .inl (.of_same rfl rfl rfl)
  | setCwd | openFile =>
    cases h
    exact .inl (hself _ fun _ => ⟨rfl, rfl⟩)

theorem exec_leaves {c : Code} {b : Bool} (hG : c.Passes s p → ∀ i, s.procInitproc = some i → G i)
    (h : exec s.pop c = .ok (b, s')) : Leaves G p s s' ∨ Dozes s s' := by
  have hpop : Leaves G p s s.pop := .of_same rfl rfl rfl
  have hwait : (s.pop.Orphan p → ∀ i, s.procInitproc = some i → G i) →
      ((s.procInitproc ≠ some p → s.curproc ≠ p → (s.pop.Orphan p → ∀ i, s.procInitproc = some i → G i) →
        Leaves G p s.pop s' ∧ s'.curproc = s.curproc ∧ s'.procInitproc = s.procInitproc) ∨ SleepsOn s.pop s') →
      Leaves G p s s' ∨ Dozes s s' := by
    rintro hG' (hl | ⟨c, hb, hw, rfl⟩)
    · exact .inl (hpop.trans (hl hi hc hG').1)
    · exact .inr ⟨hw, s.pop, c, .inr rfl, by cases c <;> exact hb, rfl⟩
  cases c with
  | schedSwitch => exact .inl (hpop.trans (schedSwitch_leaves h))
  | switchTail old ipl =>
    have hs' : (switchTail s.pop old ipl).2 = s' := congrArg Prod.snd (Except.ok.inj h)
    rw [← hs']
    exact .inl (hpop.trans (switchTail_leaves _ _ _))
  | contextSwitch old ipl =>
    cases h
    have hipl : Leaves G p s { s.pop with ipl := ipl } := .of_same rfl rfl rfl
    exact .inl (hipl.trans (contextSwitch_leaves _ _ _))
  | doExit status =>
    obtain ⟨rfl, h1⟩ := exec_ok h
    exact .inl (hpop.trans (doExit_leaves hi hc hG h1))
  | cleanupLoop status =>
    obtain ⟨rfl, h1⟩ := exec_ok h
    exact .inl (hpop.trans (kernel_leaves.cleanupLoop (fun y hy he => he ▸ hy) h1 hi hc hG).1)
  | waitAny st =>
    obtain ⟨rfl, h1⟩ := exec_ok h
    exact hwait hG (kernel_leaves.waitAny (fun y hy he => he ▸ hy) h1)
  | waitPid pid x st =>
    obtain ⟨rfl, h1⟩ := exec_ok h
    exact hwait hG (kernel_leaves.waitPid (fun y hy he => he ▸ hy) h1)
  | intrWait | exitReturn | lockReturn | lockCancellableReturn | ret | start =>
    cases h
    exact .inl (.of_same rfl rfl rfl)

/-- In a step by another process, a process that gets a new parent passes to init. -/
theorem step_leaves {op : Op} (hp : p ∈ s.procObjs) (hen : Enabled s op) (h : step s op = .ok s') :
    Leaves (fun r => op.Passes s p ∧ s.procInitproc = some r) p s s' ∨ Dozes s s' := by
  cases op with
  | call c => exact call_leaves hi hc hp (fun hm i he => ⟨hm, he⟩) hen h
  | cont =>
    obtain ⟨c, l, b, hf, -, h1⟩ := step_cont hen h
    exact exec_leaves hi hc (fun hm i he => ⟨⟨c, by rw [hf]; rfl, hm⟩, he⟩) h1
  | intr ws =>
    obtain ⟨s₁, h1, h2⟩ := ok_of_bind h
    have hint : Leaves (fun r => (Op.intr ws).Passes s p ∧ s.procInitproc = some r) p s s₁ :=
      wakes_leaves.interrupt (fun _ => trivial) ws h1
    split at h2
    · obtain ⟨⟨b, s2⟩, h3, rfl⟩ := ok_of_map h2
      cases h3
      exact .inl (hint.trans (.of_same rfl rfl rfl))
    · cases h2
      exact .inl hint

end

end Weenix.Sched
