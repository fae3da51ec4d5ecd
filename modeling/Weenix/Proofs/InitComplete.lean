import Weenix.Lib.Unfolding
import Weenix.Proofs.Init

/-! Which tables without cycles `init_call_all` gets through. A search stops the kernel when it comes to a
function for the second time, so it must come to each of them in one way only. -/

namespace Weenix.Init

open Relation Unfolding Function List

variable {funcs : List InitFunction} {s s' s₁ : State} {func f i j n : ℕ} {c : ℤ} {l l' : List ℕ}

def needed (funcs : List InitFunction) (func : ℕ) : List ℕ := (ifDeps funcs func).filterMap (lookup funcs)

/-! ### One search -/

/-- The search `c` has come to the functions `l` and called them. -/
structure Came (c : ℤ) (l : List ℕ) (s s' : State) : Prop where
  marks : ∀ j, s'.ifSearch j = if j ∈ l then c else s.ifSearch j
  called : ∀ j, s'.ifCalled j = true ↔ s.ifCalled j = true ∨ j ∈ l
  count : s'.initSearchCount = s.initSearchCount

/-- The search `c` can come to the functions `l`: to each once, and to none before. -/
def Free (c : ℤ) (l : List ℕ) (s : State) : Prop := l.Nodup ∧ ∀ j ∈ l, s.ifSearch j ≠ c

/-- A part of the search that is to come to the functions `l` does so, or it stops the kernel. -/
structure Comes (c : ℤ) (l : List ℕ) (s : State) (r : Except Stop State) : Prop where
  ok : Free c l s → ∃ s', r = .ok s' ∧ Came c l s s'
  stop : ¬ Free c l s → ∃ e, r = .error e

theorem Comes.nil (c : ℤ) (s : State) : Comes c [] s (.ok s) := by
  have hnone : Free c [] s := ⟨nodup_nil, fun _ hj => by cases hj⟩
  exact ⟨fun _ => ⟨s, rfl, by simp, by simp, rfl⟩, fun h => absurd hnone h⟩

theorem Came.trans (h : Came c l s s₁) (h' : Came c l' s₁ s') : Came c (l ++ l') s s' := by
  refine ⟨fun j => ?_, fun j => ?_, h'.count.trans h.count⟩
  · rw [h'.marks, h.marks]
    simp only [mem_append]
    split_ifs <;> first | rfl | tauto
  · rw [h'.called, h.called, mem_append, or_assoc]

theorem Came.free_iff (h : Came c l s s₁) (hl : Free c l s) : Free c l' s₁ ↔ Free c (l ++ l') s := by
  have hmark : ∀ j, s₁.ifSearch j ≠ c ↔ j ∉ l ∧ s.ifSearch j ≠ c := by
    intro j
    rw [h.marks]
    split_ifs with hj <;> simp [hj]
  unfold Free
  rw [nodup_append']
  simp only [hmark, mem_append]
  constructor
  · rintro ⟨hnd, hall⟩
    refine ⟨⟨hl.1, hnd, fun j hj hj' => (hall j hj').1 hj⟩, fun j hj => ?_⟩
    exact hj.elim (hl.2 j) fun hj => (hall j hj).2
  · rintro ⟨⟨-, hnd, hdis⟩, hall⟩
    exact ⟨hnd, fun j hj => ⟨fun hj' => hdis hj' hj, hall j (.inr hj)⟩⟩

theorem Free.left (h : Free c (l ++ l') s) : Free c l s :=
  ⟨(nodup_append'.1 h.1).1, fun j hj => h.2 j (mem_append_left _ hj)⟩

theorem Comes.append {r : Except Stop State} {next : State → Except Stop State} (h : Comes c l s r)
    (hnext : ∀ s₁, Came c l s s₁ → Comes c l' s₁ (next s₁)) : Comes c (l ++ l') s (r >>= next) := by
  by_cases hfree : Free c l s
  · obtain ⟨s₁, rfl, hcame⟩ := h.ok hfree
    have hrest := hnext s₁ hcame
    refine ⟨fun hall => ?_, fun hnot => ?_⟩
    · obtain ⟨s', hs', hcame'⟩ := hrest.ok ((hcame.free_iff hfree).2 hall)
      exact ⟨s', hs', hcame.trans hcame'⟩
    · exact hrest.stop fun hall => hnot ((hcame.free_iff hfree).1 hall)
  · obtain ⟨e, rfl⟩ := h.stop hfree
    exact ⟨fun hall => absurd hall.left hfree, fun _ => ⟨e, rfl⟩⟩

def Earlier (C : ℕ → Prop) (c : ℤ) (s : State) : Prop := ∀ j, C j ↔ s.ifCalled j = true ∧ s.ifSearch j ≠ c

theorem Earlier.came {C : ℕ → Prop} (h : Earlier C c s) (hcame : Came c l s s') (hl : ∀ j ∈ l, ¬ C j) :
    Earlier C c s' := by
  intro j
  rw [hcame.called, hcame.marks]
  by_cases hj : j ∈ l
  · simp [hj, hl j hj]
  · simp [hj, h j]

def State.mark (s : State) (f : ℕ) (c : ℤ) : State := { s with ifSearch := update s.ifSearch f c }

theorem State.mark_ifSearch (s : State) (f : ℕ) (c : ℤ) (j : ℕ) :
    (s.mark f c).ifSearch j = if j = f then c else s.ifSearch j := update_apply ..

/-- What the function depends on has been called, and then the function itself. -/
theorem Came.cons (h : Came c l (s.mark f c) s₁) : Came c (f :: l) s (s₁.call f) := by
  refine ⟨fun j => ?_, fun j => ?_, h.count⟩
  · change s₁.ifSearch j = _
    rw [h.marks, State.mark_ifSearch]
    simp only [mem_cons]
    split_ifs <;> first | rfl | tauto
  change update s₁.ifCalled f true j = true ↔ _
  have hcalled : s₁.ifCalled j = true ↔ s.ifCalled j = true ∨ j ∈ l := h.called j
  rw [update_apply, mem_cons]
  split_ifs with hj <;> simp [hj, hcalled]

theorem free_cons (hf : s.ifSearch f ≠ c) : Free c (f :: l) s ↔ Free c l (s.mark f c) := by
  have hmark : ∀ j, (s.mark f c).ifSearch j ≠ c ↔ j ≠ f ∧ s.ifSearch j ≠ c := by
    intro j
    rw [State.mark_ifSearch]
    split_ifs with hj <;> simp [hj]
  unfold Free
  rw [nodup_cons, forall_mem_cons]
  simp only [hmark]
  constructor
  · rintro ⟨⟨hnot, hnd⟩, -, hall⟩
    refine ⟨hnd, fun j hj => ⟨?_, hall j hj⟩⟩
    rintro rfl
    exact hnot hj
  · rintro ⟨hnd, hall⟩
    exact ⟨⟨fun hj => (hall f hj).1 rfl, hnd⟩, hf, fun j hj => (hall j hj).2⟩

section
variable {C : ℕ → Prop} [DecidablePred C] {rank : ℕ → ℕ}

/-- A call of `_init_call` for a function that the search has just marked. -/
def Visits (funcs : List InitFunction) (C : ℕ → Prop) [DecidablePred C] (c : ℤ) (rank : ℕ → ℕ) (n : ℕ)
    (call : ℕ → State → Except Stop State) : Prop :=
  ∀ f s, Earlier C c s → s.ifSearch f ≠ c → s.ifCalled f = false → rank f < n →
    Comes c ((tree (needed funcs) n f).filter (¬ C ·)) s (call f (s.mark f c))

variable (hrank : ∀ a, ∀ b ∈ needed funcs a, rank b < rank a) (hC : ∀ a b, C a → b ∈ needed funcs a → C b)
include hrank hC

theorem initDeps_comes {call : ℕ → State → Except Stop State} (hcall : Visits funcs C c rank n call) (func : ℕ)
    (deps : List String) (s : State) (hfound : (∀ dep ∈ deps, ∃ f, lookup funcs dep = some f ∧ rank f < n))
    (hearly : Earlier C c s) (hfunc : s.ifSearch func = c) :
    Comes c (((deps.filterMap (lookup funcs)).flatMap (tree (needed funcs) n)).filter (¬ C ·)) s
      (initDeps funcs call func deps s) := by
  induction deps generalizing s with
  | nil => exact .nil c s
  | cons dep deps ih =>
    obtain ⟨f, hf, hlow⟩ := hfound dep mem_cons_self
    have hfound' : ∀ dep ∈ deps, ∃ f, lookup funcs dep = some f ∧ rank f < n :=
      fun d hd => hfound d (mem_cons_of_mem _ hd)
    have hmem : f ∈ tree (needed funcs) n f := (mem_tree hrank hlow).2 ⟨[], rfl⟩
    unfold initDeps
    rw [hf, filterMap_cons_some hf, flatMap_cons, filter_append]
    dsimp only
    rw [hfunc]
    by_cases hmark : c = s.ifSearch f
    · rw [if_pos hmark]
      have hnot : ¬ C f := fun hCf => ((hearly f).1 hCf).2 hmark.symm
      refine ⟨fun hfree => absurd hmark.symm (hfree.2 f ?_), fun _ => ⟨_, rfl⟩⟩
      exact mem_append_left _ (mem_filter.2 ⟨hmem, by simpa using hnot⟩)
    rw [if_neg hmark]
    by_cases hcalled : s.ifCalled f = true
    · rw [if_pos hcalled, filter_tree_eq_nil hrank hC hlow ((hearly f).2 ⟨hcalled, fun he => hmark he.symm⟩)]
      exact ih s hfound' hearly hfunc
    rw [if_neg hcalled]
    refine (hcall f s hearly (fun he => hmark he.symm) (by simpa using hcalled) hlow).append ?_
    intro s₁ hcame
    refine ih s₁ hfound' (hearly.came hcame fun j hj => by simpa using (mem_filter.1 hj).2) ?_
    rw [hcame.marks, hfunc]
    split_ifs <;> rfl

theorem initCall_visits (hfound : ∀ func, ∀ dep ∈ ifDeps funcs func, ∃ f, lookup funcs dep = some f) :
    ∀ n, Visits funcs C c rank n (initCall funcs n) := by
  intro n
  induction n with
  | zero => exact fun f s _ _ _ h => absurd h (Nat.not_lt_zero _)
  | succ n ih =>
    intro f s hearly hmark hcalled hlow
    have hnot : ¬ C f := fun hCf => Bool.false_ne_true (hcalled.symm.trans ((hearly f).1 hCf).1)
    have hearly' : Earlier C c (s.mark f c) := by
      intro j
      rw [State.mark_ifSearch]
      by_cases hj : j = f
      · simp [hj, hnot]
      simp only [hj, if_false]
      exact hearly j
    have hdeps := initDeps_comes hrank hC ih f (ifDeps funcs f) (s.mark f c) ?_ hearly'
      (update_self _ _ _)
    · rw [initCall, tree, filter_cons_of_pos (by simpa using hnot)]
      by_cases hfree : Free c (f :: ((needed funcs f).flatMap (tree (needed funcs) n)).filter (¬ C ·)) s
      · obtain ⟨s₁, hs1, hcame⟩ := hdeps.ok ((free_cons hmark).1 hfree)
        have hrest : f ∉ ((needed funcs f).flatMap (tree (needed funcs) n)).filter (¬ C ·) :=
          (nodup_cons.1 hfree.1).1
        have hstill : s₁.ifCalled f = false := by
          rw [← Bool.not_eq_true, hcame.called]
          rintro (htrue | hin)
          · exact Bool.false_ne_true (hcalled.symm.trans htrue)
          · exact hrest hin
        refine ⟨fun _ => ⟨s₁.call f, ?_, ?_⟩, fun h => absurd hfree h⟩
        · rw [hs1]
          change (if s₁.ifCalled f = true then _ else _) = _
          rw [if_neg (by simp [hstill])]
          rfl
        · exact hcame.cons
      · obtain ⟨e, he⟩ := hdeps.stop fun h => hfree ((free_cons hmark).2 h)
        refine ⟨fun h => absurd h hfree, fun _ => ⟨e, ?_⟩⟩
        rw [he]
        rfl
    · intro dep hdep
      obtain ⟨g, hg⟩ := hfound f dep hdep
      have hneed : g ∈ needed funcs f := mem_filterMap.2 ⟨dep, hdep, hg⟩
      exact ⟨g, hg, (hrank f g hneed).trans_le (Nat.lt_succ_iff.1 hlow)⟩

end

/-! ### The whole table -/

/-- The function `f` is reached from the function `r`, which stands on the list. -/
def Leads (funcs : List InitFunction) (r f : ℕ) : Prop := ∃ ks, walk (needed funcs) r ks = some f

/-- Only one chain of dependencies leads from `r` to each function that `r` is the first to lead to. -/
def OneChainFrom (funcs : List InitFunction) (r : ℕ) : Prop :=
  ∀ f, (∀ r' < r, ¬ Leads funcs r' f) →
    ∀ ks ks', walk (needed funcs) r ks = some f → walk (needed funcs) r ks' = some f → ks = ks'

/-- Before the function `r` of the list is looked at, exactly what the functions before it lead to has
been called. -/
structure Reached (funcs : List InitFunction) (r : ℕ) (s : State) : Prop where
  called : ∀ j, s.ifCalled j = true ↔ ∃ r' < r, Leads funcs r' j
  marks : ∀ j, s.ifSearch j ≤ s.initSearchCount

theorem Leads.needed (h : Leads funcs i j) (hf : f ∈ needed funcs j) : Leads funcs i f := by
  obtain ⟨ks, hks⟩ := h
  obtain ⟨k, hk⟩ := mem_iff_getElem?.1 hf
  exact ⟨ks ++ [k], walk_snoc hks hk⟩

theorem Leads.trans (h : Leads funcs i j) (h' : Leads funcs j f) : Leads funcs i f := by
  obtain ⟨ks, hks⟩ := h'
  exact walk_closed (C := Leads funcs i) (fun _ _ ha hb => ha.needed hb) h hks

/-- A function that has been called leads to nothing new. -/
theorem Reached.skip {r : ℕ} (h : Reached funcs r s) (hc : s.ifCalled r = true) :
    OneChainFrom funcs r ∧ Reached funcs (r + 1) s := by
  obtain ⟨r0, hr0, hlead⟩ := (h.called r).1 hc
  refine ⟨fun f hnew ks _ hks _ => absurd (hlead.trans ⟨ks, hks⟩) (hnew r0 hr0), fun j => ?_, h.marks⟩
  rw [h.called]
  constructor
  · rintro ⟨r', hr', hl⟩
    exact ⟨r', hr'.trans (Nat.lt_succ_self r), hl⟩
  rintro ⟨r', hr', hl⟩
  rcases Nat.lt_succ_iff_lt_or_eq.1 hr' with hlt | rfl
  · exact ⟨r', hlt, hl⟩
  · exact ⟨r0, hr0, hlead.trans hl⟩

def State.search (s : State) (r : ℕ) : State :=
  State.mark { s with initSearchCount := s.initSearchCount + 1 } r (s.initSearchCount + 1)

section
variable {rank : ℕ → ℕ} (hrank : ∀ a, ∀ b ∈ needed funcs a, rank b < rank a)
  (hfound : ∀ func, ∀ dep ∈ ifDeps funcs func, ∃ f, lookup funcs dep = some f)
include hrank hfound

omit hrank hfound in
theorem initLoop_search {r : ℕ} (hc : ¬ s.ifCalled r = true) :
    initLoop funcs n (r :: l) s = initCall funcs n r (s.search r) >>= initLoop funcs n l := by
  rw [initLoop, if_neg hc]
  rfl

/-- A search gets through exactly if one chain leads to each function that it comes to. -/
theorem Reached.search {r : ℕ} (h : Reached funcs r s) (hc : s.ifCalled r = false) (hlow : rank r < n) :
    (OneChainFrom funcs r → ∃ s', initCall funcs n r (s.search r) = .ok s' ∧ Reached funcs (r + 1) s') ∧
    (¬ OneChainFrom funcs r → ∃ e, initCall funcs n r (s.search r) = .error e) := by
  have hnew : ∀ j, s.ifSearch j ≠ s.initSearchCount + 1 := fun j hj => by
    have := h.marks j
    omega
  have hclosed : ∀ a b, s.ifCalled a = true → b ∈ needed funcs a → s.ifCalled b = true := by
    intro a b ha hb
    obtain ⟨r', hr', hl⟩ := (h.called a).1 ha
    exact (h.called b).2 ⟨r', hr', hl.needed hb⟩
  have hcomes := initCall_visits (C := fun j => s.ifCalled j = true) hrank hclosed hfound n r
    { s with initSearchCount := s.initSearchCount + 1 } (c := s.initSearchCount + 1)
    (fun j => ⟨fun hj => ⟨hj, hnew j⟩, fun hj => hj.1⟩) (hnew r) hc hlow
  have hiff : Free (s.initSearchCount + 1) ((tree (needed funcs) n r).filter (¬ s.ifCalled · = true))
      { s with initSearchCount := s.initSearchCount + 1 } ↔ OneChainFrom funcs r := by
    unfold Free OneChainFrom
    rw [and_iff_left fun j _ => hnew j, filter_tree_nodup hrank hclosed hlow]
    simp only [h.called, not_exists, not_and]
  rw [← hiff]
  refine ⟨fun hfree => ?_, hcomes.stop⟩
  obtain ⟨s', hs', hcame⟩ := hcomes.ok hfree
  refine ⟨s', hs', fun j => ?_, fun j => ?_⟩
  · have hcalled : s'.ifCalled j = true ↔ s.ifCalled j = true ∨ Leads funcs r j ∧ ¬ s.ifCalled j = true := by
      rw [hcame.called, mem_filter, mem_tree hrank hlow, decide_eq_true_iff]
      rfl
    rw [hcalled, or_and_left, and_iff_left (Classical.em _), h.called]
    constructor
    · rintro (⟨r', hr', hl⟩ | hl)
      · exact ⟨r', hr'.trans (Nat.lt_succ_self r), hl⟩
      · exact ⟨r, Nat.lt_succ_self r, hl⟩
    rintro ⟨r', hr', hl⟩
    rcases Nat.lt_succ_iff_lt_or_eq.1 hr' with hlt | rfl
    · exact .inl ⟨r', hlt, hl⟩
    · exact .inr hl
  · have hcount : s'.initSearchCount = s.initSearchCount + 1 := hcame.count
    have hold := h.marks j
    rw [hcame.marks, hcount]
    dsimp only
    split_ifs <;> omega

theorem initLoop_ok_iff (hlow : ∀ r < funcs.length, rank r < n) (m r : ℕ) (s : State) (hm : r + m = funcs.length)
    (h : Reached funcs r s) : ((∃ s', initLoop funcs n (List.range' r m) s = .ok s') ↔
      ∀ q, r ≤ q → q < funcs.length → OneChainFrom funcs q) := by
  induction m generalizing r s with
  | zero =>
    exact iff_of_true ⟨s, rfl⟩ fun q hq hlt => by omega
  | succ m ih =>
    -- What is asked of the functions from `r` on is asked of `r` and of those behind it.
    have hsplit : (∀ q, r ≤ q → q < funcs.length → OneChainFrom funcs q) ↔
        OneChainFrom funcs r ∧ ∀ q, r + 1 ≤ q → q < funcs.length → OneChainFrom funcs q := by
      constructor
      · intro hall
        exact ⟨hall r le_rfl (by omega), fun q hq => hall q (by omega)⟩
      rintro ⟨hr, hall⟩ q hq hlt
      rcases Nat.eq_or_lt_of_le hq with rfl | hq
      · exact hr
      · exact hall q hq hlt
    rw [hsplit, List.range'_succ]
    by_cases hc : s.ifCalled r = true
    · obtain ⟨hone, hnext⟩ := h.skip hc
      rw [initLoop, if_pos hc, ih (r + 1) s (by omega) hnext, and_iff_right hone]
    rw [initLoop_search hc]
    obtain ⟨hok, hstop⟩ := h.search hrank hfound (by simpa using hc) (hlow r (by omega))
    by_cases hone : OneChainFrom funcs r
    · obtain ⟨s₁, hs1, hnext⟩ := hok hone
      rw [and_iff_right hone, ← ih (r + 1) s₁ (by omega) hnext, hs1]
      rfl
    obtain ⟨e, he⟩ := hstop hone
    rw [he]
    refine iff_of_false ?_ fun hall => hone hall.1
    rintro ⟨s', hs'⟩
    exact nomatch hs'

end

theorem needs_of_needed (h : j ∈ needed funcs i) : Needs funcs i j := by
  obtain ⟨dep, hdep, hl⟩ := mem_filterMap.1 h
  obtain ⟨g, hg, rfl⟩ := lookup_some hl
  cases hf : funcs[i]? with
  | none => simp [ifDeps, hf] at hdep
  | some f =>
    rw [ifDeps_eq hf] at hdep
    exact ⟨f, g, hf, hg, hdep⟩

open Classical in
/-- Without a cycle, a function depends on more functions than those that it depends on. -/
theorem exists_rank (hacyclic : ∀ i, ¬ TransGen (Needs funcs) i i) : ∃ rank : ℕ → ℕ,
    (∀ a, ∀ b ∈ needed funcs a, rank b < rank a) ∧ ∀ a < funcs.length, rank a < funcs.length := by
  refine ⟨fun i => ((Finset.range funcs.length).filter (TransGen (Needs funcs) i)).card, ?_, ?_⟩
  · intro a b hb
    have hneeds := needs_of_needed hb
    have hlt : b < funcs.length := by
      obtain ⟨-, g, -, hg, -⟩ := hneeds
      exact (List.getElem?_eq_some_iff.1 hg).1
    apply Finset.card_lt_card
    refine ⟨?_, fun hsub => ?_⟩
    · intro j hj
      rw [Finset.mem_filter] at hj ⊢
      exact ⟨hj.1, .head hneeds hj.2⟩
    · have hmem := hsub (Finset.mem_filter.2 ⟨Finset.mem_range.2 hlt, .single hneeds⟩)
      exact hacyclic b (Finset.mem_filter.1 hmem).2
  · intro a ha
    have hlt : ((Finset.range funcs.length).filter (TransGen (Needs funcs) a)).card <
        (Finset.range funcs.length).card := by
      apply Finset.card_lt_card
      refine ⟨Finset.filter_subset _ _, fun hsub => ?_⟩
      exact hacyclic a (Finset.mem_filter.1 (hsub (Finset.mem_range.2 ha))).2
    rwa [Finset.card_range] at hlt

theorem lookup_of_not_dangling (h : ¬ Dangling funcs) (func : ℕ) :
    ∀ dep ∈ ifDeps funcs func, ∃ f, lookup funcs dep = some f := by
  intro dep hdep
  cases hf : funcs[func]? with
  | none => simp [ifDeps, hf] at hdep
  | some f =>
    rw [ifDeps_eq hf] at hdep
    by_contra hnone
    refine h ⟨f, mem_of_getElem? hf, dep, hdep, fun g hg hname => hnone ?_⟩
    apply Option.isSome_iff_exists.1
    rw [lookup, List.findIdx?_isSome]
    exact any_eq_true.2 ⟨g, hg, by simpa using hname⟩

instance (funcs : List InitFunction) (i j : ℕ) : Decidable (Needs funcs i j) :=
  decidable_of_iff (∃ f ∈ funcs[i]?, ∃ g ∈ funcs[j]?, g.ifName ∈ f.ifDeps) (by simp [Needs])

instance (funcs : List InitFunction) : Decidable (Dangling funcs) :=
  inferInstanceAs (Decidable (∃ f ∈ funcs, ∃ dep ∈ f.ifDeps, ∀ g ∈ funcs, g.ifName ≠ dep))

/-- A table in which every dependency stands behind the function has no cycle. -/
theorem acyclic_of_lt (h : ∀ i < funcs.length, ∀ j < funcs.length, Needs funcs i j → i < j) (i : ℕ) :
    ¬ TransGen (Needs funcs) i i := by
  have hlt : ∀ {j}, TransGen (Needs funcs) i j → i < j := by
    intro j hij
    refine TransGen.trans_induction_on hij (motive := fun {a b} _ => a < b) ?_ fun _ _ => Nat.lt_trans
    intro a b hab
    have ⟨_, _, hf, hg, _⟩ := hab
    exact h a (List.getElem?_eq_some_iff.1 hf).1 b (List.getElem?_eq_some_iff.1 hg).1 hab
  exact fun hii => lt_irrefl i (hlt hii)

/-- A table with distinct names, with no name missing and without a cycle is got through, with every function
called, exactly if one chain of dependencies leads to each function from the first that leads to it. -/
theorem init_complete_iff (hn : (funcs.map (·.ifName)).Nodup) (hfound : ¬ Dangling funcs)
    (hacyclic : ∀ i, ¬ TransGen (Needs funcs) i i) :
    (∃ s, (∀ fuel, funcs.length ≤ fuel → initCallAll fuel funcs = .ok s) ∧ s.calls.Perm (List.range funcs.length)) ↔
      ∀ r < funcs.length, OneChainFrom funcs r := by
  obtain ⟨rank, hrank, hlow⟩ := exists_rank hacyclic
  have hstart : Reached funcs 0 ⟨fun _ => 0, fun _ => false, 0, []⟩ := ⟨fun j => by simp, fun j => le_rfl⟩
  have hiff := initLoop_ok_iff hrank (lookup_of_not_dangling hfound) hlow funcs.length 0 _ (Nat.zero_add _) hstart
  rw [← range_eq_range'] at hiff
  constructor
  · rintro ⟨s, hok, -⟩ r hr
    exact hiff.1 ⟨s, hok funcs.length le_rfl⟩ r (Nat.zero_le r) hr
  intro hone
  obtain ⟨s, hs⟩ := hiff.2 fun q _ hq => hone q hq
  rcases initLoop_spec hn (List.range funcs.length) _ (inv_start funcs) (fun i => mem_range.1) with
    ⟨e, he, -⟩ | ⟨s', hs', hinv, -, hall⟩
  · exact nomatch hs.symm.trans he
  obtain rfl : s = s' := Except.ok.inj (hs.symm.trans hs')
  refine ⟨s, fun fuel hle => ?_, hinv.calls_perm hall⟩
  obtain ⟨k, rfl⟩ := Nat.exists_eq_add_of_le hle
  exact (initCallAll_fuel hn k).trans hs

/-- Each function depends on the next one. -/
def chainTable : List InitFunction := [⟨1, "a", ["b"]⟩, ⟨2, "b", ["c"]⟩, ⟨3, "c", []⟩]

theorem init_complete_chain : (chainTable.map (·.ifName)).Nodup ∧ ¬ Dangling chainTable ∧
    (∀ i, ¬ TransGen (Needs chainTable) i i) ∧
    ∃ s, (∀ fuel, 3 ≤ fuel → initCallAll fuel chainTable = .ok s) ∧ s.calls.Perm [0, 1, 2] := by
  have hn : (chainTable.map (·.ifName)).Nodup := by decide
  have hfound : ¬ Dangling chainTable := by decide
  have hacyclic : ∀ i, ¬ TransGen (Needs chainTable) i i := acyclic_of_lt (by decide)
  refine ⟨hn, hfound, hacyclic, (init_complete_iff hn hfound hacyclic).2 fun r hr f _ => ?_⟩
  obtain ⟨rank, hrank, hlow⟩ := exists_rank hacyclic
  have htree : ∀ r < 3, ((tree (needed chainTable) 3 r).filter (¬ (fun _ => False) ·)).Nodup := by decide
  exact (filter_tree_nodup hrank (fun _ _ h _ => h) (hlow r hr)).1 (htree r hr) f not_false

/-- Two functions share a dependency, or one lists it twice: the search comes to it for the second time. -/
theorem init_shared_stops :
    let shared : List InitFunction := [⟨1, "a", ["b", "c"]⟩, ⟨2, "b", ["d"]⟩, ⟨3, "c", ["d"]⟩, ⟨4, "d", []⟩]
    let twice : List InitFunction := [⟨1, "a", ["b", "b"]⟩, ⟨2, "b", []⟩]
    ((shared.map (·.ifName)).Nodup ∧ ¬ Dangling shared ∧ (∀ i, ¬ TransGen (Needs shared) i i) ∧
      ∀ fuel, 4 ≤ fuel → initCallAll fuel shared = .error (.circular "c" "d")) ∧
    (twice.map (·.ifName)).Nodup ∧ ¬ Dangling twice ∧ (∀ i, ¬ TransGen (Needs twice) i i) ∧
      ∀ fuel, 2 ≤ fuel → initCallAll fuel twice = .error (.circular "a" "b") := by
  intro shared twice
  refine ⟨⟨by decide, by decide, acyclic_of_lt (by decide), ?_⟩, by decide, by decide, acyclic_of_lt (by decide), ?_⟩
  · intro fuel hle
    obtain ⟨k, rfl⟩ := Nat.exists_eq_add_of_le hle
    exact (initCallAll_fuel (by decide) k).trans rfl
  intro fuel hle
  obtain ⟨k, rfl⟩ := Nat.exists_eq_add_of_le hle
  exact (initCallAll_fuel (by decide) k).trans rfl

end Weenix.Init
