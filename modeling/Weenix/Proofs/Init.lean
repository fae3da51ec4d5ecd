import Weenix.Lib.CallOrder
import Weenix.Spec.Init

/-! `init_call_all` calls every function once and behind all that it depends on, or it
stops the kernel. A search marks the functions it comes to with its own number; the ones that
it is still working on carry that number, so a function is never entered twice. -/

namespace Weenix.Init

open CallOrder Relation Function List

variable {funcs : List InitFunction} {s s' s₁ : State} {func i j n : ℕ} {c : ℤ}

def Needs (funcs : List InitFunction) (i j : ℕ) : Prop :=
  ∃ f g, funcs[i]? = some f ∧ funcs[j]? = some g ∧ g.ifName ∈ f.ifDeps

theorem lookup_some {name : String} (h : lookup funcs name = some j) :
    ∃ g, funcs[j]? = some g ∧ g.ifName = name := by
  obtain ⟨hj, hp, -⟩ := List.findIdx?_eq_some_iff_getElem.1 h
  exact ⟨_, List.getElem?_eq_getElem hj, by simpa using hp⟩

theorem ifDeps_eq {f : InitFunction} (h : funcs[i]? = some f) : ifDeps funcs i = f.ifDeps := by
  simp [ifDeps, h]

/-- Names are distinct, so the search finds the function that is meant. -/
theorem lookup_unique (hn : (funcs.map (·.ifName)).Nodup) {g : InitFunction} {dep : String}
    (h : lookup funcs dep = some j) (hg : funcs[i]? = some g) (he : g.ifName = dep) : i = j := by
  obtain ⟨g', hg', he'⟩ := lookup_some h
  have hi : (funcs.map (·.ifName))[i]? = some dep := by simp [hg, he]
  have hj : (funcs.map (·.ifName))[j]? = some dep := by simp [hg', he']
  obtain ⟨hil, -⟩ := List.getElem?_eq_some_iff.1 hi
  exact (List.getElem?_inj hil hn).1 (hi.trans hj.symm)

/-! ### More depth does not change the result -/

theorem bind_mono {x x' : Except Stop State} {f f' : State → Except Stop State}
    (hx : x ≠ .error .fuel → x' = x) (hf : ∀ a, f a ≠ .error .fuel → f' a = f a)
    (h : (x >>= f) ≠ .error .fuel) : (x' >>= f') = (x >>= f) := by
  cases x with
  | error e =>
    rw [hx h]
    rfl
  | ok a =>
    rw [hx (fun he => by cases he)]
    exact hf a h

theorem initDeps_mono {call call' : ℕ → State → Except Stop State}
    (hcall : ∀ f s, call f s ≠ .error .fuel → call' f s = call f s) (deps : List String) (s : State)
    (h : initDeps funcs call func deps s ≠ .error .fuel) :
    initDeps funcs call' func deps s = initDeps funcs call func deps s := by
  induction deps generalizing s with
  | nil => exact rfl
  | cons dep deps ih =>
    unfold initDeps at h ⊢
    split
    · rfl
    rename_i f hf
    rw [hf] at h
    dsimp only at h
    split_ifs at h ⊢ with hs hc
    · rfl
    · exact ih s h
    · exact bind_mono (hcall f _) ih h

theorem initCall_mono (n func : ℕ) (s : State) (h : initCall funcs n func s ≠ .error .fuel) :
    initCall funcs (n + 1) func s = initCall funcs n func s := by
  induction n generalizing func s with
  | zero => exact absurd rfl h
  | succ n ih =>
    exact bind_mono (initDeps_mono ih _ s) (fun _ _ => rfl) h

theorem initLoop_mono (l : List ℕ) (s : State) (h : initLoop funcs n l s ≠ .error .fuel) :
    initLoop funcs (n + 1) l s = initLoop funcs n l s := by
  induction l generalizing s with
  | nil => exact rfl
  | cons func l ih =>
    unfold initLoop at h ⊢
    split_ifs at h ⊢
    · exact ih s h
    · exact bind_mono (initCall_mono n func _) ih h

/-! ### What a search does -/

structure Inv (funcs : List InitFunction) (s : State) : Prop where
  called : ∀ i, s.ifCalled i = true ↔ i ∈ s.calls
  ordered : Ordered (Needs funcs) s.calls
  bound : ∀ i ∈ s.calls, i < funcs.length
  found : ∀ i ∈ s.calls, ∀ dep ∈ ifDeps funcs i, lookup funcs dep ≠ none

/-- A part of the search `c` leads from `s` to `s'`. The functions that carry its number already
and satisfy `P` are not called in it. -/
structure Search (c : ℤ) (P : ℕ → Prop) (s s' : State) : Prop where
  calls : s.calls <+: s'.calls
  marks : ∀ j, s'.ifSearch j = s.ifSearch j ∨ s'.ifSearch j = c
  kept : ∀ j, P j → s.ifSearch j = c → s'.ifCalled j = s.ifCalled j

/-- The number of functions that the search `c` has not come to. -/
def unmarked (funcs : List InitFunction) (c : ℤ) (s : State) : ℕ :=
  ((Finset.range funcs.length).filter fun j => s.ifSearch j ≠ c).card

theorem unmarked_le (h : ∀ j, s'.ifSearch j = s.ifSearch j ∨ s'.ifSearch j = c) :
    unmarked funcs c s' ≤ unmarked funcs c s := by
  apply Finset.card_le_card
  intro j hj
  rw [Finset.mem_filter] at hj ⊢
  refine ⟨hj.1, ?_⟩
  rcases h j with he | he
  · exact he ▸ hj.2
  · exact absurd he hj.2

theorem unmarked_lt (hmarks : ∀ j, s'.ifSearch j = s.ifSearch j ∨ s'.ifSearch j = c) (hj : j < funcs.length)
    (hne : s.ifSearch j ≠ c) (he : s'.ifSearch j = c) : unmarked funcs c s' < unmarked funcs c s := by
  apply Finset.card_lt_card
  refine ⟨fun x hx => ?_, fun hsub => ?_⟩
  · rw [Finset.mem_filter] at hx ⊢
    refine ⟨hx.1, ?_⟩
    rcases hmarks x with hx' | hx'
    · exact hx' ▸ hx.2
    · exact absurd hx' hx.2
  · have hmem := hsub (Finset.mem_filter.2 ⟨Finset.mem_range.2 hj, hne⟩)
    exact (Finset.mem_filter.1 hmem).2 he

theorem unmarked_lt_length (hj : j < funcs.length) (he : s.ifSearch j = c) :
    unmarked funcs c s < funcs.length := by
  have hlt : unmarked funcs c s < (Finset.range funcs.length).card := by
    apply Finset.card_lt_card
    refine ⟨Finset.filter_subset _ _, fun hsub => ?_⟩
    exact (Finset.mem_filter.1 (hsub (Finset.mem_range.2 hj))).2 he
  rwa [Finset.card_range] at hlt

theorem Search.refl {P : ℕ → Prop} (c : ℤ) (s : State) : Search c P s s :=
  ⟨prefix_refl _, fun _ => .inl rfl, fun _ _ _ => rfl⟩

theorem Search.trans {P : ℕ → Prop} (h1 : Search c P s s₁) (h2 : Search c P s₁ s') : Search c P s s' := by
  refine ⟨h1.calls.trans h2.calls, fun j => ?_, fun j hP hj => ?_⟩
  · rcases h2.marks j with he | he
    · rw [he]
      exact h1.marks j
    · exact .inr he
  have hj1 : s₁.ifSearch j = c := by
    rcases h1.marks j with he | he
    · exact he.trans hj
    · exact he
  exact (h2.kept j hP hj1).trans (h1.kept j hP hj)

/-- A part of the search stops the kernel, or it ends as said. -/
def Ends (x : Except Stop State) (P : State → Prop) : Prop :=
  (∃ e, x = .error e ∧ e ≠ .fuel) ∨ ∃ s, x = .ok s ∧ P s

theorem Ends.mono {x : Except Stop State} {P Q : State → Prop} (h : Ends x P) (hPQ : ∀ s, P s → Q s) : Ends x Q :=
  h.imp_right fun ⟨s, hs, hP⟩ => ⟨s, hs, hPQ s hP⟩

theorem Ends.bind {x : Except Stop State} {f : State → Except Stop State} {P Q : State → Prop} (h : Ends x P)
    (hf : ∀ s, P s → Ends (f s) Q) : Ends (x >>= f) Q := by
  rcases h with ⟨e, rfl, he⟩ | ⟨s, rfl, hP⟩
  · exact .inl ⟨e, rfl, he⟩
  · exact hf s hP

/-- How a call of `_init_call` for a function that has not been called goes: it stops the
kernel, or the function has been called and so has all that it depends on. -/
def Calls (funcs : List InitFunction) (n : ℕ) (call : ℕ → State → Except Stop State) : Prop :=
  ∀ f s, Inv funcs s → f < funcs.length → s.ifCalled f = false → unmarked funcs (s.ifSearch f) s < n →
    Ends (call f s) fun s' => Inv funcs s' ∧ Search (s.ifSearch f) (· ≠ f) s s' ∧ s'.ifCalled f = true

theorem initDeps_spec {call : ℕ → State → Except Stop State} (hcall : Calls funcs n call) (deps : List String)
    (s : State) (h : Inv funcs s) (hun : unmarked funcs (s.ifSearch func) s ≤ n) :
    Ends (initDeps funcs call func deps s) fun s' => Inv funcs s' ∧ Search (s.ifSearch func) (fun _ => True) s s' ∧
      ∀ dep ∈ deps, ∃ f, lookup funcs dep = some f ∧ f ∈ s'.calls := by
  induction deps generalizing s with
  | nil => exact .inr ⟨s, rfl, h, .refl _ s, fun _ hd => by cases hd⟩
  | cons dep deps ih =>
    unfold initDeps
    cases hf : lookup funcs dep with
    | none => exact .inl ⟨_, rfl, Stop.noConfusion⟩
    | some f =>
      obtain ⟨g, hg, -⟩ := lookup_some hf
      obtain ⟨hfl, -⟩ := List.getElem?_eq_some_iff.1 hg
      dsimp only
      split_ifs with hs hc
      · exact .inl ⟨_, rfl, Stop.noConfusion⟩
      · refine (ih s h hun).mono fun s' ⟨h2, h3, h4⟩ => ⟨h2, h3, forall_mem_cons.2 ⟨⟨f, hf, ?_⟩, h4⟩⟩
        exact h3.calls.subset ((h.called f).1 hc)
      -- the function found is marked and called
      set c := s.ifSearch func with hcdef
      set u : State := { s with ifSearch := update s.ifSearch f c } with hu
      have huf : u.ifSearch f = c := update_self _ _ _
      have hmarks : ∀ j, u.ifSearch j = s.ifSearch j ∨ u.ifSearch j = c := by
        intro j
        by_cases hj : j = f
        · exact .inr (hj ▸ huf)
        · exact .inl (update_of_ne hj _ _)
      have hinv : Inv funcs u := ⟨h.called, h.ordered, h.bound, h.found⟩
      have hlt : unmarked funcs (u.ifSearch f) u < n := by
        rw [huf]
        exact lt_of_lt_of_le (unmarked_lt hmarks hfl (fun he => hs he.symm) huf) hun
      refine (hcall f u hinv hfl (by simpa using hc) hlt).bind fun s₁ ⟨h2, h3, h4⟩ => ?_
      rw [huf] at h3
      have hstep : Search c (fun _ => True) s s₁ := by
        refine ⟨h3.calls, fun j => ?_, fun j _ hj => ?_⟩
        · rcases h3.marks j with he | he
          · rw [he]
            exact hmarks j
          · exact .inr he
        have hjf : j ≠ f := by
          rintro rfl
          exact hs hj.symm
        exact h3.kept j hjf ((update_of_ne hjf _ _).trans hj)
      have hfunc : s₁.ifSearch func = c := by
        rcases hstep.marks func with he | he
        · exact he
        · exact he
      have hun1 : unmarked funcs (s₁.ifSearch func) s₁ ≤ n := by
        rw [hfunc]
        exact (unmarked_le hstep.marks).trans hun
      refine (ih s₁ h2 hun1).mono fun s' ⟨h6, h7, h8⟩ => ?_
      rw [hfunc] at h7
      exact ⟨h6, hstep.trans h7, forall_mem_cons.2 ⟨⟨f, hf, h7.calls.subset ((h2.called f).1 h4)⟩, h8⟩⟩

def State.call (s : State) (f : ℕ) : State :=
  { s with calls := s.calls ++ [f], ifCalled := update s.ifCalled f true }

theorem Inv.call (hn : (funcs.map (·.ifName)).Nodup) (h : Inv funcs s) (hfl : func < funcs.length)
    (hf : s.ifCalled func = false)
    (hdeps : ∀ dep ∈ ifDeps funcs func, ∃ f, lookup funcs dep = some f ∧ f ∈ s.calls) :
    Inv funcs (s.call func) := by
  have hmem : ∀ i, i ∈ (s.call func).calls ↔ i ∈ s.calls ∨ i = func := by
    intro i
    change i ∈ s.calls ++ [func] ↔ _
    rw [mem_append, mem_singleton]
  refine ⟨fun i => ?_, ?_, fun i hi => ?_, fun i hi dep hdep => ?_⟩
  · rw [hmem, ← h.called]
    by_cases hi : i = func
    · subst hi
      simp [State.call]
    · simp [State.call, hi]
  · apply h.ordered.snoc
    · intro hm
      rw [(h.called func).2 hm] at hf
      cases hf
    rintro j ⟨f, g, hi, hg, hd⟩
    rw [← ifDeps_eq hi] at hd
    obtain ⟨f', hl, hm⟩ := hdeps _ hd
    rw [lookup_unique hn hl hg rfl]
    exact hm
  · rcases (hmem i).1 hi with hi | rfl
    · exact h.bound i hi
    · exact hfl
  · rcases (hmem i).1 hi with hi | rfl
    · exact h.found i hi dep hdep
    obtain ⟨f, hl, -⟩ := hdeps dep hdep
    rw [hl]
    exact Option.some_ne_none f

theorem initCall_spec (hn : (funcs.map (·.ifName)).Nodup) : ∀ n, Calls funcs n (initCall funcs n) := by
  intro n
  induction n with
  | zero => exact fun f s _ _ _ h => absurd h (Nat.not_lt_zero _)
  | succ n ih =>
    intro f s h hfl hf hun
    refine (initDeps_spec ih (ifDeps funcs f) s h (Nat.lt_succ_iff.1 hun)).bind fun s₁ ⟨h2, h3, h4⟩ => ?_
    have hnot : s₁.ifCalled f = false := (h3.kept f trivial rfl).trans hf
    refine .inr ⟨s₁.call f, ?_, h2.call hn hfl hnot h4, ?_, update_self _ _ _⟩
    · rw [if_neg (by simp [hnot])]
      rfl
    · refine ⟨h3.calls.trans (prefix_append _ _), h3.marks, fun j hj hs => ?_⟩
      exact (update_of_ne hj _ _).trans (h3.kept j trivial hs)

theorem initLoop_spec (hn : (funcs.map (·.ifName)).Nodup) (l : List ℕ) (s : State) (h : Inv funcs s)
    (hl : (∀ i ∈ l, i < funcs.length)) : Ends (initLoop funcs funcs.length l s) fun s' =>
      Inv funcs s' ∧ s.calls <+: s'.calls ∧ ∀ i ∈ l, i ∈ s'.calls := by
  induction l generalizing s with
  | nil => exact .inr ⟨s, rfl, h, prefix_refl _, fun _ hi => by cases hi⟩
  | cons func l ih =>
    obtain ⟨hfl, hl'⟩ := forall_mem_cons.1 hl
    unfold initLoop
    split_ifs with hc
    · exact (ih s h hl').mono fun s' ⟨h2, h3, h4⟩ =>
        ⟨h2, h3, forall_mem_cons.2 ⟨h3.subset ((h.called func).1 hc), h4⟩⟩
    dsimp only
    generalize hu : ({ s with initSearchCount := s.initSearchCount + 1, ifSearch := _ } : State) = u
    have hinv : Inv funcs u := hu ▸ ⟨h.called, h.ordered, h.bound, h.found⟩
    have hcalled : u.ifCalled func = false := hu ▸ (by simpa using hc)
    refine (initCall_spec hn funcs.length func u hinv hfl hcalled (unmarked_lt_length hfl rfl)).bind
      fun s₁ ⟨h2, h3, h4⟩ => ?_
    have hpre : s.calls <+: s₁.calls := by
      have := h3.calls
      rwa [← hu] at this
    exact (ih s₁ h2 hl').mono fun s' ⟨h6, h7, h8⟩ =>
      ⟨h6, hpre.trans h7, forall_mem_cons.2 ⟨h7.subset ((h2.called func).1 h4), h8⟩⟩

/-! ### The whole list -/

theorem inv_start (funcs : List InitFunction) : Inv funcs ⟨fun _ => 0, fun _ => false, 0, []⟩ :=
  ⟨fun i => by simp, .nil, fun _ h => (by cases h), fun _ h => by cases h⟩

theorem initCallAll_fuel (hn : (funcs.map (·.ifName)).Nodup) :
    ∀ k, initCallAll (funcs.length + k) funcs = initCallAll funcs.length funcs := by
  have hfuel : initCallAll funcs.length funcs ≠ .error .fuel := by
    rcases initLoop_spec hn (List.range funcs.length) _ (inv_start funcs) (fun i => mem_range.1) with
      ⟨e, h1, h2⟩ | ⟨s, h1, -⟩
    · rw [initCallAll, h1]
      exact fun he => h2 (Except.error.inj he)
    · rw [initCallAll, h1]
      exact fun he => by cases he
  intro k
  induction k with
  | zero => rfl
  | succ k ih =>
    rw [← ih] at hfuel ⊢
    exact initLoop_mono _ _ hfuel

theorem Inv.calls_perm (h : Inv funcs s) (hall : ∀ i ∈ List.range funcs.length, i ∈ s.calls) :
    s.calls.Perm (List.range funcs.length) := by
  rw [perm_ext_iff_of_nodup h.ordered.nodup nodup_range]
  intro i
  exact ⟨fun hi => mem_range.2 (h.bound i hi), hall i⟩

/-- A table in which some dependency names no function. -/
def Dangling (funcs : List InitFunction) : Prop :=
  ∃ f ∈ funcs, ∃ dep ∈ f.ifDeps, ∀ g ∈ funcs, g.ifName ≠ dep

/-- With distinct names `init_call_all` ends, whatever depth of recursion beyond the number of
functions it is given. When it returns, every function has been called once and behind all
that it depends on; with a dependency that names no function or with a cycle it stops the
kernel. -/
theorem init_order_sound (hn : (funcs.map (·.ifName)).Nodup) :
    ∃ r, (∀ fuel, funcs.length ≤ fuel → initCallAll fuel funcs = r) ∧ r ≠ .error .fuel ∧
      (∀ s, r = .ok s → s.calls.Perm (List.range funcs.length) ∧
        ∀ i < funcs.length, ∀ j, TransGen (Needs funcs) i j → Before s.calls j i) ∧
      (Dangling funcs ∨ (∃ i, TransGen (Needs funcs) i i) → ∃ e, r = .error e) := by
  refine ⟨initCallAll funcs.length funcs, fun fuel hle => ?_, ?_⟩
  · obtain ⟨k, rfl⟩ := Nat.exists_eq_add_of_le hle
    exact initCallAll_fuel hn k
  rcases initLoop_spec hn (List.range funcs.length) _ (inv_start funcs) (fun i => mem_range.1) with
    ⟨e, h1, h2⟩ | ⟨s, h1, hinv, -, hall⟩
  · rw [initCallAll, h1]
    exact ⟨fun he => h2 (Except.error.inj he), fun s he => (by cases he), fun _ => ⟨e, rfl⟩⟩
  rw [initCallAll, h1]
  refine ⟨fun he => (by cases he), fun s' he => ?_, fun hbad => ?_⟩
  · cases he
    refine ⟨hinv.calls_perm hall, fun i hi j hij => ?_⟩
    exact hinv.ordered.of_transGen (hall i (mem_range.2 hi)) hij
  exfalso
  rcases hbad with ⟨f, hf, dep, hdep, hnone⟩ | ⟨i, hi⟩
  · obtain ⟨i, hi⟩ := mem_iff_getElem?.1 hf
    obtain ⟨hil, -⟩ := List.getElem?_eq_some_iff.1 hi
    have hfound := hinv.found i (hall i (mem_range.2 hil)) dep (ifDeps_eq hi ▸ hdep)
    obtain ⟨j, hj⟩ := Option.ne_none_iff_exists'.1 hfound
    obtain ⟨g, hg, he⟩ := lookup_some hj
    exact hnone g (mem_of_getElem? hg) he
  · have hil : i < funcs.length := by
      obtain ⟨k, ⟨f, g, hf, -, -⟩, -⟩ := TransGen.head'_iff.1 hi
      exact (List.getElem?_eq_some_iff.1 hf).1
    exact hinv.ordered.acyclic (hall i (mem_range.2 hil)) hi

/-- The first function of the table depends on the second, which is called first. -/
theorem init_order_sound_swapped : ∃ s,
    initCallAll 2 [⟨1, "vfs_init", ["proc_init"]⟩, ⟨2, "proc_init", []⟩] = .ok s ∧ s.calls = [1, 0] ∧
      Before s.calls 1 0 := by
  obtain ⟨r, hr, -, hok, -⟩ := @init_order_sound [⟨1, "vfs_init", ["proc_init"]⟩, ⟨2, "proc_init", []⟩] (by decide)
  have hrun : r = .ok _ := (hr 2 le_rfl).symm.trans rfl
  refine ⟨_, (hr 2 le_rfl).trans hrun, rfl, (hok _ hrun).2 0 (by decide) 1 (.single ?_)⟩
  exact ⟨_, _, rfl, rfl, by decide⟩

end Weenix.Init
