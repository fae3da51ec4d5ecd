import Mathlib.Tactic

/-! Finite runs of a labelled transition relation, and the rule that carries an
invariant from the first state along a whole run. Nothing here is about a
particular system. -/

namespace Runs

variable {σ ε : Type*} {step : σ → ε → σ → Prop} {s₀ : σ}

/-- `Run step s₀ es s`: the events `es`, oldest first, lead from `s₀` to `s`. -/
inductive Run (step : σ → ε → σ → Prop) (s₀ : σ) : List ε → σ → Prop
  | nil : Run step s₀ [] s₀
  | snoc {es : List ε} {s s' : σ} {e : ε} : Run step s₀ es s → step s e s' →
      Run step s₀ (es ++ [e]) s'

theorem Run.invariant {I : σ → Prop} (h0 : I s₀) (hstep : ∀ s e s', I s → step s e s' → I s') :
    ∀ {es s}, Run step s₀ es s → I s := by
  intro es s h
  induction h with
  | nil => exact h0
  | snoc _ he ih => exact hstep _ _ _ ih he

theorem Run.mono {step' : σ → ε → σ → Prop} (h : ∀ s e s', step s e s' → step' s e s') :
    ∀ {es s}, Run step s₀ es s → Run step' s₀ es s := by
  intro es s hrun
  induction hrun with
  | nil => exact .nil
  | snoc _ he ih => exact ih.snoc (h _ _ _ he)

/-- Each step of a run is matched by one of another system, with the event `f e` for `e`. -/
theorem Run.simulate {τ δ : Type*} {step' : τ → δ → τ → Prop} {t0 : τ} {R : σ → τ → Prop} (f : ε → δ) (h0 : R s₀ t0)
    (hstep : ∀ s e s' t, R s t → step s e s' → ∃ t', R s' t' ∧ step' t (f e) t') {es : List ε} {s : σ}
    (hrun : Run step s₀ es s) : ∃ t, R s t ∧ Run step' t0 (es.map f) t := by
  induction hrun with
  | nil => exact ⟨t0, h0, .nil⟩
  | snoc _ he ih =>
    obtain ⟨t, ht, hrun'⟩ := ih
    obtain ⟨t', ht', hs⟩ := hstep _ _ _ _ ht he
    rw [List.map_append]
    exact ⟨t', ht', hrun'.snoc hs⟩

/-- Every event of a list passes a test at the state where it comes. -/
def Passes (ok : σ → ε → Bool) (next : σ → ε → σ) : σ → List ε → Bool
  | _, [] => true
  | s, e :: es => ok s e && Passes ok next (next s e) es

/-- Events that pass the test one after the other make a run. -/
theorem Run.of_passes {I : σ → Prop} {ok : σ → ε → Bool} {next : σ → ε → σ} (h0 : I s₀)
    (hstep : ∀ s e s', I s → step s e s' → I s') (hok : ∀ s e, I s → ok s e = true → step s e (next s e)) :
    ∀ es, Passes ok next s₀ es = true → Run step s₀ es (es.foldl next s₀) := by
  have hext : ∀ (es es0 : List ε) (s : σ), Run step s₀ es0 s → Passes ok next s es = true →
      Run step s₀ (es0 ++ es) (es.foldl next s) := by
    intro es
    induction es with
    | nil =>
      intro es0 s h _
      rw [List.append_nil]
      exact h
    | cons e es ih =>
      intro es0 s h hp
      rw [Passes, Bool.and_eq_true] at hp
      have hnext := h.snoc (hok s e (Run.invariant h0 hstep h) hp.1)
      rw [List.append_cons, List.foldl_cons]
      exact ih _ _ hnext hp.2
  exact fun es hp => hext es [] s₀ .nil hp

end Runs
