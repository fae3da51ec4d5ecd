import Mathlib.Tactic

/-! Programs that change a state and may raise an exception, which keeps the changes made. -/

namespace Exec

variable {ε σ α β : Type} {s s' : σ} {a : α} {e : ε}

theorem bind_eq (x : EStateM ε σ α) (f : α → EStateM ε σ β) (s : σ) : (x >>= f) s =
    match x s with
    | .ok a s' => f a s'
    | .error e s' => .error e s' := rfl

theorem bind_ok {x : EStateM ε σ α} (f : α → EStateM ε σ β) (h : x s = .ok a s') : (x >>= f) s = f a s' := by
  rw [bind_eq, h]

theorem bind_error {x : EStateM ε σ α} (f : α → EStateM ε σ β) (h : x s = .error e s') :
    (x >>= f) s = .error e s' := by
  rw [bind_eq, h]

/-- A program comes back when its first step and what follows it do. -/
theorem bind_ok_iff {x : EStateM ε σ α} {f : α → EStateM ε σ β} {b : β} :
    (x >>= f) s = .ok b s' ↔ ∃ a s1, x s = .ok a s1 ∧ f a s1 = .ok b s' := by
  rw [bind_eq]
  constructor
  · intro h
    split at h
    · next a s1 hx => exact ⟨a, s1, hx, h⟩
    · cases h
  · rintro ⟨a, s1, hx, h⟩
    rw [hx]
    exact h

theorem pure_ok_iff {b : α} : (pure a : EStateM ε σ α) s = .ok b s' ↔ a = b ∧ s = s' := by
  constructor
  · intro h
    cases h
    exact ⟨rfl, rfl⟩
  · rintro ⟨rfl, rfl⟩
    rfl

/-- A program that returns a value computed from the one of another. -/
theorem bind_pure_iff {x : EStateM ε σ α} {g : α → β} {b : β} :
    (x >>= fun a => pure (g a)) s = .ok b s' ↔ ∃ a, x s = .ok a s' ∧ g a = b := by
  simp only [bind_ok_iff, pure_ok_iff]
  grind

theorem throw_ok_iff {b : α} : (throw e : EStateM ε σ α) s = .ok b s' ↔ False :=
  ⟨nofun, nofun⟩

theorem get_ok_iff {b : σ} : (get : EStateM ε σ σ) s = .ok b s' ↔ s = b ∧ s = s' := pure_ok_iff

theorem modify_ok_iff {f : σ → σ} {u : PUnit} : (modify f : EStateM ε σ PUnit) s = .ok u s' ↔ f s = s' := by
  constructor
  · intro h
    cases h
    rfl
  · rintro rfl
    rfl

/-- Whenever the program comes back, an invariant holds as before. -/
def Preserves (P : σ → Prop) (x : EStateM ε σ α) : Prop := ∀ s a s', P s → x s = .ok a s' → P s'

section Rules

variable {P : σ → Prop}

theorem Preserves.bind {x : EStateM ε σ α} {f : α → EStateM ε σ β} (hx : Preserves P x) (hf : ∀ a, Preserves P (f a)) :
    Preserves P (x >>= f) := by
  intro s b s' hs h
  obtain ⟨a, s1, hx1, h⟩ := bind_ok_iff.1 h
  exact hf a s1 b s' (hx s a s1 hs hx1) h

theorem Preserves.pure (a : α) : Preserves P (pure a : EStateM ε σ α) := by
  intro s b s' hs h
  obtain ⟨-, rfl⟩ := pure_ok_iff.1 h
  exact hs

theorem Preserves.throw (e : ε) : Preserves P (throw e : EStateM ε σ α) := by
  intro s b s' hs h
  cases h

theorem Preserves.ite {c : Prop} [Decidable c] {x y : EStateM ε σ α} (hx : Preserves P x) (hy : Preserves P y) :
    Preserves P (if c then x else y) := by
  split
  · exact hx
  · exact hy

end Rules

/-- A loop over `0, …, n - 1` that keeps an assertion about the number of rounds made. -/
theorem forM_range {body : ℕ → EStateM ε σ Unit} {n : ℕ} (P : ℕ → σ → Prop)
    (step : ∀ k < n, ∀ s, P k s → ∃ s', body k s = .ok () s' ∧ P (k + 1) s') (h : P 0 s) :
    ∃ s', (List.range n).forM body s = .ok () s' ∧ P n s' := by
  induction n with
  | zero => exact ⟨s, rfl, h⟩
  | succ n ih =>
    obtain ⟨s1, hs1, hp1⟩ := ih fun k hk => step k (by omega)
    obtain ⟨s2, hs2, hp2⟩ := step n (by omega) s1 hp1
    refine ⟨s2, ?_, hp2⟩
    rw [List.range_succ, List.forM_eq_forM, List.forM_append]
    exact (bind_ok _ hs1).trans (bind_ok _ hs2)

/-- The same for a loop that also hands a value on. -/
theorem foldlM_range {body : α → ℕ → EStateM ε σ α} {n : ℕ} (P : ℕ → α → σ → Prop)
    (step : ∀ k < n, ∀ a s, P k a s → ∃ a' s', body a k s = .ok a' s' ∧ P (k + 1) a' s') (h : P 0 a s) :
    ∃ a' s', (List.range n).foldlM body a s = .ok a' s' ∧ P n a' s' := by
  induction n with
  | zero => exact ⟨a, s, rfl, h⟩
  | succ n ih =>
    obtain ⟨a1, s1, hs1, hp1⟩ := ih fun k hk => step k (by omega)
    obtain ⟨a2, s2, hs2, hp2⟩ := step n (by omega) a1 s1 hp1
    refine ⟨a2, s2, ?_, hp2⟩
    rw [List.range_succ, List.foldlM_append, bind_ok _ hs1]
    exact bind_ok _ hs2

/-! ### Results without a state -/

theorem ok_bind (a : α) (f : α → Except ε β) : (Except.ok a >>= f) = f a := rfl

theorem ok_of_bind {x : Except ε α} {f : α → Except ε β} {b : β} (h : (x >>= f) = .ok b) :
    ∃ a, x = .ok a ∧ f a = .ok b := by
  cases x with
  | error e => cases h
  | ok a => exact ⟨a, rfl, h⟩

theorem ok_of_map {x : Except ε α} {f : α → β} {b : β} (h : x.map f = .ok b) :
    ∃ a, x = .ok a ∧ f a = b := by
  cases x with
  | error e => cases h
  | ok a => exact ⟨a, rfl, Except.ok.inj h⟩

end Exec
