import Weenix.Lib.Run

/-! Reading a table of slots through a position that jumps from one used slot to the next, while slots
are used and freed between the reads. What stays in the table all the time is read once. -/

namespace SlotScan

open Runs (Run)

variable {α : Type*} {N : ℕ} {used : α → Prop} {a : α}

structure State (α : Type*) where
  table : ℕ → α
  pos : ℕ

variable {s s' s₀ : State α}

/-- At most one slot changes. -/
def OneSlot (t t' : ℕ → α) : Prop := ∃ i, ∀ j, j ≠ i → t' j = t j

/-- No slot from the position on is used. -/
def Done (N : ℕ) (used : α → Prop) (s : State α) : Prop := ∀ j < N, s.pos ≤ j → ¬ used (s.table j)

/-- A step with what it reads, if it reads anything. -/
inductive Step (N : ℕ) (used : α → Prop) (s : State α) : Option α → State α → Prop
  | read (j : ℕ) (lt : j < N) (le : s.pos ≤ j) (hj : used (s.table j))
      (first : ∀ i, s.pos ≤ i → i < j → ¬ used (s.table i)) : Step N used s (some (s.table j)) ⟨s.table, j + 1⟩
  | stop (done : Done N used s) : Step N used s none s
  | change (t : ℕ → α) (one : OneSlot s.table t) : Step N used s none ⟨t, s.pos⟩

/-- It is in one slot. -/
def Once (N : ℕ) (s : State α) (a : α) : Prop := ∃! j, j < N ∧ s.table j = a

theorem OneSlot.refl (t : ℕ → α) : OneSlot t t := ⟨0, fun _ _ => rfl⟩

theorem OneSlot.update (t : ℕ → α) (i : ℕ) (x : α) : OneSlot t (Function.update t i x) :=
  ⟨i, fun _ hj => Function.update_of_ne hj ..⟩

/-- What is in one slot before and after stays in its slot. -/
theorem OneSlot.stays {t' : ℕ → α} {j : ℕ} (h : OneSlot s.table t') (h1 : Once N s a) (h2 : Once N ⟨t', s.pos⟩ a)
    (hj : j < N) (ha : s.table j = a) : t' j = a := by
  obtain ⟨i, hi⟩ := h
  obtain ⟨k, ⟨hk, hka⟩, hk'⟩ := h2
  by_cases hji : j = i
  · by_cases hki : k = i
    · rw [hji, ← hki]
      exact hka
    -- the slot that has it after the step had it before
    have hbefore : s.table k = a := (hi k hki).symm.trans hka
    rw [h1.unique ⟨hj, ha⟩ ⟨hk, hbefore⟩]
    exact hka
  · rw [hi j hji]
    exact ha

variable [DecidableEq α] {es : List (Option α)}

/-- Whether what is in slot `j` has been read. -/
structure Read (N : ℕ) (s : State α) (a : α) (es : List (Option α)) (j : ℕ) : Prop where
  lt : j < N
  slot : s.table j = a
  count : es.count (some a) = if j < s.pos then 1 else 0

theorem Read.step {j : ℕ} {o : Option α} (h : Read N s a es j) (hu : used a) (h1 : Once N s a) (h2 : Once N s' a)
    (hs : Step N used s o s') : Read N s' a (es ++ [o]) j := by
  obtain ⟨hj, hslot, hcount⟩ := h
  cases hs with
  | stop => exact ⟨hj, hslot, by simpa [List.count_append] using hcount⟩
  | change t one => exact ⟨hj, one.stays h1 h2 hj hslot, by simpa [List.count_append] using hcount⟩
  | read i lt le hi first =>
    refine ⟨hj, hslot, ?_⟩
    rw [List.count_append, hcount]
    by_cases hij : i = j
    · subst hij
      simp [hslot, not_lt.2 le]
    have hne : s.table i ≠ a := fun h => hij (h1.unique ⟨lt, h⟩ ⟨hj, hslot⟩)
    have hpos : j < i + 1 ↔ j < s.pos := by
      constructor
      · intro h
        by_contra hle
        exact first j (not_lt.1 hle) (by omega) (hslot ▸ hu)
      · omega
    simp [hne, hpos]

/-- What is in one slot in every state of a run has been read when the position is past its slot. -/
theorem read_run (h0 : Once N s₀ a) (hpos : s₀.pos = 0) (hu : used a)
    (hrun : Run (fun s o s' => Step N used s o s' ∧ Once N s' a) s₀ es s) : Once N s a ∧ ∃ j, Read N s a es j := by
  induction hrun with
  | nil =>
    obtain ⟨j, ⟨hj, ha⟩, -⟩ := id h0
    exact ⟨h0, j, hj, ha, by simp [hpos]⟩
  | snoc _ hs ih =>
    obtain ⟨h1, j, hj⟩ := ih
    exact ⟨hs.2, j, hj.step hu h1 hs.2 hs.1⟩

theorem count_eq_one (h0 : Once N s₀ a) (hpos : s₀.pos = 0) (hu : used a)
    (hrun : Run (fun s o s' => Step N used s o s' ∧ Once N s' a) s₀ es s) (hdone : Done N used s) :
    es.count (some a) = 1 := by
  obtain ⟨-, j, hj⟩ := read_run h0 hpos hu hrun
  have hlt : j < s.pos := by
    by_contra hle
    exact hdone j hj.lt (not_lt.1 hle) (hj.slot ▸ hu)
  rw [hj.count, if_pos hlt]

end SlotScan
