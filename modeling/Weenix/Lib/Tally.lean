import Mathlib.Tactic
import Mathlib.Data.Set.Card

/-! Reference counts: slots that each hold at most one object, and for every object the number of
slots that hold it. -/

namespace Tally

open Function

variable {ι α : Type*} [DecidableEq ι] [DecidableEq α] {s : ι → Option α} {c c' : α → ℕ} {i : ι} {a b : α}

def holders (s : ι → Option α) (a : α) : Set ι := {i | s i = some a}

/-- The counts are the numbers of holders, which are finite with them. -/
def Counted (s : ι → Option α) (c : α → ℕ) : Prop := ∀ a, (holders s a).encard = c a

omit [DecidableEq ι] [DecidableEq α] in
theorem Counted.unique (h : Counted s c) (h' : Counted s c') : c = c' :=
  funext fun a => Nat.cast_injective ((h a).symm.trans (h' a))

omit [DecidableEq ι] [DecidableEq α] in
theorem counted_none : Counted (fun _ : ι => (none : Option α)) fun _ => 0 := by
  intro a
  have hempty : holders (fun _ : ι => (none : Option α)) a = ∅ := Set.eq_empty_of_forall_notMem fun _ => nofun
  rw [hempty, Set.encard_empty]
  rfl

omit [DecidableEq ι] [DecidableEq α] in
theorem Counted.pos (h : Counted s c) (hi : s i = some a) : 0 < c a := by
  have hne : (holders s a).encard ≠ 0 := Set.encard_ne_zero.2 ⟨i, hi⟩
  rw [h a] at hne
  exact Nat.pos_of_ne_zero fun h0 => hne (by rw [h0]; rfl)

omit [DecidableEq α] in
theorem holders_update_self : holders (update s i (some a)) a = insert i (holders s a) := by
  ext j
  by_cases hj : j = i
  · simp [holders, hj]
  · simp [holders, hj]

omit [DecidableEq α] in
theorem holders_update_ne (hi : s i = none) (hb : b ≠ a) : holders (update s i (some a)) b = holders s b := by
  ext j
  by_cases hj : j = i
  · simp [holders, hj, hi, hb.symm]
  · simp [holders, hj]

/-- An empty slot takes an object. -/
theorem Counted.take (h : Counted s c) (hi : s i = none) :
    Counted (update s i (some a)) (update c a (c a + 1)) := by
  intro b
  by_cases hb : b = a
  · subst hb
    rw [holders_update_self, update_self, Set.encard_insert_of_notMem (by simp [holders, hi]), h b]
    rfl
  · rw [holders_update_ne hi hb, update_of_ne hb, h b]

/-- A slot drops its object. -/
theorem Counted.drop (h : Counted s c) (hi : s i = some a) :
    Counted (update s i none) (update c a (c a - 1)) := by
  have hs : update (update s i none) i (some a) = s := by
    rw [update_idem, ← hi, update_eq_self]
  intro b
  have hb := h b
  rw [← hs] at hb
  by_cases hba : b = a
  · subst hba
    have hpos := h.pos hi
    rw [holders_update_self, Set.encard_insert_of_notMem (by simp [holders])] at hb
    rw [update_self]
    have hc : (c b : ℕ∞) = ((c b - 1 : ℕ) : ℕ∞) + 1 := by
      exact_mod_cast (Nat.sub_add_cancel hpos).symm
    rw [hc] at hb
    exact (ENat.add_left_injective_of_ne_top ENat.one_ne_top) hb
  · rw [holders_update_ne (update_self ..) hba] at hb
    rw [update_of_ne hba, hb]

/-- Two slots hold the same object. -/
theorem Counted.two_le {j : ι} (h : Counted s c) (hi : s i = some a) (hj : s j = some a) (hij : i ≠ j) : 2 ≤ c a := by
  have hpos := (h.drop hi).pos (i := j) (a := a) (by rw [update_of_ne hij.symm, hj])
  rw [update_self] at hpos
  omega

end Tally
