import Mathlib.Tactic

/-! Positions on a cycle of `n` places, counted from a base. -/

namespace Cyclic

variable {n : ℕ}

/-- The place `x` steps behind `b`. -/
def place (n b x : ℕ) : ℕ := (b + x) % n

/-- The number of steps from `a` forward to `b`. -/
def dist (n b a : ℕ) : ℕ := (b + n - a) % n

theorem place_lt (hn : 0 < n) (b x : ℕ) : place n b x < n := Nat.mod_lt _ hn

theorem place_zero {b : ℕ} (hb : b < n) : place n b 0 = b := by
  rw [place, Nat.add_zero, Nat.mod_eq_of_lt hb]

theorem place_add (b x y : ℕ) : (place n b x + y) % n = place n b (x + y) := by
  rw [place, place, Nat.mod_add_mod, Nat.add_assoc]

theorem place_place (b x y : ℕ) : place n (place n b x) y = place n b (x + y) := place_add b x y

theorem dist_place (hn : 0 < n) {b x y : ℕ} (hxy : x ≤ y) (hlt : y - x < n) :
    dist n (place n b y) (place n b x) = y - x := by
  obtain ⟨d, rfl⟩ := Nat.exists_eq_add_of_le hxy
  rw [Nat.add_sub_cancel_left] at hlt ⊢
  have hx := place_lt hn b x
  have hy : place n b (x + d) = (place n b x + d) % n := (place_add b x d).symm
  rw [dist, hy]
  generalize place n b x = p at hx ⊢
  rcases lt_or_ge (p + d) n with h | h
  · rw [Nat.mod_eq_of_lt h, show p + d + n - p = d + n by omega, Nat.add_mod_right, Nat.mod_eq_of_lt hlt]
  have hwrap : (p + d) % n = p + d - n := by
    rw [Nat.mod_eq_sub_mod h]
    exact Nat.mod_eq_of_lt (by omega)
  rw [hwrap, show p + d - n + n - p = d by omega, Nat.mod_eq_of_lt hlt]

/-- Fewer than `n` steps lead to different places. -/
theorem place_inj (hn : 0 < n) {b x y : ℕ} (hx : x < n) (hy : y < n) (h : place n b x = place n b y) : x = y := by
  have key : ∀ {x y : ℕ}, x ≤ y → y < n → place n b x = place n b y → x = y := by
    intro x y hxy hy h
    have h1 := dist_place hn (b := b) hxy (by omega)
    have h2 := dist_place hn (b := b) (le_refl x) (by omega)
    rw [← h] at h1
    omega
  rcases le_total x y with hxy | hxy
  · exact key hxy hy h
  · exact (key hxy hx h.symm).symm

end Cyclic
