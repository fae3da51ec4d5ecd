import Weenix.Spec.Access

/-! What `user_vecdup` frees. The words of the vector are read at `fail` up to the first null pointer,
and there is one unless the vector has not been filled at all. -/

namespace Weenix.Slab.Callees

open Multiset

variable {c : Callees} {kvec : ℕ → ℕ} {b b' : Blocks}

/-- Null and all blocks freed, or the vector and its strings left. -/
def Clean (c : Callees) (avLen : ℕ) : Prop :=
  ∃ fuel addr words b, c.userVecdup fuel avLen = some (addr, words, b) ∧
    if addr = 0 then b.freed = b.allocated
    else words avLen = 0 ∧ b.allocated = b.freed + addr ::ₘ (range avLen).map words

theorem map_update_range (kvec : ℕ → ℕ) (i p : ℕ) :
    (range i).map (Function.update kvec i p) = (range i).map kvec :=
  map_congr rfl fun _ hj => Function.update_of_ne (mem_range.1 hj).ne _ _

/-- A string has been copied, or what was allocated for it has been freed. -/
theorem userStrdup_spec (c : Callees) (i : ℕ) (b : Blocks) : ∃ p x,
    c.userStrdup i b = (p, ⟨x + b.allocated, if p = 0 then x + b.freed else b.freed⟩) ∧ (p ≠ 0 → x = {p}) := by
  unfold userStrdup Blocks.kmalloc Blocks.kfree
  dsimp only
  split_ifs with hp hcopy
  · exact ⟨0, 0, by simp, fun h => absurd rfl h⟩
  · exact ⟨_, _, by rw [if_neg hp, singleton_add], fun _ => rfl⟩
  refine ⟨0, {c.kmalloc (2 + i)}, ?_, fun h => absurd rfl h⟩
  rw [if_pos rfl, singleton_add, singleton_add]

theorem vecLoop_spec (a f : Multiset ℕ) (n i : ℕ) (hne : ∀ j < i, kvec j ≠ 0) : ∃ done k words x,
    c.vecLoop n i kvec ⟨(range i).map kvec + a, f⟩ = (done, words, ⟨(range k).map words + (x + a), x + f⟩) ∧
      (∀ j < k, words j ≠ 0) ∧ if done then k = i + n ∧ x = 0 else words k = 0 := by
  induction n generalizing i kvec with
  | zero => exact ⟨true, i, kvec, 0, by simp [vecLoop], hne, rfl, rfl⟩
  | succ n ih =>
    obtain ⟨p, x, hdup, hx⟩ := userStrdup_spec c i ⟨(range i).map kvec + a, f⟩
    have hwords : ∀ j < i, Function.update kvec i p j ≠ 0 := fun j hj => by
      rw [Function.update_of_ne hj.ne]
      exact hne j hj
    unfold vecLoop
    rw [hdup]
    by_cases hp : p = 0
    · refine ⟨false, i, Function.update kvec i p, x, ?_, hwords, by simp [hp]⟩
      simp only [if_pos hp, map_update_range, add_left_comm x]
    have hblocks : x + ((range i).map kvec + a) = (range (i + 1)).map (Function.update kvec i p) + a := by
      rw [range_succ, map_cons, map_update_range, Function.update_self, hx hp, singleton_add, cons_add]
    simp only [if_neg hp, hblocks]
    obtain ⟨done, k, words, y, hrun, hk, hdone⟩ := ih (i + 1) fun j hj => by
      rcases Nat.lt_succ_iff_lt_or_eq.1 hj with hj | rfl
      · exact hwords j hj
      · rwa [Function.update_self]
    exact ⟨done, k, words, y, hrun, hk, by rwa [Nat.add_right_comm] at hdone⟩

/-- The words up to the first null pointer are freed. -/
theorem failLoop_spec (a f : Multiset ℕ) {d i k : ℕ} (hk : k = i + d) (hne : ∀ j < k, kvec j ≠ 0)
    (h0 : kvec k = 0) :
    failLoop kvec (d + 1) i ⟨a, (range i).map kvec + f⟩ = some ⟨a, (range k).map kvec + f⟩ := by
  induction d generalizing i with
  | zero =>
    obtain rfl : k = i := hk
    rw [failLoop, if_pos h0]
  | succ d ih =>
    have hstep : (Blocks.mk a ((range i).map kvec + f)).kfree (kvec i) = ⟨a, (range (i + 1)).map kvec + f⟩ := by
      rw [Blocks.kfree, range_succ, map_cons, cons_add]
    rw [failLoop, if_neg (hne i (by omega)), hstep]
    exact ih (by omega)

theorem failLoop_card {fuel i : ℕ} (h : failLoop kvec fuel i b = some b') :
    b'.allocated = b.allocated ∧ card b.freed ≤ card b'.freed := by
  induction fuel generalizing i b with
  | zero => cases h
  | succ fuel ih =>
    unfold failLoop at h
    split_ifs at h
    · cases h
      exact ⟨rfl, le_rfl⟩
    obtain ⟨ha, hle⟩ := ih h
    rw [Blocks.kfree, card_cons] at hle
    exact ⟨ha, by omega⟩

/-- The call cleans up except where there is no memory for `temp_kvec`, and where the vector cannot be
read and its first word, which has not been set, is not null by chance. -/
theorem userVecdup_clean_iff (c : Callees) (avLen : ℕ) : c.Clean avLen ↔
    c.kmalloc 0 ≠ 0 ∧ (c.kmalloc 1 = 0 ∨ c.copyFromUser 0 = true ∨ c.words 0 = 0) := by
  unfold Clean userVecdup
  by_cases htemp : c.kmalloc 0 = 0
  · simp [htemp, Blocks.kmalloc, Blocks.kfree]
  by_cases hkvec : c.kmalloc 1 = 0
  · simp [htemp, hkvec, Blocks.kmalloc, Blocks.kfree]
  have hblocks : ((Blocks.mk 0 0).kmalloc (c.kmalloc 0)).kmalloc (c.kmalloc 1) =
      ⟨(range 0).map c.words + {c.kmalloc 1, c.kmalloc 0}, 0⟩ := by
    simp [htemp, hkvec, Blocks.kmalloc]
  simp only [hblocks, hkvec, if_false, ne_eq, htemp, not_false_eq_true, true_and, false_or]
  by_cases hcopy : c.copyFromUser 0 = true
  · refine iff_of_true ?_ (.inl hcopy)
    obtain ⟨done, k, words, x, hrun, hne, hdone⟩ :=
      vecLoop_spec (c := c) {c.kmalloc 1, c.kmalloc 0} 0 avLen 0 fun j hj => absurd hj (Nat.not_lt_zero j)
    rw [if_pos hcopy, hrun]
    cases done with
    | true =>
      obtain ⟨rfl, rfl⟩ := hdone
      refine ⟨0, _, _, _, rfl, ?_⟩
      rw [if_neg hkvec, Function.update_self, Nat.zero_add, map_update_range]
      refine ⟨rfl, ?_⟩
      simp only [Blocks.kfree, insert_eq_cons, ← singleton_add]
      abel
    | false =>
      have hfail := failLoop_spec ((range k).map words + (x + {c.kmalloc 1, c.kmalloc 0})) (x + 0)
        (Nat.zero_add k).symm hne hdone
      rw [range_zero, Multiset.map_zero, zero_add] at hfail
      refine ⟨k + 1, _, _, _, by rw [hfail]; rfl, ?_⟩
      simp only [Blocks.kfree, if_true, insert_eq_cons, ← singleton_add]
      abel
  · rw [if_neg hcopy]
    constructor
    · rintro ⟨fuel, addr, words, b, hrun, hclean⟩
      refine .inr (by_contra fun h0 => ?_)
      obtain ⟨b', hfail, hb⟩ := Option.map_eq_some_iff.1 hrun
      cases hb
      cases fuel with
      | zero => cases hfail
      | succ fuel =>
        rw [failLoop, if_neg h0] at hfail
        obtain ⟨ha, hle⟩ := failLoop_card hfail
        have hnone : b'.freed = 0 := by simpa [Blocks.kfree, ha] using congrArg card hclean
        simp [Blocks.kfree, hnone] at hle
    · intro h
      refine ⟨1, 0, c.words, _, by rw [failLoop, if_pos (h.resolve_left hcopy)]; rfl, ?_⟩
      simpa [Blocks.kfree] using pair_comm (c.kmalloc 0) (c.kmalloc 1)

/-- The vector cannot be read: the poison in its block is freed. -/
theorem userVecdup_unread : ∃ words,
    userVecdup ⟨fun i => 4096 * (i + 1), fun _ => false, fun i => if i = 0 then 0xBBBBBBBB else 0⟩ 2 1 =
      some (0, words, ⟨{8192, 4096}, {4096, 8192, 0xBBBBBBBB}⟩) :=
  ⟨_, rfl⟩

end Weenix.Slab.Callees
