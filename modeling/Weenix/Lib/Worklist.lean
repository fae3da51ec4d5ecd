import Mathlib.Tactic
import Mathlib.Data.Finset.Card

/-! A search whose list of results is its own worklist: the items found are looked at in the
order in which they were found, and what they lead to is appended. Each look breaks off at the
first successor that is known already, so successors behind it can be dropped. The search ends
if there are finitely many items, and it finds what can be reached exactly if it finds all that
it has dropped. -/

namespace Worklist

open List

variable {α : Type*} [DecidableEq α]

/-- The successors up to the first one that is known. -/
def fresh (K : List α) : List α → List α
  | [] => []
  | a :: l => if a ∈ K then [] else a :: fresh (K ++ [a]) l

/-- The successors behind the first one that is known. -/
def dropped (K : List α) : List α → List α
  | [] => []
  | a :: l => if a ∈ K then l else dropped (K ++ [a]) l

section
variable (succs : α → List α) (start : List α)

/-- What is known after `i` items have been looked at. -/
def found : ℕ → List α
  | 0 => fresh [] start
  | i + 1 => match (found i)[i]? with
    | none => found i
    | some a => found i ++ fresh (found i) (succs a)

inductive Reach : α → Prop
  | start {a : α} : a ∈ start → Reach a
  | step {a b : α} : Reach a → b ∈ succs a → Reach b

/-- Some look has passed the item over. -/
inductive Dropped : α → Prop
  | start {a : α} : a ∈ dropped [] start → Dropped a
  | step {i : ℕ} {a b : α} : (found succs start i)[i]? = some a → b ∈ dropped (found succs start i) (succs a) →
      Dropped b

end

variable {succs : α → List α} {start K l : List α} {a : α} {i j : ℕ}

theorem fresh_subset (l K : List α) : fresh K l ⊆ l := by
  induction l generalizing K with
  | nil => exact fun _ h => h
  | cons b l ih =>
    intro a ha
    rw [fresh] at ha
    split_ifs at ha
    · cases ha
    rcases mem_cons.1 ha with rfl | ha
    · exact mem_cons_self
    · exact mem_cons_of_mem b (ih _ ha)

theorem dropped_subset (l K : List α) : dropped K l ⊆ l := by
  induction l generalizing K with
  | nil => exact fun _ h => h
  | cons b l ih =>
    intro a ha
    rw [dropped] at ha
    split_ifs at ha
    · exact mem_cons_of_mem b ha
    · exact mem_cons_of_mem b (ih _ ha)

theorem mem_fresh_or_dropped (l K : List α) : ∀ a ∈ l, a ∈ K ++ fresh K l ∨ a ∈ dropped K l := by
  induction l generalizing K with
  | nil => exact fun _ h => by cases h
  | cons b l ih =>
    intro a ha
    rw [fresh, dropped]
    split_ifs with hb
    · rcases mem_cons.1 ha with rfl | ha
      · exact .inl (mem_append_left _ hb)
      · exact .inr ha
    rw [append_cons]
    rcases mem_cons.1 ha with rfl | ha
    · exact .inl (by simp)
    · exact ih _ a ha

theorem nodup_fresh (l K : List α) (h : K.Nodup) : (K ++ fresh K l).Nodup := by
  induction l generalizing K with
  | nil =>
    rwa [fresh, append_nil]
  | cons b l ih =>
    rw [fresh]
    split_ifs with hb
    · rwa [append_nil]
    rw [append_cons]
    exact ih _ (nodup_append.2 ⟨h, nodup_singleton b, fun x hx y hy he =>
      hb (mem_singleton.1 hy ▸ he ▸ hx)⟩)

theorem found_succ (h : (found succs start i)[i]? = some a) :
    found succs start (i + 1) = found succs start i ++ fresh (found succs start i) (succs a) := by
  rw [found, h]

theorem found_mono_succ (i : ℕ) : found succs start i <+: found succs start (i + 1) := by
  rw [found]
  split
  · exact prefix_rfl
  · exact prefix_append _ _

theorem found_mono (h : i ≤ j) : found succs start i <+: found succs start j := by
  induction h with
  | refl => exact prefix_rfl
  | step _ ih => exact ih.trans (found_mono_succ _)

theorem found_nodup (i : ℕ) : (found succs start i).Nodup := by
  induction i with
  | zero => exact nodup_fresh start [] nodup_nil
  | succ i ih =>
    rw [found]
    split
    · exact ih
    · exact nodup_fresh _ _ ih

theorem found_reach (i : ℕ) : ∀ a ∈ found succs start i, Reach succs start a := by
  induction i with
  | zero => exact fun a ha => .start (fresh_subset _ _ ha)
  | succ i ih =>
    rw [found]
    split
    · exact ih
    next a hi =>
      intro b hb
      rcases mem_append.1 hb with hb | hb
      · exact ih b hb
      · exact .step (ih a (mem_of_getElem? hi)) (fresh_subset _ _ hb)

/-- Nothing is left to look at, so nothing more is found. -/
theorem found_stop (h : (found succs start i).length ≤ i) (hij : i ≤ j) : found succs start j = found succs start i := by
  induction hij with
  | refl => rfl
  | @step j hij ih =>
    have hnone : (found succs start j)[j]? = none := by
      rw [ih]
      exact List.getElem?_eq_none (h.trans hij)
    rw [found, hnone, ih]

omit [DecidableEq α] in
theorem reach_mem {U : Finset α} (hstart : ∀ a ∈ start, a ∈ U) (hsuccs : ∀ a ∈ U, ∀ b ∈ succs a, b ∈ U)
    (h : Reach succs start a) : a ∈ U := by
  induction h with
  | start ha => exact hstart _ ha
  | step _ hb ih => exact hsuccs _ ih _ hb

/-- With finitely many items the search has ended after as many looks as there are items. -/
theorem found_length_le {U : Finset α} (hstart : ∀ a ∈ start, a ∈ U) (hsuccs : ∀ a ∈ U, ∀ b ∈ succs a, b ∈ U) (i : ℕ) :
    (found succs start i).length ≤ U.card := by
  rw [← toFinset_card_of_nodup (found_nodup i)]
  refine Finset.card_le_card fun a ha => ?_
  exact reach_mem hstart hsuccs (found_reach i a (mem_toFinset.1 ha))

theorem Dropped.reach (h : Dropped succs start a) : Reach succs start a := by
  cases h with
  | start ha => exact .start (dropped_subset _ _ ha)
  | step hi ha => exact .step (found_reach _ _ (mem_of_getElem? hi)) (dropped_subset _ _ ha)

/-- What has been found when the search ends is what can be reached, exactly if all that was
dropped has been found. -/
theorem found_iff_reach (h : (found succs start i).length ≤ i) :
    (∀ a, a ∈ found succs start i ↔ Reach succs start a) ↔ ∀ a, Dropped succs start a → a ∈ found succs start i := by
  constructor
  · exact fun hall a ha => (hall a).2 ha.reach
  intro hdrop a
  refine ⟨found_reach i a, fun ha => ?_⟩
  induction ha with
  | start ha =>
    rcases mem_fresh_or_dropped _ [] _ ha with hf | hd
    · exact (found_mono (Nat.zero_le i)).subset hf
    · exact hdrop _ (.start hd)
  | @step a b _ hb ih =>
    -- `a` was looked at after as many looks as it has items before it
    obtain ⟨j, hj⟩ := List.getElem?_of_mem ih
    have hjlt : j < (found succs start i).length := (List.getElem?_eq_some_iff.1 hj).1
    have hji : j < i := hjlt.trans_le h
    have hlook : (found succs start j)[j]? = some a := by
      have hlen : j < (found succs start j).length := by
        by_contra hle
        rw [found_stop (not_lt.1 hle) hji.le] at hjlt
        exact hle hjlt
      obtain ⟨t, ht⟩ : found succs start j <+: found succs start i := found_mono hji.le
      rwa [← ht, List.getElem?_append_left hlen] at hj
    rcases mem_fresh_or_dropped _ (found succs start j) b hb with hf | hd
    · rw [← found_succ hlook] at hf
      exact (found_mono hji).subset hf
    · exact hdrop b (.step hlook hd)

end Worklist
