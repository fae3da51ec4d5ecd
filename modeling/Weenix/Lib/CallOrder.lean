import Mathlib.Data.List.Nodup
import Mathlib.Logic.Relation
import Mathlib.Tactic.Common

/-! Lists in which every element comes after all that it needs. -/

namespace CallOrder

open Relation List

variable {α : Type*} {needs : α → α → Prop} {l : List α} {a b c : α}

/-- `a` stands before `b`. -/
def Before (l : List α) (a b : α) : Prop := ∃ l₁ l₂, l = l₁ ++ b :: l₂ ∧ a ∈ l₁

/-- Nothing occurs twice, and all that an element needs stands before it. -/
structure Ordered (needs : α → α → Prop) (l : List α) : Prop where
  nodup : l.Nodup
  before : ∀ l₁ b l₂, l = l₁ ++ b :: l₂ → ∀ a, needs b a → a ∈ l₁

theorem Ordered.nil : Ordered needs [] := by
  refine ⟨nodup_nil, fun l1 b l2 h => ?_⟩
  simp at h

/-- An element goes to the end once all that it needs is there. -/
theorem Ordered.snoc (h : Ordered needs l) (ha : a ∉ l) (hneeds : ∀ b, needs a b → b ∈ l) :
    Ordered needs (l ++ [a]) := by
  refine ⟨nodup_append.2 ⟨h.nodup, nodup_singleton a, ?_⟩, fun l1 b l2 he c hc => ?_⟩
  · intro x hx y hy
    rw [mem_singleton.1 hy]
    rintro rfl
    exact ha hx
  rcases eq_nil_or_concat l2 with rfl | ⟨l3, d, rfl⟩
  · obtain ⟨rfl, hab⟩ := append_inj' he rfl
    obtain rfl : a = b := by simpa using hab
    exact hneeds c hc
  have he' : l ++ [a] = (l1 ++ b :: l3) ++ [d] := by simpa using he
  obtain ⟨rfl, -⟩ := append_inj' he' rfl
  exact h.before l1 b l3 rfl c hc

theorem Ordered.of_needs (h : Ordered needs l) (hb : b ∈ l) (hn : needs b a) : Before l a b := by
  obtain ⟨l1, l2, rfl⟩ := append_of_mem hb
  exact ⟨l1, l2, rfl, h.before l1 b l2 rfl a hn⟩

/-- What an element needs through others stands before it, too. -/
theorem Ordered.of_transGen (h : Ordered needs l) (hb : b ∈ l) (hn : TransGen needs b a) : Before l a b := by
  induction hn with
  | single hn => exact h.of_needs hb hn
  | tail _ hn ih =>
    obtain ⟨l1, l2, rfl, hc⟩ := ih
    obtain ⟨l3, l4, rfl⟩ := append_of_mem hc
    refine ⟨_, l2, rfl, ?_⟩
    apply mem_append_left
    exact h.before l3 _ (l4 ++ b :: l2) (by simp) _ hn

theorem Ordered.acyclic (h : Ordered needs l) (hb : b ∈ l) : ¬ TransGen needs b b := by
  intro hn
  obtain ⟨l1, l2, rfl, hm⟩ := h.of_transGen hb hn
  have hdisj := (nodup_append.1 h.nodup).2.2
  exact hdisj b hm b mem_cons_self rfl

end CallOrder
