import Mathlib.Data.List.Nodup
import Mathlib.Order.Nat
import Mathlib.Tactic.Common

/-! The unfolding of a graph without cycles into a tree, and the walks that lead to a vertex: the
unfolding has a vertex once exactly if one walk leads to it. -/

namespace Unfolding

open List

variable {α : Type*}

/-- The vertex that a walk leads to. A walk says at each vertex which of its successors comes next. -/
def walk (succ : α → List α) : α → List ℕ → Option α
  | a, [] => some a
  | a, k :: ks => (succ a)[k]?.bind fun b => walk succ b ks

/-- The unfolding to a depth, in the order of a depth-first search. -/
def tree (succ : α → List α) : ℕ → α → List α
  | 0, _ => []
  | n + 1, a => a :: (succ a).flatMap (tree succ n)

variable {succ : α → List α} {rank : α → ℕ} {a b x : α} {ks ks' : List ℕ} {n k : ℕ} {C : α → Prop}

theorem walk_cons (h : (succ a)[k]? = some b) : walk succ a (k :: ks) = walk succ b ks := by
  rw [walk, h]
  rfl

theorem walk_cons_some (h : walk succ a (k :: ks) = some x) :
    ∃ b, (succ a)[k]? = some b ∧ walk succ b ks = some x := Option.bind_eq_some_iff.1 h

theorem walk_of_ne (h : walk succ a ks = some x) (hne : a ≠ x) :
    ∃ k l b, ks = k :: l ∧ (succ a)[k]? = some b ∧ walk succ b l = some x := by
  cases ks with
  | nil => exact absurd (Option.some.inj h) hne
  | cons k l =>
    obtain ⟨b, hb, hx⟩ := walk_cons_some h
    exact ⟨k, l, b, rfl, hb, hx⟩

theorem walk_snoc (h : walk succ a ks = some b) (hx : (succ b)[k]? = some x) :
    walk succ a (ks ++ [k]) = some x := by
  induction ks generalizing a with
  | nil =>
    obtain rfl : a = b := Option.some.inj h
    exact walk_cons hx
  | cons i ks ih =>
    obtain ⟨c, hc, hb⟩ := walk_cons_some h
    exact (walk_cons hc).trans (ih hb)

/-- A set that has the successors of its vertices has all that walks lead to. -/
theorem walk_closed (hC : ∀ a b, C a → b ∈ succ a → C b) (ha : C a) (h : walk succ a ks = some x) : C x := by
  induction ks generalizing a with
  | nil => exact Option.some.inj h ▸ ha
  | cons k ks ih =>
    obtain ⟨b, hb, hx⟩ := walk_cons_some h
    exact ih (hC a b ha (mem_of_getElem? hb)) hx

section
variable (hrank : ∀ a, ∀ b ∈ succ a, rank b < rank a)
include hrank

theorem walk_rank (h : walk succ a ks = some x) : rank x ≤ rank a := by
  refine walk_closed (C := fun y => rank y ≤ rank a) ?_ le_rfl h
  intro b c hb hc
  exact (hrank b c hc).le.trans hb

theorem walk_self (h : walk succ a ks = some a) : ks = [] := by
  cases ks with
  | nil => rfl
  | cons k ks =>
    obtain ⟨b, hb, hx⟩ := walk_cons_some h
    exact absurd (walk_rank hrank hx) (Nat.not_le.2 (hrank a b (mem_of_getElem? hb)))

theorem mem_tree (h : rank a < n) : x ∈ tree succ n a ↔ ∃ ks, walk succ a ks = some x := by
  induction n generalizing a with
  | zero => exact absurd h (Nat.not_lt_zero _)
  | succ n ih =>
    rw [tree, mem_cons, mem_flatMap]
    constructor
    · rintro (rfl | ⟨b, hb, hx⟩)
      · exact ⟨[], rfl⟩
      obtain ⟨ks, hks⟩ := (ih ((hrank a b hb).trans_le (Nat.lt_succ_iff.1 h))).1 hx
      obtain ⟨k, hk⟩ := mem_iff_getElem?.1 hb
      exact ⟨k :: ks, (walk_cons hk).trans hks⟩
    · rintro ⟨ks, hks⟩
      cases ks with
      | nil => exact .inl (Option.some.inj hks).symm
      | cons k ks =>
        obtain ⟨b, hb, hx⟩ := walk_cons_some hks
        have hmem := mem_of_getElem? hb
        exact .inr ⟨b, hmem, (ih ((hrank a b hmem).trans_le (Nat.lt_succ_iff.1 h))).2 ⟨ks, hx⟩⟩

variable [DecidablePred C] (hC : ∀ a b, C a → b ∈ succ a → C b)
include hC

/-- What lies below a vertex of a closed set is in the set. -/
theorem filter_tree_eq_nil (h : rank a < n) (ha : C a) : (tree succ n a).filter (¬ C ·) = [] := by
  rw [filter_eq_nil_iff]
  intro x hx
  obtain ⟨ks, hks⟩ := (mem_tree hrank h).1 hx
  simpa using walk_closed hC ha hks

/-- Outside a closed set the unfolding has every vertex once, exactly if there is one walk to each. -/
theorem filter_tree_nodup (h : rank a < n) : ((tree succ n a).filter (¬ C ·)).Nodup ↔
    ∀ x, ¬ C x → ∀ ks ks', walk succ a ks = some x → walk succ a ks' = some x → ks = ks' := by
  induction n generalizing a with
  | zero => exact absurd h (Nat.not_lt_zero _)
  | succ n ih =>
    by_cases ha : C a
    · rw [filter_tree_eq_nil hrank hC h ha]
      refine iff_of_true nodup_nil ?_
      intro x hx ks _ hks _
      exact absurd (walk_closed hC ha hks) hx
    have hbelow : ∀ b ∈ succ a, rank b < n := fun b hb => (hrank a b hb).trans_le (Nat.lt_succ_iff.1 h)
    have hmem : ∀ b ∈ succ a, ∀ x, x ∈ (tree succ n b).filter (¬ C ·) ↔ (∃ ks, walk succ b ks = some x) ∧ ¬ C x := by
      intro b hb x
      rw [mem_filter, mem_tree hrank (hbelow b hb), decide_eq_true_iff]
    have hroot : a ∉ (succ a).flatMap fun b => (tree succ n b).filter (¬ C ·) := by
      intro hin
      obtain ⟨b, hb, hx⟩ := mem_flatMap.1 hin
      obtain ⟨⟨ks, hks⟩, -⟩ := (hmem b hb a).1 hx
      exact absurd (walk_rank hrank hks) (Nat.not_le.2 (hrank a b hb))
    rw [tree, filter_cons_of_pos (by simpa using ha), filter_flatMap, nodup_cons, nodup_flatMap,
      pairwise_iff_getElem]
    constructor
    · rintro ⟨-, heach, hapart⟩ x hx ks ks' hks hks'
      obtain rfl | hne := eq_or_ne a x
      · rw [walk_self hrank hks, walk_self hrank hks']
      obtain ⟨k, l, b, rfl, hb, hxb⟩ := walk_of_ne hks hne
      obtain ⟨k', l', b', rfl, hb', hxb'⟩ := walk_of_ne hks' hne
      -- Two walks part at the root or go to the same successor.
      have hpart : ∀ (i j : ℕ) (l l' : List ℕ) (b b' : α), (succ a)[i]? = some b →
          (succ a)[j]? = some b' → walk succ b l = some x → walk succ b' l' = some x → ¬ i < j := by
        intro i j l l' b b' hb hb' hl hl' hij
        obtain ⟨hi, rfl⟩ := List.getElem?_eq_some_iff.1 hb
        obtain ⟨hj, rfl⟩ := List.getElem?_eq_some_iff.1 hb'
        exact hapart i j hi hj hij ((hmem _ (getElem_mem hi) x).2 ⟨⟨l, hl⟩, hx⟩)
          ((hmem _ (getElem_mem hj) x).2 ⟨⟨l', hl'⟩, hx⟩)
      obtain rfl : k = k' := Nat.le_antisymm (Nat.not_lt.1 (hpart k' k l' l b' b hb' hb hxb' hxb))
        (Nat.not_lt.1 (hpart k k' l l' b b' hb hb' hxb hxb'))
      obtain rfl : b = b' := Option.some.inj (hb.symm.trans hb')
      have hmem := mem_of_getElem? hb
      rw [(ih (hbelow b hmem)).1 (heach b hmem) x hx l l' hxb hxb']
    · intro hone
      refine ⟨hroot, ?_, ?_⟩
      · intro b hb
        obtain ⟨k, hk⟩ := mem_iff_getElem?.1 hb
        refine (ih (hbelow b hb)).2 ?_
        intro x hx ks ks' hks hks'
        have heq := hone x hx (k :: ks) (k :: ks') ((walk_cons hk).trans hks) ((walk_cons hk).trans hks')
        exact (List.cons.inj heq).2
      intro i j hi hj hij x hxi hxj
      obtain ⟨⟨ks, hks⟩, hx⟩ := (hmem _ (getElem_mem hi) x).1 hxi
      obtain ⟨⟨ks', hks'⟩, -⟩ := (hmem _ (getElem_mem hj) x).1 hxj
      have heq := hone x hx (i :: ks) (j :: ks') ((walk_cons (List.getElem?_eq_getElem hi)).trans hks)
        ((walk_cons (List.getElem?_eq_getElem hj)).trans hks')
      exact absurd (List.cons.inj heq).1 (Nat.ne_of_lt hij)

end

end Unfolding
