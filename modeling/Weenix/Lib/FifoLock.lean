import Mathlib.Tactic

/-! A lock that is handed over in the order of the requests, with the history of its
requests, grants and entries. A requester that had to wait is granted the lock before it
enters. Nothing here is about a particular implementation. -/

namespace FifoLock

variable {α : Type*}

/-- What has happened to a lock, oldest first, and who is inside. -/
structure Log (α : Type*) where
  calls : List α
  granted : List α
  entered : List α
  inside : List α

structure Lock (α : Type*) extends Log α where
  holder : Option α
  waiters : List α

inductive Step [DecidableEq α] : Lock α → Lock α → Prop
  | take (k : Lock α) (t : α) : k.holder = none → Step k { k with
      holder := some t, calls := k.calls ++ [t], granted := k.granted ++ [t],
      entered := k.entered ++ [t], inside := t :: k.inside }
  | wait (k : Lock α) (t : α) : k.holder ≠ none → Step k { k with
      waiters := k.waiters ++ [t], calls := k.calls ++ [t] }
  | enter (k : Lock α) (t : α) : k.holder = some t → t ∉ k.inside → Step k { k with
      entered := k.entered ++ [t], inside := t :: k.inside }
  | free (k : Lock α) (t : α) : t ∈ k.inside → k.waiters = [] → Step k { k with
      holder := none, inside := k.inside.erase t }
  | handOver (k : Lock α) (t u : α) (l : List α) : t ∈ k.inside → k.waiters = u :: l → Step k { k with
      holder := some u, waiters := l, granted := k.granted ++ [u], inside := k.inside.erase t }

/-- The lock is free, or its holder is inside, or its holder has yet to enter. -/
inductive Owned (k : Lock α) : Prop
  | free : k.holder = none → k.waiters = [] → k.inside = [] → k.entered = k.granted → Owned k
  | inside (t : α) : k.holder = some t → k.inside = [t] → k.entered = k.granted → Owned k
  | entering (t : α) : k.holder = some t → k.inside = [] → k.entered ++ [t] = k.granted → Owned k

structure Fair (k : Lock α) : Prop where
  order : k.calls = k.granted ++ k.waiters
  owned : Owned k

variable {k k' : Lock α} {t : α}

theorem Owned.of_none (h : Owned k) (hk : k.holder = none) :
    k.waiters = [] ∧ k.inside = [] ∧ k.entered = k.granted := by
  cases h with
  | free _ hw hi he => exact ⟨hw, hi, he⟩
  | inside t ht | entering t ht => simp [hk] at ht

theorem Owned.of_mem (h : Owned k) (ht : t ∈ k.inside) :
    k.holder = some t ∧ k.inside = [t] ∧ k.entered = k.granted := by
  cases h with
  | free _ _ hi | entering _ _ hi =>
    rw [hi] at ht
    cases ht
  | inside u hu hi he =>
    obtain rfl : t = u := by simpa [hi] using ht
    exact ⟨hu, hi, he⟩

theorem Owned.of_entering (h : Owned k) (hk : k.holder = some t) (ht : t ∉ k.inside) :
    k.inside = [] ∧ k.entered ++ [t] = k.granted := by
  cases h with
  | free hn => simp [hn] at hk
  | inside u hu hi =>
    obtain rfl : u = t := Option.some.inj (hu.symm.trans hk)
    exact absurd (hi ▸ List.mem_singleton_self u) ht
  | entering u hu hi he =>
    obtain rfl : u = t := Option.some.inj (hu.symm.trans hk)
    exact ⟨hi, he⟩

theorem Step.fair [DecidableEq α] (h : Step k k') (hk : Fair k) : Fair k' := by
  cases h with
  | take t hn =>
    obtain ⟨hw, hi, he⟩ := hk.owned.of_none hn
    refine ⟨?_, .inside t rfl ?_ ?_⟩
    · simp [hk.order, hw]
    · simp [hi]
    · simp [he]
  | wait t hn =>
    refine ⟨?_, ?_⟩
    · simp [hk.order]
    cases hk.owned with
    | free h => exact absurd h hn
    | inside u hu hi he => exact .inside u hu hi he
    | entering u hu hi he => exact .entering u hu hi he
  | enter t ht hin =>
    obtain ⟨hi, he⟩ := hk.owned.of_entering ht hin
    refine ⟨hk.order, .inside t ht ?_ he⟩
    simp [hi]
  | free t ht hw =>
    obtain ⟨-, hi, he⟩ := hk.owned.of_mem ht
    refine ⟨hk.order, .free rfl hw ?_ he⟩
    simp [hi]
  | handOver t u l ht hw =>
    obtain ⟨-, hi, he⟩ := hk.owned.of_mem ht
    refine ⟨?_, .entering u rfl ?_ ?_⟩
    · simp [hk.order, hw]
    · simp [hi]
    · simp [he]

namespace Fair

theorem entered_initial (h : Fair k) : k.entered <+: k.granted := by
  cases h.owned with
  | free _ _ _ he => rw [he]
  | inside _ _ _ he => rw [he]
  | entering t _ _ he =>
    rw [← he]
    exact List.prefix_append _ _

theorem inside_length (h : Fair k) : k.inside.length ≤ 1 := by
  cases h.owned with
  | free _ _ hi => simp [hi]
  | inside _ _ hi => simp [hi]
  | entering _ _ hi => simp [hi]

end Fair

end FifoLock
