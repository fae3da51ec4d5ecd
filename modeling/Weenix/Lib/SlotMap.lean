import Mathlib.Tactic

/-! A finite map kept in an array of slots that are used again: a slot has a key and a value, the
key `free` marks the slots not in use, and a key is looked up by the first slot that has it. -/

namespace SlotMap

open Function

variable {κ ν : Type} [DecidableEq κ] {n i : ℕ} {free k : κ} {v : ν} {key : ℕ → κ} {val : ℕ → ν}

/-- The first of the slots `0, …, n - 1` that has the key. -/
def slot (n : ℕ) (key : ℕ → κ) (k : κ) : Option ℕ := (List.range n).find? fun i => key i = k

def toMap (n : ℕ) (free : κ) (key : ℕ → κ) (val : ℕ → ν) (k : κ) : Option ν :=
  if k = free then none else (slot n key k).map val

/-- No two slots in use have one key. -/
def Distinct (n : ℕ) (free : κ) (key : ℕ → κ) : Prop :=
  ∀ i < n, ∀ j < n, key i = key j → key i ≠ free → i = j

/-- How many slots are in use. -/
def used (n : ℕ) (free : κ) (key : ℕ → κ) : ℕ := ((Finset.range n).filter fun i => key i ≠ free).card

theorem slot_some (h : slot n key k = some i) : i < n ∧ key i = k :=
  ⟨List.mem_range.1 (List.mem_of_find?_eq_some h), by simpa using List.find?_some h⟩

theorem slot_none : slot n key k = none ↔ ∀ i < n, key i ≠ k := by
  simp [slot]

theorem slot_of_key (hd : Distinct n free key) (hi : i < n) (hk : key i ≠ free) : slot n key (key i) = some i := by
  cases h : slot n key (key i) with
  | none => exact absurd rfl (slot_none.1 h i hi)
  | some j =>
    obtain ⟨hj, hkey⟩ := slot_some h
    rw [hd i hi j hj hkey.symm hk]

theorem toMap_free : toMap n free key val free = none := if_pos rfl

theorem toMap_none (hk : k ≠ free) : toMap n free key val k = none ↔ slot n key k = none := by
  rw [toMap, if_neg hk, Option.map_eq_none_iff]

theorem slot_update_of_ne {k' : κ} (hi : key i ≠ k) (hk : k' ≠ k) :
    slot n (update key i k') k = slot n key k := by
  unfold slot
  congr 1
  funext j
  by_cases hj : j = i
  · subst hj
    simp [hi, hk]
  · simp [hj]

/-! ### Using a free slot -/

theorem Distinct.insert (hd : Distinct n free key) (hnew : slot n key k = none) :
    Distinct n free (update key i k) := by
  intro a ha b hb hab hne
  by_cases hai : a = i
  · by_cases hbi : b = i
    · rw [hai, hbi]
    subst hai
    rw [update_self, update_of_ne hbi] at hab
    exact absurd hab.symm (slot_none.1 hnew b hb)
  rw [update_of_ne hai] at hab hne
  by_cases hbi : b = i
  · subst hbi
    rw [update_self] at hab
    exact absurd hab (slot_none.1 hnew a ha)
  · rw [update_of_ne hbi] at hab
    exact hd a ha b hb hab hne

theorem toMap_insert (hd : Distinct n free key) (hi : i < n) (hfree : key i = free) (hk : k ≠ free)
    (hnew : slot n key k = none) : toMap n free (update key i k) (update val i v) =
      update (toMap n free key val) k (some v) := by
  funext k'
  by_cases hk' : k' = free
  · subst hk'
    rw [toMap_free, update_of_ne hk.symm, toMap_free]
  by_cases hkk : k' = k
  · subst hkk
    have hs := slot_of_key (hd.insert (i := i) hnew) hi (by rwa [update_self])
    rw [update_self] at hs
    rw [toMap, if_neg hk', hs, update_self, Option.map_some, update_self]
  rw [update_of_ne hkk, toMap, toMap, if_neg hk', if_neg hk',
    slot_update_of_ne (by rw [hfree]; exact Ne.symm hk') (Ne.symm hkk)]
  cases hs : slot n key k' with
  | none => rfl
  | some j =>
    have hj : j ≠ i := by
      rintro rfl
      exact hk' ((slot_some hs).2.symm.trans hfree)
    rw [Option.map_some, Option.map_some, update_of_ne hj]

theorem used_insert (hi : i < n) (hfree : key i = free) (hk : k ≠ free) :
    used n free (update key i k) = used n free key + 1 := by
  have h : (Finset.range n).filter (fun j => update key i k j ≠ free) =
      insert i ((Finset.range n).filter fun j => key j ≠ free) := by
    ext j
    by_cases hj : j = i
    · subst hj
      simp [hk, hi]
    · simp [hj]
  rw [used, h, Finset.card_insert_of_notMem (by simp [hfree]), used]

/-! ### Freeing a slot -/

omit [DecidableEq κ] in
theorem Distinct.erase (hd : Distinct n free key) : Distinct n free (update key i free) := by
  intro a ha b hb hab hne
  have hai : a ≠ i := by
    rintro rfl
    exact hne (update_self ..)
  have hbi : b ≠ i := by
    rintro rfl
    exact hne (hab.trans (update_self ..))
  rw [update_of_ne hai] at hab hne
  rw [update_of_ne hbi] at hab
  exact hd a ha b hb hab hne

theorem toMap_erase (hd : Distinct n free key) (hi : i < n) :
    toMap n free (update key i free) val = update (toMap n free key val) (key i) none := by
  funext k'
  by_cases hk' : k' = free
  · subst hk'
    by_cases hki : key i = k'
    · rw [hki, update_self, toMap_free]
    · rw [update_of_ne (Ne.symm hki), toMap_free, toMap_free]
  by_cases hkk : k' = key i
  · subst hkk
    rw [update_self, toMap_none hk', slot_none]
    intro j hj hji
    by_cases hij : j = i
    · subst hij
      exact hk' (hji.symm.trans (update_self ..))
    · rw [update_of_ne hij] at hji
      exact hij (hd i hi j hj hji.symm hk').symm
  · rw [update_of_ne hkk, toMap, toMap, if_neg hk', if_neg hk',
      slot_update_of_ne (Ne.symm hkk) (Ne.symm hk')]

theorem used_erase (hi : i < n) (hk : key i ≠ free) :
    used n free (update key i free) + 1 = used n free key := by
  have h : used n free (update (update key i free) i (key i)) = _ :=
    used_insert hi (update_self ..) hk
  rw [update_idem, update_eq_self] at h
  exact h.symm

end SlotMap
