import Weenix.Proofs.PtWalk

/-! `pt_unmap_range` on one directory. The entries it clears are those of the interval, and,
where both ends lie inside one table, the rest of that table too. -/

namespace Weenix.Pt

open List
open Weenix.Page (PAGE_SHIFT PAGE_SIZE)

/-- A directory whose two arrays agree: the tables lie where the entries point, no two entries
share one, and no user table holds the kernel's mapping of a table. -/
structure Coherent (cur : Pagedir) (m : Frames) (pd : Pagedir) : Prop where
  frame : ∀ i < PT_ENTRY_COUNT, present (pd.physical i) = true → frameOf cur m (pd.virtual i) = pd.frame i
  distinct : ∀ i < PT_ENTRY_COUNT, ∀ j < PT_ENTRY_COUNT, present (pd.physical i) = true →
    present (pd.physical j) = true → pd.frame i = pd.frame j → i = j
  apart : ∀ i, UserIndex i → ∀ j < PT_ENTRY_COUNT, present (pd.physical i) = true →
    present (pd.physical j) = true → cur.frame (vaddrToPdindex (pd.virtual j)) ≠ pd.frame i

/-- What unmapping the interval is to achieve. -/
structure UnmapsOnly (m m' : Frames) (pd pd' : Pagedir) (freed : List ℕ) (vlow vhigh : ℕ) : Prop where
  inside : ∀ v, vlow ≤ v → v < vhigh → walk m' pd' v = none
  outside : ∀ v < 2 ^ 32, ¬ (vlow ≤ v ∧ v < vhigh) → walk m' pd' v = walk m pd v
  tables : ∀ table ∈ freed, ¬ pd'.RefersTo table ∧ ∃ i < PT_ENTRY_COUNT, present (pd.physical i) = true ∧
    pd.virtual i = table ∧ ∀ v < 2 ^ 32, vaddrToPdindex v = i → vlow ≤ v ∧ v < vhigh

variable {cur pd : Pagedir} {m : Frames} {vlow vhigh v low high : ℕ}

/-! ### The tables given back -/

theorem freeTables_spec {l : List ℕ} (hl : l.Nodup) (pd : Pagedir) :
    (freeTables l pd).2 = (l.filter fun i => present (pd.physical i)).map pd.virtual ∧
    ∀ i, (freeTables l pd).1.physical i = (if i ∈ l ∧ present (pd.physical i) then 0 else pd.physical i) ∧
      (freeTables l pd).1.virtual i = if i ∈ l ∧ present (pd.physical i) then 0 else pd.virtual i := by
  induction l generalizing pd with
  | nil => simp [freeTables]
  | cons k l ih =>
    rw [nodup_cons] at hl
    by_cases hp : present (pd.physical k) = true
    · obtain ⟨hfreed, hpd⟩ := ih hl.2 (pd.setEntry k 0 0)
      have hne : ∀ j ∈ l, j ≠ k := fun j hj hjk => hl.1 (hjk ▸ hj)
      simp only [freeTables, if_pos hp, filter_cons, map_cons]
      refine ⟨?_, fun i => ?_⟩
      · have hfilter : (l.filter fun i => present ((pd.setEntry k 0 0).physical i)) =
            l.filter fun i => present (pd.physical i) :=
          filter_congr fun j hj => by simp [Pagedir.setEntry, hne j hj]
        rw [hfreed, hfilter]
        congr 1
        exact map_congr_left fun j hj => by simp [Pagedir.setEntry, hne j (mem_of_mem_filter hj)]
      · rw [(hpd i).1, (hpd i).2]
        by_cases hik : i = k
        · subst hik
          simp [Pagedir.setEntry, hp]
        · simp [Pagedir.setEntry, hik]
    · obtain ⟨hfreed, hpd⟩ := ih hl.2 pd
      simp only [freeTables, if_neg hp, filter_cons]
      refine ⟨hfreed, fun i => ?_⟩
      rw [(hpd i).1, (hpd i).2]
      by_cases hik : i = k
      · subst hik
        simp [hp]
      · simp [hik]

/-! ### The entries cleared -/

def firstWhole (vlow : ℕ) : ℕ :=
  if vaddrToPtindex vlow = 0 then vaddrToPdindex vlow else vaddrToPdindex vlow + 1

/-- The entries that the call clears or drops with their table. -/
def Cleared (vlow vhigh v : ℕ) : Prop :=
  (firstWhole vlow ≤ vaddrToPdindex v ∧ vaddrToPdindex v < vaddrToPdindex vhigh) ∨
  (vaddrToPdindex v = vaddrToPdindex vlow ∧ vaddrToPtindex vlow ≠ 0 ∧ vaddrToPtindex vlow ≤ vaddrToPtindex v) ∨
  (vaddrToPdindex v = vaddrToPdindex vhigh ∧ vaddrToPtindex v < vaddrToPtindex vhigh)

instance : Decidable (Cleared vlow vhigh v) := inferInstanceAs (Decidable (_ ∨ _ ∨ _))

/-- The arguments that pass the assertions of `pt_unmap_range`. -/
structure UserRange (vlow vhigh : ℕ) : Prop where
  lt : vlow < vhigh
  low : vlow % PAGE_SIZE = 0
  high : vhigh % PAGE_SIZE = 0
  user : USER_MEM_LOW ≤ vlow
  kernel : vhigh ≤ USER_MEM_HIGH

namespace UserRange

section
variable (h : UserRange vlow vhigh)
include h

theorem high_lt : vhigh < 2 ^ 32 := h.kernel.trans_lt (by decide)

theorem low_lt : vlow < 2 ^ 32 := h.lt.trans h.high_lt

/-- Membership in the interval, by the indices of the address. -/
theorem mem_iff (hv : v < 2 ^ 32) : (vlow ≤ v ∧ v < vhigh) ↔ (vaddrToPdindex vlow < vaddrToPdindex v ∨
      vaddrToPdindex vlow = vaddrToPdindex v ∧ vaddrToPtindex vlow ≤ vaddrToPtindex v) ∧
    (vaddrToPdindex v < vaddrToPdindex vhigh ∨
      vaddrToPdindex v = vaddrToPdindex vhigh ∧ vaddrToPtindex v < vaddrToPtindex vhigh) := by
  have hl := h.low
  have hh := h.high
  simp only [PAGE_SIZE, PAGE_SHIFT] at hl hh
  rw [vaddrToPdindex_eq hv, vaddrToPdindex_eq h.low_lt, vaddrToPdindex_eq h.high_lt, vaddrToPtindex_eq hv,
    vaddrToPtindex_eq h.low_lt, vaddrToPtindex_eq h.high_lt]
  omega

theorem cleared_of_mem (hv : v < 2 ^ 32) (hmem : vlow ≤ v ∧ v < vhigh) : Cleared vlow vhigh v := by
  rw [h.mem_iff hv] at hmem
  unfold Cleared firstWhole
  split_ifs <;> omega

/-- An entry outside the interval is cleared only where both ends lie in its table. -/
theorem cleared_iff (hv : v < 2 ^ 32) (hmem : ¬ (vlow ≤ v ∧ v < vhigh)) :
    Cleared vlow vhigh v ↔ vaddrToPdindex vlow = vaddrToPdindex vhigh ∧ vaddrToPtindex vlow ≠ 0 ∧
      vaddrToPdindex v = vaddrToPdindex vlow := by
  have hi := ((h.mem_iff h.low_lt).1 ⟨le_rfl, h.lt⟩).2
  rw [h.mem_iff hv] at hmem
  unfold Cleared firstWhole
  split_ifs <;> omega

theorem userIndex :
    UserIndex (vaddrToPdindex vlow) ∧ (vaddrToPtindex vhigh ≠ 0 → UserIndex (vaddrToPdindex vhigh)) := by
  have h1 := h.lt
  have h2 := h.user
  have h3 := h.kernel
  rw [UserIndex, UserIndex, vaddrToPdindex_eq h.low_lt, vaddrToPdindex_eq h.high_lt, vaddrToPtindex_eq h.high_lt]
  simp only [USER_MEM_LOW, USER_MEM_HIGH] at h2 h3
  omega

/-- The indices that the last loop runs over. -/
theorem loop_bounds :
    vaddrToPdindex (vlow + PAGE_SIZE * ((PT_ENTRY_COUNT - vaddrToPtindex vlow) % PT_ENTRY_COUNT)) =
      firstWhole vlow ∧ vaddrToPdindex (vhigh - PAGE_SIZE * vaddrToPtindex vhigh) = vaddrToPdindex vhigh := by
  have h1 := h.lt
  have h3 := h.kernel
  have hl := h.low
  simp only [PAGE_SIZE, PAGE_SHIFT, USER_MEM_HIGH] at h3 hl
  unfold firstWhole
  rw [vaddrToPtindex_eq h.low_lt, vaddrToPtindex_eq h.high_lt, vaddrToPdindex_eq h.low_lt,
    vaddrToPdindex_eq h.high_lt]
  simp only [PT_ENTRY_COUNT, PAGE_SIZE, PAGE_SHIFT]
  constructor
  · rw [vaddrToPdindex_eq (by omega)]
    split_ifs <;> omega
  · rw [vaddrToPdindex_eq (by omega)]
    omega

end

end UserRange

/-! ### The two partial tables -/

namespace Coherent

theorem frame_ne (hco : Coherent cur m pd) {i j : ℕ} (hi : i < PT_ENTRY_COUNT) (hj : j < PT_ENTRY_COUNT)
    (hpi : present (pd.physical i) = true) (hpj : present (pd.physical j) = true) (hij : i ≠ j) :
    pd.frame i ≠ pd.frame j :=
  fun hf => hij (hco.distinct i hi j hj hpi hpj hf)

/-- The `memset` at one end clears entries of one table. -/
theorem clearPart_apply (hco : Coherent cur m pd) {i : ℕ} (hi : i < PT_ENTRY_COUNT)
    (hp : present (pd.physical i) = true) (j : ℕ) : clearPart cur m pd v low high (pd.frame i) j =
      if i = vaddrToPdindex v ∧ vaddrToPtindex v ≠ 0 ∧ low ≤ j ∧ j < high then 0 else m (pd.frame i) j := by
  unfold clearPart
  by_cases hc : present (pd.physical (vaddrToPdindex v)) = true ∧ vaddrToPtindex v ≠ 0
  · rw [if_pos hc, hco.frame _ (vaddrToPdindex_lt v) hc.1]
    by_cases hiv : i = vaddrToPdindex v
    · rw [← hiv, clear_same]
      simp [hc.2]
    · rw [clear_of_ne (hco.frame_ne hi (vaddrToPdindex_lt v) hp hc.1 hiv), if_neg fun h => hiv h.1]
  · rw [if_neg hc, if_neg]
    rintro ⟨rfl, h0, -⟩
    exact hc ⟨hp, h0⟩

/-- The kernel's mapping of the tables is not touched. -/
theorem clearPart (hco : Coherent cur m pd) (hu : vaddrToPtindex v ≠ 0 → UserIndex (vaddrToPdindex v)) :
    Coherent cur (clearPart cur m pd v low high) pd := by
  refine ⟨fun i hi hp => ?_, hco.distinct, hco.apart⟩
  rw [← hco.frame i hi hp]
  refine frameOf_congr rfl (congrFun ?_ _)
  unfold Pt.clearPart
  split_ifs with hc
  · rw [hco.frame _ (vaddrToPdindex_lt v) hc.1]
    exact clear_of_ne (hco.apart _ (hu hc.2) i hi hc.1 hp)
  · rfl

end Coherent

def wholeTables (vlow vhigh : ℕ) : List ℕ := List.range' (firstWhole vlow) (vaddrToPdindex vhigh - firstWhole vlow)

theorem mem_wholeTables {i : ℕ} : i ∈ wholeTables vlow vhigh ↔ firstWhole vlow ≤ i ∧ i < vaddrToPdindex vhigh := by
  simp only [wholeTables, mem_range'_1]
  omega

/-- Every entry is kept or cleared, as `Cleared` says. -/
theorem ptUnmapRange_spec (hco : Coherent cur m pd) (h : UserRange vlow vhigh) : ∃ pd' m' freed,
    ptUnmapRange cur m pd vlow vhigh = .ok (pd', m', freed) ∧
      (∀ v, Cleared vlow vhigh v → entryOf m' pd' v = 0) ∧
      (∀ v, ¬ Cleared vlow vhigh v → entryOf m' pd' v = entryOf m pd v) ∧
      ∀ table ∈ freed, ¬ pd'.RefersTo table ∧ ∃ i ∈ wholeTables vlow vhigh, i < PT_ENTRY_COUNT ∧
        present (pd.physical i) = true ∧ pd.virtual i = table := by
  obtain ⟨hlow, hhigh⟩ := h.loop_bounds
  obtain ⟨hfreed, hpd⟩ := freeTables_spec (l := wholeTables vlow vhigh) nodup_range' pd
  have hco1 : Coherent cur (clearPart cur m pd vlow (vaddrToPtindex vlow) PT_ENTRY_COUNT) pd :=
    hco.clearPart fun _ => h.userIndex.1
  have hentry : ∀ v, entryOf (clearPart cur (clearPart cur m pd vlow (vaddrToPtindex vlow) PT_ENTRY_COUNT) pd vhigh 0
      (vaddrToPtindex vhigh)) (freeTables (wholeTables vlow vhigh) pd).1 v =
      if present (pd.physical (vaddrToPdindex v)) = true ∧ ¬ Cleared vlow vhigh v then entryOf m pd v else 0 := by
    intro v
    have hj := vaddrToPtindex_lt v
    by_cases hp : present (pd.physical (vaddrToPdindex v)) = true
    · by_cases hw : vaddrToPdindex v ∈ wholeTables vlow vhigh
      · have hc : Cleared vlow vhigh v := .inl (mem_wholeTables.1 hw)
        simp [entryOf, (hpd _).1, hp, hw, hc]
      have hphys : (freeTables (wholeTables vlow vhigh) pd).1.physical (vaddrToPdindex v) =
          pd.physical (vaddrToPdindex v) := by rw [(hpd _).1, if_neg fun hc => hw hc.1]
      have hframe : Page.pageAlignDown (pd.physical (vaddrToPdindex v)) = pd.frame (vaddrToPdindex v) := rfl
      rw [mem_wholeTables] at hw
      simp only [entryOf, hphys, hp, if_true, true_and, hframe]
      rw [hco1.clearPart_apply (vaddrToPdindex_lt v) hp, hco.clearPart_apply (vaddrToPdindex_lt v) hp]
      unfold Cleared
      split_ifs <;> first | rfl | omega
    · simp [entryOf, (hpd _).1, hp]
  have hrun : ptUnmapRange cur m pd vlow vhigh = .ok ((freeTables (wholeTables vlow vhigh) pd).1,
      clearPart cur (clearPart cur m pd vlow (vaddrToPtindex vlow) PT_ENTRY_COUNT) pd vhigh 0 (vaddrToPtindex vhigh),
      (freeTables (wholeTables vlow vhigh) pd).2) := by
    unfold ptUnmapRange
    rw [if_pos ⟨h.lt, h.low, h.high, h.user, h.kernel⟩]
    simp only [hlow, hhigh, wholeTables]
  refine ⟨_, _, _, hrun, fun v hc => ?_, fun v hc => ?_, fun table ht => ?_⟩
  · rw [hentry, if_neg fun hn => hn.2 hc]
  · rw [hentry]
    by_cases hp : present (pd.physical (vaddrToPdindex v)) = true
    · rw [if_pos ⟨hp, hc⟩]
    · rw [if_neg fun hn => hp hn.1, entryOf, if_neg hp]
  rw [hfreed, mem_map] at ht
  obtain ⟨i, hi, rfl⟩ := ht
  obtain ⟨hw, hp⟩ := mem_filter.1 hi
  have hi' : i < PT_ENTRY_COUNT := (mem_wholeTables.1 hw).2.trans (vaddrToPdindex_lt vhigh)
  refine ⟨?_, i, hw, hi', hp, rfl⟩
  rintro ⟨j, hj, hpj, hvj⟩
  rw [(hpd j).1] at hpj
  rw [(hpd j).2] at hvj
  split_ifs at hpj hvj with hc
  · simp at hpj
  -- the same table would stand behind two entries
  have hij := hco.distinct i hi' j hj hp hpj (by rw [← hco.frame i hi' hp, ← hco.frame j hj hpj, hvj])
  exact hc ⟨hij ▸ hw, hpj⟩

/-! ### The call -/

theorem unmap_range_iff (hco : Coherent cur m pd) (h : UserRange vlow vhigh) : ∃ pd' m' freed,
    ptUnmapRange cur m pd vlow vhigh = .ok (pd', m', freed) ∧ (UnmapsOnly m m' pd pd' freed vlow vhigh ↔
      (vaddrToPdindex vlow = vaddrToPdindex vhigh → vaddrToPtindex vlow ≠ 0 →
        ∀ v < 2 ^ 32, vaddrToPdindex v = vaddrToPdindex vlow → ¬ (vlow ≤ v ∧ v < vhigh) → walk m pd v = none)) := by
  obtain ⟨pd', m', freed, hrun, hclear, hkeep, htables⟩ := ptUnmapRange_spec hco h
  refine ⟨pd', m', freed, hrun, ⟨fun hu heq h0 v hv hi hmem => ?_, fun hcond => ⟨?_, fun v hv hmem => ?_, ?_⟩⟩⟩
  · rw [← hu.outside v hv hmem]
    exact walk_of_entry_zero (hclear v ((h.cleared_iff hv hmem).2 ⟨heq, h0, hi⟩))
  · intro v h1 h2
    exact walk_of_entry_zero (hclear v (h.cleared_of_mem (h2.trans h.high_lt) ⟨h1, h2⟩))
  · by_cases hc : Cleared vlow vhigh v
    · obtain ⟨heq, h0, hi⟩ := (h.cleared_iff hv hmem).1 hc
      rw [walk_of_entry_zero (hclear v hc), hcond heq h0 v hv hi hmem]
    · exact walk_congr (hkeep v hc)
  intro table ht
  obtain ⟨hnot, i, hw, hi, hp, hv⟩ := htables table ht
  refine ⟨hnot, i, hi, hp, hv, fun v hv hvi => ?_⟩
  have hw' := mem_wholeTables.1 hw
  by_contra hmem
  obtain ⟨heq, h0, hv'⟩ := (h.cleared_iff hv hmem).1 (.inl (hvi ▸ hw'))
  omega

def oneTable : Pagedir where
  physical i := if i = 1 then 0x105007 else if i = 768 then 0x104003 else 0
  virtual i := if i = 1 then 0xc0005000 else if i = 768 then 0xc0004000 else 0

/-- The kernel's table maps its pages one after the other; the user table maps every page. -/
def oneTableMem : Frames := fun frame i =>
  if frame = 0x104000 then 0x100003 + i * PAGE_SIZE else if frame = 0x105000 then 0x200007 + i * PAGE_SIZE else 0

theorem oneTable_coherent : Coherent oneTable oneTableMem oneTable := by
  have hcases : ∀ i, present (oneTable.physical i) = true → i = 1 ∨ i = 768 := by
    intro i hp
    by_contra hn
    rw [not_or] at hn
    simp [oneTable, hn.1, hn.2] at hp
  refine ⟨fun i _ hp => ?_, fun i _ j _ hp hp' => ?_, fun i hu j _ hp hp' => ?_⟩
  · rcases hcases i hp with rfl | rfl <;> decide
  · rcases hcases i hp with rfl | rfl <;> rcases hcases j hp' with rfl | rfl <;> decide
  rcases hcases i hp with rfl | rfl
  · rcases hcases j hp' with rfl | rfl <;> decide
  · exact absurd hu.2 (by decide)

/-- All pages of the table but the first. -/
theorem unmap_range_iff_oneTable : ∃ pd' m' freed,
    ptUnmapRange oneTable oneTableMem oneTable 0x401000 0x800000 = .ok (pd', m', freed) ∧
      UnmapsOnly oneTableMem m' oneTable pd' freed 0x401000 0x800000 := by
  have hrange : UserRange 0x401000 0x800000 := ⟨by decide, by decide, by decide, by decide, by decide⟩
  obtain ⟨pd', m', freed, hrun, hiff⟩ := unmap_range_iff oneTable_coherent hrange
  exact ⟨pd', m', freed, hrun, hiff.2 fun h => absurd h (by decide)⟩

/-- Unmapping the second page of a table loses the sixth. -/
theorem unmap_one_page_loses_another :
    walk oneTableMem oneTable 0x405000 = some (0x205000, 7) ∧
      (ptUnmapRange oneTable oneTableMem oneTable 0x401000 0x402000).toOption.map (fun r => walk r.2.1 r.1 0x405000) =
        some none := by
  decide +kernel

end Weenix.Pt
