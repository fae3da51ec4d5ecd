import Weenix.Spec.Pagetable

/-! How an address is split into the indices of a directory and of a table, what an entry holds
as a frame and flags, and what a store into one table leaves to the walks through the others. -/

namespace Weenix.Pt

open Weenix.Page (PAGE_SHIFT PAGE_SIZE word wordSub pageAlignDown)

def Pagedir.RefersTo (pd : Pagedir) (table : ℕ) : Prop :=
  ∃ i < PT_ENTRY_COUNT, present (pd.physical i) = true ∧ pd.virtual i = table

def Pagedir.frame (pd : Pagedir) (i : ℕ) : ℕ := pageAlignDown (pd.physical i)

def UserIndex (i : ℕ) : Prop := 1 ≤ i ∧ i < 768

/-! ### Addresses -/

variable {v : ℕ}

theorem vaddrToPdindex_lt (vaddr : ℕ) : vaddrToPdindex vaddr < PT_ENTRY_COUNT := by
  have h : word vaddr < 2 ^ 32 := Nat.mod_lt _ (by norm_num)
  simp only [vaddrToPdindex, PT_ENTRY_COUNT, PAGE_SIZE, PAGE_SHIFT, Nat.shiftRight_eq_div_pow]
  omega

theorem vaddrToPtindex_lt (vaddr : ℕ) : vaddrToPtindex vaddr < PT_ENTRY_COUNT := Nat.mod_lt _ (by decide)

theorem vaddrToPdindex_eq (hv : v < 2 ^ 32) : vaddrToPdindex v = v / 4194304 := by
  simp only [vaddrToPdindex, PT_ENTRY_COUNT, PAGE_SIZE, PAGE_SHIFT, Nat.shiftRight_eq_div_pow, word]
  omega

theorem vaddrToPtindex_eq (hv : v < 2 ^ 32) : vaddrToPtindex v = v % 4194304 / 4096 := by
  simp only [vaddrToPtindex, PT_ENTRY_COUNT, PAGE_SIZE, PAGE_SHIFT, Nat.shiftRight_eq_div_pow, word]
  omega

/-! ### Entries -/

@[simp] theorem present_zero : present 0 = false := rfl

theorem present_or (a b : ℕ) : present (a ||| b) = (present a || present b) := Nat.testBit_or a b 0

theorem pageAlignDown_or {a flags : ℕ} (hf : flags % PAGE_SIZE = flags) :
    pageAlignDown (a ||| flags) = pageAlignDown a := by
  have hlt : flags < 2 ^ 12 := hf ▸ Nat.mod_lt flags (by decide)
  have hdiv : (a ||| flags) / 2 ^ 12 = a / 2 ^ 12 := by
    rw [Nat.or_div_two_pow, Nat.div_eq_of_lt hlt, Nat.or_zero]
  simp only [pageAlignDown, PAGE_SIZE, PAGE_SHIFT, hdiv]

theorem pageAlignDown_of_aligned {a : ℕ} (ha : a % PAGE_SIZE = 0) : pageAlignDown a = a :=
  Nat.div_mul_cancel (Nat.dvd_of_mod_eq_zero ha)

theorem or_mod_pageSize {a flags : ℕ} (ha : a % PAGE_SIZE = 0) (hf : flags % PAGE_SIZE = flags) :
    (a ||| flags) % PAGE_SIZE = flags := by
  have h : (a ||| flags) % 2 ^ 12 = a % 2 ^ 12 ||| flags % 2 ^ 12 := Nat.or_mod_two_pow
  calc (a ||| flags) % PAGE_SIZE = a % PAGE_SIZE ||| flags % PAGE_SIZE := h
    _ = flags := by rw [ha, hf, Nat.zero_or]

/-! ### Stores into tables -/

section
variable {m : Frames} {frame low high g : ℕ}

theorem clear_of_ne (hne : g ≠ frame) : clear m frame low high g = m g := Function.update_of_ne hne _ _

@[simp] theorem clear_same (i : ℕ) :
    clear m frame low high frame i = if low ≤ i ∧ i < high then 0 else m frame i := by
  simp [clear]

theorem setWord_of_ne {index w : ℕ} (hne : g ≠ frame) : setWord m frame index w g = m g :=
  Function.update_of_ne hne _ _

@[simp] theorem setWord_same {index w : ℕ} (i : ℕ) :
    setWord m frame index w frame i = if i = index then w else m frame i := by
  simp [setWord, Function.update_apply]

/-- The translation of an address reads one entry. -/
theorem frameOf_congr {cur cur' : Pagedir} {m' : Frames}
    (hcur : cur'.physical (vaddrToPdindex v) = cur.physical (vaddrToPdindex v))
    (hm : m' (cur.frame (vaddrToPdindex v)) (vaddrToPtindex v) =
      m (cur.frame (vaddrToPdindex v)) (vaddrToPtindex v)) : frameOf cur' m' v = frameOf cur m v := by
  rw [frameOf, hcur]
  exact congrArg pageAlignDown hm

theorem entryOf_congr {pd pd' : Pagedir} {m' : Frames}
    (hpd : pd'.physical (vaddrToPdindex v) = pd.physical (vaddrToPdindex v))
    (hm : present (pd.physical (vaddrToPdindex v)) = true →
      m' (pd.frame (vaddrToPdindex v)) (vaddrToPtindex v) = m (pd.frame (vaddrToPdindex v)) (vaddrToPtindex v)) :
    entryOf m' pd' v = entryOf m pd v := by
  simp only [entryOf, hpd]
  split_ifs with hp
  · exact hm hp
  · rfl

theorem walk_congr {pd pd' : Pagedir} {m' : Frames} (h : entryOf m' pd' v = entryOf m pd v) :
    walk m' pd' v = walk m pd v := by
  simp only [walk, h]

theorem walk_of_entry_zero {pd : Pagedir} (h : entryOf m pd v = 0) : walk m pd v = none := by
  simp [walk, h]

end

end Weenix.Pt
