import Mathlib.Tactic

/-! Byte-addressed memory with little-endian 32-bit words, and chains of nodes linked
through it. A word depends on its four bytes only, so a store elsewhere leaves it alone;
a chain depends on the links of its nodes only. -/

namespace Memory

open List

abbrev Mem := ℕ → UInt8

def read32 (m : Mem) (a : ℕ) : ℕ :=
  (m a).toNat + 2 ^ 8 * (m (a + 1)).toNat + 2 ^ 16 * (m (a + 2)).toNat + 2 ^ 24 * (m (a + 3)).toNat

def write8 (m : Mem) (a v : ℕ) : Mem := fun b => if b = a then UInt8.ofNat v else m b

def write32 (m : Mem) (a v : ℕ) : Mem := fun b =>
  if a ≤ b ∧ b < a + 4 then UInt8.ofNat (v / 2 ^ (8 * (b - a))) else m b

/-- The bytes `l` from `a` on. -/
def writeBytes (m : Mem) (a : ℕ) (l : List UInt8) : Mem := fun b =>
  if a ≤ b ∧ b < a + l.length then l.getD (b - a) 0 else m b

/-- `n` bytes from `a` on. -/
def bytes (m : Mem) (a n : ℕ) : List UInt8 := (List.range n).map fun i => m (a + i)

/-- The memory with `len` bytes from `start` on replaced by those of `junk`. -/
def fill (m junk : Mem) (start len : ℕ) : Mem := fun b =>
  if start ≤ b ∧ b < start + len then junk b else m b

variable {m m' : Mem} {a b v : ℕ}

theorem read32_lt (m : Mem) (a : ℕ) : read32 m a < 2 ^ 32 := by
  have h0 := (m a).toNat_lt
  have h1 := (m (a + 1)).toNat_lt
  have h2 := (m (a + 2)).toNat_lt
  have h3 := (m (a + 3)).toNat_lt
  rw [read32]
  omega

theorem read32_congr (h : ∀ b, a ≤ b → b < a + 4 → m' b = m b) : read32 m' a = read32 m a := by
  rw [read32, read32, h a le_rfl (by omega), h (a + 1) (by omega) (by omega),
    h (a + 2) (by omega) (by omega), h (a + 3) (by omega) (by omega)]

@[simp] theorem write32_of_out (h : b < a ∨ a + 4 ≤ b) : write32 m a v b = m b := by
  rw [write32, if_neg (by omega)]

@[simp] theorem write8_of_ne (h : b ≠ a) : write8 m a v b = m b := if_neg h

@[simp] theorem write8_self : write8 m a v a = UInt8.ofNat v := if_pos rfl

@[simp] theorem fill_of_out {junk : Mem} {start len : ℕ} (h : b < start ∨ start + len ≤ b) :
    fill m junk start len b = m b := by
  rw [fill, if_neg (by omega)]

@[simp] theorem read32_write32 (h : v < 2 ^ 32) : read32 (write32 m a v) a = v := by
  have h0 : write32 m a v a = UInt8.ofNat v := by
    rw [write32, if_pos (by omega), Nat.sub_self, Nat.mul_zero, Nat.pow_zero, Nat.div_one]
  have h1 : write32 m a v (a + 1) = UInt8.ofNat (v / 2 ^ 8) := by
    rw [write32, if_pos (by omega), Nat.add_sub_cancel_left]
  have h2 : write32 m a v (a + 2) = UInt8.ofNat (v / 2 ^ 16) := by
    rw [write32, if_pos (by omega), Nat.add_sub_cancel_left]
  have h3 : write32 m a v (a + 3) = UInt8.ofNat (v / 2 ^ 24) := by
    rw [write32, if_pos (by omega), Nat.add_sub_cancel_left]
  rw [read32, h0, h1, h2, h3]
  simp only [UInt8.toNat_ofNat']
  omega

@[simp] theorem read32_write32_of_out (h : b + 4 ≤ a ∨ a + 4 ≤ b) : read32 (write32 m a v) b = read32 m b :=
  read32_congr fun c _ _ => write32_of_out (by omega)

@[simp] theorem read32_write8_of_out (h : a < b ∨ b + 4 ≤ a) : read32 (write8 m a v) b = read32 m b :=
  read32_congr fun c _ _ => write8_of_ne (by omega)

/-! ### Strings of bytes -/

@[simp] theorem writeBytes_of_out {l : List UInt8} (h : b < a ∨ a + l.length ≤ b) : writeBytes m a l b = m b := by
  rw [writeBytes, if_neg (by omega)]

theorem bytes_congr {n : ℕ} (h : ∀ i < n, m' (b + i) = m (a + i)) : bytes m' b n = bytes m a n :=
  map_congr_left fun i hi => h i (mem_range.1 hi)

theorem bytes_writeBytes (m : Mem) (a : ℕ) (l : List UInt8) : bytes (writeBytes m a l) a l.length = l := by
  refine ext_getElem (by simp [bytes]) fun i h1 h2 => ?_
  simp [bytes, writeBytes, h2]

theorem length_bytes (m : Mem) (a n : ℕ) : (bytes m a n).length = n := by simp [bytes]

theorem bytes_succ (m : Mem) (a n : ℕ) : bytes m a (n + 1) = m a :: bytes m (a + 1) n := by
  simp only [bytes, range_succ_eq_map, map_cons, map_map, Nat.add_zero]
  congr 1
  refine map_congr_left fun i _ => ?_
  rw [Function.comp_apply, Nat.succ_eq_add_one, Nat.add_assoc, Nat.add_comm 1 i]

/-! ### Chains -/

/-- The nodes that following `next` from `head` passes, up to the null pointer. -/
def IsChain (next : ℕ → ℕ) : ℕ → List ℕ → Prop
  | head, [] => head = 0
  | head, x :: l => head = x ∧ x ≠ 0 ∧ IsChain next (next x) l

variable {next next' : ℕ → ℕ} {head x : ℕ} {l l₁ l₂ : List ℕ}

theorem IsChain.congr (h : IsChain next head l) (hn : ∀ x ∈ l, next' x = next x) : IsChain next' head l := by
  induction l generalizing head with
  | nil => exact h
  | cons x l ih =>
    obtain ⟨h1, h2, h3⟩ := h
    refine ⟨h1, h2, ?_⟩
    rw [hn x mem_cons_self]
    exact ih h3 fun y hy => hn y (mem_cons_of_mem _ hy)

theorem IsChain.ne_zero (h : IsChain next head l) (hx : x ∈ l) : x ≠ 0 := by
  induction l generalizing head with
  | nil => cases hx
  | cons y l ih =>
    rcases mem_cons.1 hx with rfl | hx
    · exact h.2.1
    · exact ih h.2.2 hx

/-- The tail of a chain starts where its first node points. -/
theorem IsChain.drop (h : IsChain next head (l₁ ++ x :: l₂)) : IsChain next (next x) l₂ := by
  induction l₁ generalizing head with
  | nil => exact h.2.2
  | cons y l₁ ih => exact ih h.2.2

/-- Unlinking a node: what pointed to it, the head or the link of the node before it, now
points to its successor. -/
theorem IsChain.unlink {head' : ℕ} (h : IsChain next head (l₁ ++ x :: l₂)) (hnodup : (l₁ ++ x :: l₂).Nodup)
    (hnext : ∀ y ∈ l₁ ++ l₂, l₁.getLast? ≠ some y → next' y = next y)
    (hhead : head' = if l₁ = [] then next x else head) (hlast : ∀ y, l₁.getLast? = some y → next' y = next x) :
    IsChain next' head' (l₁ ++ l₂) := by
  induction l₁ generalizing head head' with
  | nil =>
    rw [hhead, if_pos rfl]
    exact h.2.2.congr fun y hy => hnext y hy (by simp)
  | cons y l₁ ih =>
    obtain ⟨h1, h2, h3⟩ := h
    rw [cons_append, nodup_cons] at hnodup
    refine ⟨hhead.trans ((if_neg (by simp)).trans h1), h2, ih h3 hnodup.2 ?_ ?_ ?_⟩
    · intro z hz hne
      refine hnext z (mem_cons_of_mem _ hz) ?_
      cases l₁ with
      | nil =>
        simp only [List.getLast?_singleton, ne_eq, Option.some.injEq]
        rintro rfl
        exact hnodup.1 (mem_append_right _ (mem_cons_of_mem _ hz))
      | cons w l₁ => rwa [List.getLast?_cons_cons]
    · cases l₁ with
      | nil =>
        exact hlast y rfl
      | cons w l₁ =>
        refine hnext y mem_cons_self ?_
        intro hy
        exact hnodup.1 (mem_append_left _ (mem_of_getLast? hy))
    · intro z hz
      refine hlast z ?_
      cases l₁ with
      | nil => simp at hz
      | cons w l₁ => rwa [List.getLast?_cons_cons]

end Memory
