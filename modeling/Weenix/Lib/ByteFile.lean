import Mathlib.Tactic

/-! A file of bytes read and written at offsets, and little-endian words in it. -/

/-- The bytes behind the end are zero, which is what a write leaves between the old end and
its offset. -/
structure ByteFile where
  size : ℕ
  byte : ℕ → UInt8
  ended : ∀ i, size ≤ i → byte i = 0

namespace ByteFile

open List

variable {f : ByteFile} {off pos v n : ℕ} {data : List UInt8}

@[ext]
theorem ext {f g : ByteFile} (hs : f.size = g.size) (hb : ∀ i, f.byte i = g.byte i) : f = g := by
  obtain ⟨s, b, _⟩ := f
  obtain ⟨s', b', _⟩ := g
  obtain rfl : s = s' := hs
  obtain rfl : b = b' := funext hb
  rfl

def empty : ByteFile := ⟨0, fun _ => 0, fun _ _ => rfl⟩

/-- At most `n` bytes from `off` on, fewer at the end of the file. -/
def read (f : ByteFile) (off n : ℕ) : List UInt8 :=
  (List.range (min n (f.size - off))).map fun i => f.byte (off + i)

/-- A write behind the end extends the file; a write of nothing does not. -/
def write (f : ByteFile) (off : ℕ) (data : List UInt8) : ByteFile where
  size := if data = [] then f.size else max f.size (off + data.length)
  byte i := if off ≤ i ∧ i < off + data.length then data.getD (i - off) 0 else f.byte i
  ended i hi := by
    cases data with
    | nil =>
      rw [if_neg (by simp)]
      exact f.ended i hi
    | cons b bs =>
      rw [if_neg (by simp)] at hi
      rw [if_neg (by omega)]
      exact f.ended i (le_trans (le_max_left _ _) hi)

/-- The file cut off or filled up with zeros to a size. -/
def truncate (f : ByteFile) (n : ℕ) : ByteFile where
  size := n
  byte i := if i < n then f.byte i else 0
  ended _ hi := if_neg (Nat.not_lt.2 hi)

theorem byte_write_outside (h : pos < off ∨ off + data.length ≤ pos) : (f.write off data).byte pos = f.byte pos :=
  if_neg (by omega)

theorem byte_write_inside (h : off ≤ pos) (hlt : pos < off + data.length) :
    (f.write off data).byte pos = data.getD (pos - off) 0 := if_pos ⟨h, hlt⟩

theorem size_write_le : f.size ≤ (f.write off data).size := by
  unfold write
  split_ifs
  · exact le_refl _
  · exact le_max_left _ _

theorem size_write (h : data ≠ []) : (f.write off data).size = max f.size (off + data.length) := if_neg h

theorem size_write_inside (h : off + data.length ≤ f.size) : (f.write off data).size = f.size := by
  by_cases hd : data = []
  · exact if_pos hd
  · rw [size_write hd, max_eq_left h]

theorem byte_write_zeros (h : off ≤ pos) (hlt : pos < off + n) : (f.write off (List.replicate n 0)).byte pos = 0 := by
  rw [byte_write_inside h (by rw [length_replicate]; exact hlt), getD_eq_getElem?_getD,
    List.getElem?_replicate_of_lt (by omega)]
  rfl

theorem read_eq (h : off + n ≤ f.size) : f.read off n = (List.range n).map fun i => f.byte (off + i) := by
  rw [read, min_eq_left (by omega)]

/-! ### Words -/

/-- The little-endian word of four bytes at an offset. -/
def word (f : ByteFile) (off : ℕ) : ℕ :=
  (f.byte off).toNat + 256 * (f.byte (off + 1)).toNat + 65536 * (f.byte (off + 2)).toNat +
    16777216 * (f.byte (off + 3)).toNat

/-- The four bytes of a word. -/
def packed (v : ℕ) : List UInt8 :=
  [UInt8.ofNat v, UInt8.ofNat (v / 256), UInt8.ofNat (v / 65536), UInt8.ofNat (v / 16777216)]

/-- The word of exactly four bytes. -/
def unpacked : List UInt8 → Option ℕ
  | [a, b, c, d] => some (a.toNat + 256 * b.toNat + 65536 * c.toNat + 16777216 * d.toNat)
  | _ => none

@[simp]
theorem length_packed (v : ℕ) : (packed v).length = 4 := rfl

theorem le_size_write_packed : off + 4 ≤ (f.write off (packed v)).size := by
  exact le_max_right _ _

theorem unpacked_read (h : off + 4 ≤ f.size) : unpacked (f.read off 4) = some (f.word off) := by
  rw [read_eq h]
  rfl

theorem word_lt (f : ByteFile) (off : ℕ) : f.word off < 4294967296 := by
  have h0 := (f.byte off).toNat_lt
  have h1 := (f.byte (off + 1)).toNat_lt
  have h2 := (f.byte (off + 2)).toNat_lt
  have h3 := (f.byte (off + 3)).toNat_lt
  unfold word
  omega

theorem word_congr {g : ByteFile} (h : ∀ i < 4, f.byte (off + i) = g.byte (pos + i)) : f.word off = g.word pos := by
  unfold word
  have h0 : f.byte off = g.byte pos := h 0 (by decide)
  rw [h0, h 1 (by decide), h 2 (by decide), h 3 (by decide)]

/-- Words of a region where the bytes are the same. -/
theorem word_congr_at {g : ByteFile} (h : ∀ o, f.byte (pos + o) = g.byte (pos + o)) (o : ℕ) :
    f.word (pos + o) = g.word (pos + o) :=
  word_congr fun i _ => by
    rw [Nat.add_assoc]
    exact h (o + i)

theorem word_eq_zero (h : ∀ i < 4, f.byte (off + i) = 0) : f.word off = 0 := by
  unfold word
  have h0 : f.byte off = 0 := h 0 (by decide)
  rw [h0, h 1 (by decide), h 2 (by decide), h 3 (by decide)]
  rfl

theorem word_write_outside (h : pos + 4 ≤ off ∨ off + data.length ≤ pos) :
    (f.write off data).word pos = f.word pos :=
  word_congr fun i _ => byte_write_outside (by omega)

theorem byte_packed (h : pos < off ∨ off + 4 ≤ pos) : (f.write off (packed v)).byte pos = f.byte pos :=
  byte_write_outside h

theorem word_packed (h : pos + 4 ≤ off ∨ off + 4 ≤ pos) : (f.write off (packed v)).word pos = f.word pos :=
  word_write_outside h

theorem word_write_packed (hv : v < 4294967296) : (f.write off (packed v)).word off = v := by
  have hbyte : ∀ i < 4, (f.write off (packed v)).byte (off + i) = (packed v).getD i 0 := by
    intro i hi
    rw [byte_write_inside (Nat.le_add_right _ _) (by rw [length_packed]; omega), Nat.add_sub_cancel_left]
  have h0 : (f.write off (packed v)).byte off = UInt8.ofNat v := hbyte 0 (by decide)
  unfold word
  rw [h0, hbyte 1 (by decide), hbyte 2 (by decide), hbyte 3 (by decide)]
  simp only [packed, getD_cons_zero, getD_cons_succ, UInt8.toNat_ofNat']
  omega

/-! ### Half words -/

/-- The little-endian half word of two bytes at an offset. -/
def half (f : ByteFile) (off : ℕ) : ℕ := (f.byte off).toNat + 256 * (f.byte (off + 1)).toNat

/-- The half word of exactly two bytes. -/
def unpackedHalf : List UInt8 → Option ℕ
  | [a, b] => some (a.toNat + 256 * b.toNat)
  | _ => none

/-- The two bytes of a half word. -/
def packedHalf (v : ℕ) : List UInt8 := [UInt8.ofNat v, UInt8.ofNat (v / 256)]

theorem unpackedHalf_read (h : off + 2 ≤ f.size) : unpackedHalf (f.read off 2) = some (f.half off) := by
  rw [read_eq h]
  rfl

theorem half_congr {g : ByteFile} (h : ∀ i < 2, f.byte (off + i) = g.byte (pos + i)) : f.half off = g.half pos := by
  unfold half
  have h0 : f.byte off = g.byte pos := h 0 (by decide)
  rw [h0, h 1 (by decide)]

/-! ### Arrays of words -/

/-- The words of an array. -/
def words (f : ByteFile) (off n : ℕ) : List ℕ := (List.range n).map fun i => f.word (off + 4 * i)

theorem words_succ : f.words off (n + 1) = f.words off n ++ [f.word (off + 4 * n)] := by
  rw [words, range_succ, map_append]
  rfl

theorem length_words : (f.words off n).length = n := by
  rw [words, length_map, length_range]

theorem words_congr {g : ByteFile} (h : ∀ i < n, f.word (off + 4 * i) = g.word (pos + 4 * i)) :
    f.words off n = g.words pos n :=
  map_congr_left fun i hi => h i (mem_range.mp hi)

/-- `g` is `f` with `n` words from `src` on copied to `dst`, one after the other. -/
structure Copied (f g : ByteFile) (src dst n : ℕ) : Prop where
  grown : f.size ≤ g.size
  inside : n ≠ 0 → dst + 4 * n ≤ g.size
  fits : g.size ≤ max f.size (dst + 4 * n)
  outside : ∀ p, p < dst ∨ dst + 4 * n ≤ p → g.byte p = f.byte p
  copied : ∀ i < n, g.word (dst + 4 * i) = f.word (src + 4 * i)

namespace Copied

variable {g : ByteFile} {src dst : ℕ}

theorem nothing : Copied f f src dst 0 where
  grown := le_refl _
  inside h := absurd rfl h
  fits := le_max_left _ _
  outside _ _ := rfl
  copied i hi := absurd hi (Nat.not_lt_zero i)

theorem word_outside (h : Copied f g src dst n) (hp : pos + 4 ≤ dst ∨ dst + 4 * n ≤ pos) : g.word pos = f.word pos :=
  word_congr fun i _ => h.outside (pos + i) (by omega)

theorem snoc (h : Copied f g src dst n) (hd : src + 4 * (n + 1) ≤ dst ∨ dst + 4 * (n + 1) ≤ src) :
    Copied f (g.write (dst + 4 * n) (packed (g.word (src + 4 * n)))) src dst (n + 1) := by
  have hsize := @size_write g (dst + 4 * n) (packed (g.word (src + 4 * n))) (by simp [packed])
  have hg := h.grown
  have hf := h.fits
  rw [length_packed] at hsize
  refine ⟨by omega, fun _ => by omega, by omega, ?_, ?_⟩
  · intro p hp
    rw [byte_packed (by omega), h.outside p (by omega)]
  intro i hi
  rcases Nat.lt_succ_iff_lt_or_eq.mp hi with hi | rfl
  · rw [word_packed (by omega), h.copied i hi]
  · rw [word_write_packed (word_lt _ _), h.word_outside (by omega)]

end Copied

end ByteFile
