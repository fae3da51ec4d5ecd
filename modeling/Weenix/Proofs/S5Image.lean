import Weenix.Proofs.S5Free

/-! The files on a disk image: which blocks an inode owns, what is stored in them, and what the
single changes that a write makes do to it. -/

namespace Weenix.S5

open ByteFile Exec List

variable {f g : ByteFile} {L M : List ℕ} {b i p : ℕ}

/-! ### Inodes and the blocks they own -/

def inodeAt (i : ℕ) : ℕ := 4096 + 128 * i

def inode (i : ℕ) : Inode := ⟨i, inodeAt i⟩

theorem getInode_lt (hs : 140 ≤ f.size) (hi : i < f.word 136) : getInode i f = .ok (inode i) f := by
  have hat : S5_BLOCK_SIZE * (1 + i / S5_INODES_PER_BLOCK) + S5_INODE_SIZE * (i % S5_INODES_PER_BLOCK) = inodeAt i := by
    change 4096 * (1 + i / 32) + 128 * (i % 32) = 4096 + 128 * i
    omega
  have hnum : getNumInodes f = .ok (f.word 136) f := getWord_ok (by exact hs)
  unfold getInode
  rw [bind_ok _ hnum, if_neg (by omega), hat]
  rfl

/-- The places where an inode has block numbers: in itself and in its indirect block. -/
inductive Slot
  | direct (j : Fin 28)
  | indirect
  | entry (j : Fin 1024)
  deriving DecidableEq

def typeOf (f : ByteFile) (i : ℕ) : ℕ := f.half (inodeAt i + 8)

def fileSize (f : ByteFile) (i : ℕ) : ℕ := f.word (inodeAt i)

def ptr (f : ByteFile) (i : ℕ) : Slot → ℕ
  | .direct j => f.word (inodeAt i + 12 + 4 * j)
  | .indirect => f.word (inodeAt i + 124)
  | .entry j => if f.word (inodeAt i + 124) = 0 then 0 else f.word (4096 * f.word (inodeAt i + 124) + 4 * j)

/-- An inode that can be read and written. -/
structure IsFile (f : ByteFile) (i : ℕ) : Prop where
  lt : i < f.word 136
  type : typeOf f i = S5_TYPE_DATA ∨ typeOf f i = S5_TYPE_DIR

/-- The slot of block `k` of a file. -/
def slot (k : ℕ) : Slot :=
  if h : k < 28 then .direct ⟨k, h⟩ else .entry ⟨(k - 28) % 1024, Nat.mod_lt _ (by decide)⟩

/-- The byte stored at a position of a file, zero where the file is sparse. -/
def content (f : ByteFile) (i p : ℕ) : UInt8 :=
  if ptr f i (slot (p / 4096)) = 0 then 0 else f.byte (4096 * ptr f i (slot (p / 4096)) + p % 4096)

def IsData (f : ByteFile) (b : ℕ) : Prop := inodeAt (f.word 136) ≤ 4096 * b

/-- No block is owned twice, and no owned block is free. -/
structure Sound (f : ByteFile) (L : List ℕ) : Prop where
  table : inodeAt (f.word 136) ≤ f.size
  free : FreeList f L
  nodup : L.Nodup
  freeData : ∀ b ∈ L, IsData f b
  data : ∀ i, IsFile f i → ∀ s, ptr f i s ≠ 0 → IsData f (ptr f i s)
  inside : ∀ i, IsFile f i → ∀ s, ptr f i s ≠ 0 → 4096 * ptr f i s + 4096 ≤ f.size
  unfree : ∀ i, IsFile f i → ∀ s, ptr f i s ∉ L
  once : ∀ i j s t, IsFile f i → IsFile f j → ptr f i s ≠ 0 → ptr f i s = ptr f j t → i = j ∧ s = t

theorem inodeAt_eq (i : ℕ) : inodeAt i = 4096 + 128 * i := rfl

theorem slot_ne_indirect (k : ℕ) : slot k ≠ .indirect := by
  unfold slot
  split_ifs <;> exact Slot.noConfusion

theorem slot_inj {k l : ℕ} (hk : k < 1052) (hl : l < 1052) (h : slot k = slot l) : k = l := by
  unfold slot at h
  split_ifs at h
  · exact congrArg Fin.val (Slot.direct.inj h)
  have := congrArg Fin.val (Slot.entry.inj h)
  simp only at this
  omega

/-! ### What does not change -/

/-- The same inodes are files. -/
structure SameTypes (f g : ByteFile) : Prop where
  grown : f.size ≤ g.size
  num : g.word 136 = f.word 136
  type : ∀ i < f.word 136, typeOf g i = typeOf f i

/-- The inodes are the same, up to the blocks they own. -/
structure SameInodes (f g : ByteFile) : Prop extends SameTypes f g where
  size : ∀ i < f.word 136, fileSize g i = fileSize f i

theorem SameTypes.isFile (h : SameTypes f g) : IsFile g i ↔ IsFile f i := by
  constructor
  · rintro ⟨hlt, htype⟩
    rw [h.num] at hlt
    rw [h.type i hlt] at htype
    exact ⟨hlt, htype⟩
  · rintro ⟨hlt, htype⟩
    refine ⟨h.num ▸ hlt, ?_⟩
    rw [h.type i hlt]
    exact htype

theorem SameTypes.isData (h : SameTypes f g) : IsData g b ↔ IsData f b := by
  unfold IsData
  rw [h.num]

theorem SameTypes.trans {e : ByteFile} (h : SameTypes e f) (h' : SameTypes f g) : SameTypes e g where
  grown := h.grown.trans h'.grown
  num := h'.num.trans h.num
  type i hi := (h'.type i (h.num ▸ hi)).trans (h.type i hi)

theorem SameInodes.trans {e : ByteFile} (h : SameInodes e f) (h' : SameInodes f g) : SameInodes e g where
  toSameTypes := h.toSameTypes.trans h'.toSameTypes
  size i hi := (h'.size i (h.num ▸ hi)).trans (h.size i hi)

/-- The files are the same, with what is stored in them. -/
structure SameBytes (f g : ByteFile) : Prop extends SameInodes f g where
  content : ∀ i, IsFile f i → ∀ p, S5.content g i p = S5.content f i p

theorem SameBytes.refl (f : ByteFile) : SameBytes f f :=
  ⟨⟨⟨le_refl _, rfl, fun _ _ => rfl⟩, fun _ _ => rfl⟩, fun _ _ _ => rfl⟩

theorem SameBytes.trans {e : ByteFile} (h : SameBytes e f) (h' : SameBytes f g) : SameBytes e g where
  toSameInodes := h.toSameInodes.trans h'.toSameInodes
  content i hi p := (h'.content i (h.isFile.mpr hi) p).trans (h.content i hi p)

/-- The image is changed in the free list and in block `b` only. -/
structure Keeps (f g : ByteFile) (b : ℕ) : Prop where
  grown : f.size ≤ g.size
  outside : ∀ p, 132 ≤ p → (p < 4096 * b ∨ 4096 * b + 4096 ≤ p) → g.byte p = f.byte p

namespace Keeps

theorem word (h : Keeps f g b) (hp : 132 ≤ p) (hb : p + 4 ≤ 4096 * b ∨ 4096 * b + 4096 ≤ p) :
    g.word p = f.word p :=
  word_congr fun o _ => h.outside (p + o) (by omega) (by omega)

theorem table (h : Keeps f g b) (hb : IsData f b) (hp : 132 ≤ p) (hlt : p + 4 ≤ inodeAt (f.word 136)) :
    g.word p = f.word p := by
  unfold IsData at hb
  exact h.word hp (by omega)

theorem sameInodes (h : Keeps f g b) (hb : IsData f b) : SameInodes f g where
  grown := h.grown
  num := h.table hb (by decide) (by rw [inodeAt_eq]; omega)
  type i hi := by
    unfold IsData at hb
    rw [inodeAt_eq] at hb
    unfold typeOf
    rw [inodeAt_eq]
    exact half_congr fun o _ => h.outside _ (by omega) (by omega)
  size i hi := h.table hb (by rw [inodeAt_eq]; omega) (by rw [inodeAt_eq, inodeAt_eq]; omega)

theorem ptr_eq (h : Keeps f g b) (hs : Sound f L) (hb : IsData f b) (hi : IsFile f i) (hne : ptr f i .indirect ≠ b)
    (s : Slot) : ptr g i s = ptr f i s := by
  have hlt := hi.lt
  have hind : g.word (inodeAt i + 124) = f.word (inodeAt i + 124) :=
    h.table hb (by rw [inodeAt_eq]; omega) (by rw [inodeAt_eq, inodeAt_eq]; omega)
  cases s with
  | direct j => exact h.table hb (by rw [inodeAt_eq]; omega) (by rw [inodeAt_eq, inodeAt_eq]; omega)
  | indirect => exact hind
  | entry j =>
    unfold ptr
    rw [hind]
    split_ifs with h0
    · rfl
    have hdata := hs.data i hi .indirect h0
    unfold IsData at hdata
    change f.word (inodeAt i + 124) ≠ b at hne
    exact h.word (by omega) (by omega)

theorem content_eq (h : Keeps f g b) (hs : Sound f L) (hi : IsFile f i)
    (hptr : ∀ s, ptr g i s = ptr f i s) (hne : ptr f i (slot (p / 4096)) ≠ b) : content g i p = content f i p := by
  unfold content
  rw [hptr]
  split_ifs with h0
  · rfl
  have hdata := hs.data i hi _ h0
  unfold IsData at hdata
  exact h.outside _ (by omega) (by omega)

end Keeps

/-- A free list lies in the superblock and in the free blocks. -/
theorem FreeList.keeps (h : FreeList f L) (hsize : f.size ≤ g.size) (hsuper : ∀ p, 8 ≤ p → p < 132 → g.byte p = f.byte p)
    (hfree : ∀ c ∈ L, c ≠ 0 → ∀ o < 120, g.byte (4096 * c + o) = f.byte (4096 * c + o)) : FreeList g L := by
  obtain ⟨rest, hc, rfl⟩ := h.chain
  have hword : ∀ p, 8 ≤ p → p + 4 ≤ 132 → g.word p = f.word p := fun p h1 h2 =>
    word_congr fun o _ => hsuper (p + o) (by omega) (by omega)
  have hn := hword 8 (by decide) (by decide)
  have hnfree := h.nfree
  refine ⟨h.stored.trans hsize, by rw [hn]; exact hnfree, rest, ?_, ?_⟩
  · rw [hword 128 (by decide) (by decide)]
    apply hc.frame hsize
    intro c hc hc0 o ho
    apply word_congr
    intro o' ho'
    rw [Nat.add_assoc]
    exact hfree c (mem_append_right _ hc) hc0 _ (by omega)
  · rw [hn, words_congr fun o ho => hword (12 + 4 * o) (by omega) (by omega)]

theorem Chain.lt {v : ℕ} (h : Chain f v L) (hv : v < 4294967296) : ∀ b ∈ L, b < 4294967296 := by
  induction h with
  | nil => simp
  | @node b L _ _ _ _ ih =>
    intro c hc
    rcases mem_append.mp hc with hc | hc
    · rcases mem_cons.mp hc with rfl | hc
      · exact hv
      obtain ⟨o, -, rfl⟩ := mem_map.mp (mem_reverse.mp hc)
      exact word_lt _ _
    · exact ih (word_lt _ _) c hc

theorem FreeList.lt (h : FreeList f L) (hb : b ∈ L) : b < 4294967296 := by
  obtain ⟨rest, hc, rfl⟩ := h.chain
  rcases mem_append.mp hb with hb | hb
  · obtain ⟨o, -, rfl⟩ := mem_map.mp (mem_reverse.mp hb)
    exact word_lt _ _
  · exact hc.lt (word_lt _ _) b hb

/-- An image with the same inodes and blocks is sound with what is left of the free list. -/
theorem Sound.same (h : Sound f L) (hi : SameTypes f g) (hptr : ∀ i, IsFile f i → ∀ s, ptr g i s = ptr f i s)
    (hfree : FreeList g M) (hnodup : M.Nodup) (hsub : M ⊆ L) : Sound g M := by
  have hgrown := hi.grown
  have hkept : ∀ i, IsFile g i → IsFile f i ∧ ∀ s, ptr g i s = ptr f i s := fun i hg =>
    have hf := hi.isFile.mp hg
    ⟨hf, hptr i hf⟩
  refine ⟨?_, hfree, hnodup, fun b hb => hi.isData.mpr (h.freeData b (hsub hb)), ?_, ?_, ?_, ?_⟩
  · rw [hi.num]
    exact h.table.trans hgrown
  · intro i hg s h0
    obtain ⟨hf, hp⟩ := hkept i hg
    rw [hp] at h0 ⊢
    exact hi.isData.mpr (h.data i hf s h0)
  · intro i hg s h0
    obtain ⟨hf, hp⟩ := hkept i hg
    rw [hp] at h0 ⊢
    exact (h.inside i hf s h0).trans hgrown
  · intro i hg s hm
    obtain ⟨hf, hp⟩ := hkept i hg
    rw [hp] at hm
    exact h.unfree i hf s (hsub hm)
  intro i j s t hg hg' h0 he
  obtain ⟨hf, hp⟩ := hkept i hg
  obtain ⟨hf', hp'⟩ := hkept j hg'
  rw [hp] at h0 he
  rw [hp'] at he
  exact h.once i j s t hf hf' h0 he

/-! ### A free block is claimed -/

/-- A block of zeros that is neither free nor owned. -/
structure Fresh (f : ByteFile) (L : List ℕ) (b : ℕ) : Prop where
  data : IsData f b
  inside : 4096 * b + 4096 ≤ f.size
  zero : ∀ o < 4096, f.byte (4096 * b + o) = 0
  number : b < 4294967296
  unfree : b ∉ L
  unowned : ∀ i, IsFile f i → ∀ s, ptr f i s ≠ b

theorem IsData.pos (h : IsData f b) : 0 < b := by
  unfold IsData at h
  rw [inodeAt_eq] at h
  omega

theorem Sound.claim (h : Sound f (b :: L)) : ∃ g1 g, allocBlock f = .ok (getBlock b) g1 ∧
    (getBlock b).zero g1 = .ok () g ∧ Sound g L ∧ Fresh g L b ∧ SameBytes f g ∧
    ∀ i, IsFile f i → ∀ s, ptr g i s = ptr f i s := by
  obtain ⟨g1, halloc, hfree, hsize, hout⟩ := h.free.alloc
  have hdata := h.freeData b (mem_cons_self)
  have hpos := hdata.pos
  have hmem : b ∉ L := (nodup_cons.mp h.nodup).1
  have hunowned : ∀ i, IsFile f i → ∀ s, ptr f i s ≠ b := fun i hi s he =>
    h.unfree i hi s (he ▸ mem_cons_self)
  set g := g1.write (4096 * b) (List.replicate 4096 0) with hg
  have hgrown : g1.size ≤ g.size := size_write_le
  have hlen : (List.replicate 4096 (0 : UInt8)).length = 4096 := length_replicate
  have hne : List.replicate 4096 (0 : UInt8) ≠ [] := fun he => by
    rw [he] at hlen
    exact absurd hlen (by decide)
  have hsame : ∀ p, p < 4096 * b ∨ 4096 * b + 4096 ≤ p → g.byte p = g1.byte p := fun p hp =>
    byte_write_outside (by rw [hlen]; exact hp)
  have hkeeps : Keeps f g b :=
    ⟨by omega, fun p hp hb => (hsame p hb).trans (hout p (.inr hp))⟩
  have hinodes := hkeeps.sameInodes hdata
  have hptr : ∀ i, IsFile f i → ∀ s, ptr g i s = ptr f i s := fun i hi =>
    hkeeps.ptr_eq h hdata hi (hunowned i hi .indirect)
  have hlist : FreeList g L := by
    apply hfree.keeps hgrown
    · intro p _ hp
      exact hsame p (by omega)
    intro c hc _ o ho
    have hcb : c ≠ b := fun he => hmem (he ▸ hc)
    exact hsame _ (by omega)
  refine ⟨g1, g, halloc, rfl, ?_, ⟨hinodes.isData.mpr hdata, ?_, ?_, ?_, hmem, ?_⟩, ⟨hinodes, ?_⟩, hptr⟩
  · exact h.same hinodes.toSameTypes hptr hlist h.nodup.of_cons (subset_cons_self b L)
  · rw [hg, size_write hne, hlen]
    exact le_max_right _ _
  · intro o ho
    exact byte_write_zeros (Nat.le_add_right _ _) (by omega)
  · exact h.free.lt mem_cons_self
  · intro i hi s
    rw [hptr i (hinodes.isFile.mp hi)]
    exact hunowned i (hinodes.isFile.mp hi) s
  · intro i hi p
    exact hkeeps.content_eq h hi (hptr i hi) (hunowned i hi _)

/-! ### A block becomes a part of a file -/

/-- `g` is `f` with block `b` in a slot of inode `i`. -/
structure Attached (f g : ByteFile) (i : ℕ) (s : Slot) (b : ℕ) : Prop extends SameInodes f g where
  ptr : ∀ j, IsFile f j → ∀ t, S5.ptr g j t = if j = i ∧ t = s then b else S5.ptr f j t
  super : ∀ p < 132, g.byte p = f.byte p
  blocks : ∀ c, IsData f c → c ≠ S5.ptr f i .indirect → ∀ o < 4096, g.byte (4096 * c + o) = f.byte (4096 * c + o)

theorem Attached.content_eq {s : Slot} (h : Attached f g i s b) (hs : Sound f L) (hi : IsFile f i) (hf : Fresh f L b)
    (h0 : S5.ptr f i s = 0) {j : ℕ} (hj : IsFile f j) (p : ℕ) : content g j p = content f j p := by
  have hlt : p % 4096 < 4096 := Nat.mod_lt _ (by decide)
  unfold content
  rw [h.ptr j hj]
  by_cases he : j = i ∧ slot (p / 4096) = s
  · -- The slot was empty and the block holds zeros.
    obtain ⟨rfl, rfl⟩ := he
    have hnew : (if j = j ∧ slot (p / 4096) = slot (p / 4096) then b else S5.ptr f j (slot (p / 4096))) = b :=
      if_pos ⟨rfl, rfl⟩
    rw [hnew, if_pos h0, if_neg hf.data.pos.ne',
      h.blocks b hf.data (fun he => hf.unowned j hi .indirect he.symm) _ hlt, hf.zero _ hlt]
  split_ifs with hz
  · rfl
  apply h.blocks _ (hs.data j hj _ hz) _ _ hlt
  intro hind
  exact slot_ne_indirect _ (hs.once j i _ _ hj hi hz hind).2

theorem Attached.sound {s : Slot} (h : Attached f g i s b) (hs : Sound f L) (hi : IsFile f i) (hf : Fresh f L b) :
    Sound g L := by
  have hgrown := h.grown
  have hfile : ∀ {j}, IsFile g j → IsFile f j := h.isFile.mp
  refine ⟨?_, ?_, hs.nodup, fun c hc => h.isData.mpr (hs.freeData c hc), ?_, ?_, ?_, ?_⟩
  · rw [h.num]
    exact hs.table.trans hgrown
  · apply hs.free.keeps hgrown
    · intro p _ hp
      exact h.super p hp
    intro c hc _ o ho
    apply h.blocks c (hs.freeData c hc) _ o (by omega)
    rintro rfl
    exact hs.unfree i hi _ hc
  · intro j hj t ht
    rw [h.ptr j (hfile hj)] at ht ⊢
    split_ifs at ht ⊢
    · exact h.isData.mpr hf.data
    · exact h.isData.mpr (hs.data j (hfile hj) t ht)
  · intro j hj t ht
    rw [h.ptr j (hfile hj)] at ht ⊢
    split_ifs at ht ⊢
    · exact hf.inside.trans hgrown
    · exact (hs.inside j (hfile hj) t ht).trans hgrown
  · intro j hj t
    rw [h.ptr j (hfile hj)]
    split_ifs
    · exact hf.unfree
    · exact hs.unfree j (hfile hj) t
  intro j k t u hj hk ht he
  rw [h.ptr j (hfile hj)] at ht he
  rw [h.ptr k (hfile hk)] at he
  split_ifs at ht he with h1 h2 h3
  · exact ⟨h1.1.trans h2.1.symm, h1.2.trans h2.2.symm⟩
  · exact absurd he.symm (hf.unowned k (hfile hk) u)
  · exact absurd he (hf.unowned j (hfile hj) t)
  · exact hs.once j k t u (hfile hj) (hfile hk) ht he

/-- A word of the inode itself. -/
theorem inode_word (hi : IsFile f i) {d : ℕ} (hd : 12 ≤ d) (hd' : d + 4 ≤ 128) :
    SameInodes f (f.write (inodeAt i + d) (packed b)) ∧
      (∀ p, p + 4 ≤ inodeAt i + d ∨ inodeAt i + d + 4 ≤ p → (f.write (inodeAt i + d) (packed b)).word p = f.word p) ∧
      (∀ p < 132, (f.write (inodeAt i + d) (packed b)).byte p = f.byte p) ∧
      ∀ c, IsData f c → ∀ o, (f.write (inodeAt i + d) (packed b)).byte (4096 * c + o) = f.byte (4096 * c + o) := by
  have hlt := hi.lt
  have hout : ∀ p, p < inodeAt i + d ∨ inodeAt i + d + 4 ≤ p →
      (f.write (inodeAt i + d) (packed b)).byte p = f.byte p := fun p hp =>
    byte_packed hp
  have hword : ∀ p, p + 4 ≤ inodeAt i + d ∨ inodeAt i + d + 4 ≤ p →
      (f.write (inodeAt i + d) (packed b)).word p = f.word p := fun p hp =>
    word_packed hp
  refine ⟨⟨⟨size_write_le, hword _ (by rw [inodeAt_eq]; omega), ?_⟩, ?_⟩, hword, ?_, ?_⟩
  · intro j _
    apply half_congr
    intro o _
    exact hout _ (by rw [inodeAt_eq, inodeAt_eq]; omega)
  · intro j _
    exact hword _ (by rw [inodeAt_eq, inodeAt_eq]; omega)
  · intro p hp
    exact hout p (by rw [inodeAt_eq]; omega)
  intro c hc o
  unfold IsData at hc
  rw [inodeAt_eq] at hc
  exact hout _ (by rw [inodeAt_eq]; omega)

theorem ptr_entry_of_ne {j : Fin 1024} (h : ptr f i .indirect ≠ 0) :
    ptr f i (.entry j) = f.word (4096 * ptr f i .indirect + 4 * j) := if_neg h

theorem ptr_entry_of_eq {j : Fin 1024} (h : ptr f i .indirect = 0) : ptr f i (.entry j) = 0 := if_pos h

/-- The entries of an indirect block stay as they are with the block. -/
theorem ptr_entry_congr {j : ℕ} {e : Fin 1024} (hind : ptr g j .indirect = ptr f j .indirect)
    (hc : ptr f j .indirect ≠ 0 → g.word (4096 * ptr f j .indirect + 4 * e) = f.word (4096 * ptr f j .indirect + 4 * e)) :
    ptr g j (.entry e) = ptr f j (.entry e) := by
  by_cases h : ptr f j .indirect = 0
  · rw [ptr_entry_of_eq h, ptr_entry_of_eq (hind.trans h)]
  · rw [ptr_entry_of_ne h, ptr_entry_of_ne (hind ▸ h), hind, hc h]

section
variable (hs : Sound f L) (hi : IsFile f i) (hf : Fresh f L b)
include hs hi hf

theorem attach_direct (j : Fin 28) :
    Attached f (f.write (inodeAt i + 12 + 4 * j) (packed b)) i (.direct j) b := by
  obtain ⟨hinodes, hword, hsuper, hblocks⟩ := @inode_word f b i hi (12 + 4 * j) (by omega) (by omega)
  rw [← Nat.add_assoc] at hinodes hword hsuper hblocks
  refine ⟨hinodes, ?_, hsuper, fun c hc _ o _ => hblocks c hc o⟩
  intro k hk t
  have hind : ptr (f.write (inodeAt i + 12 + 4 * j) (packed b)) k .indirect = ptr f k .indirect :=
    hword _ (by rw [inodeAt_eq, inodeAt_eq]; omega)
  cases t with
  | direct l =>
    by_cases he : k = i ∧ l = j
    · rw [if_pos ⟨he.1, congrArg Slot.direct he.2⟩, he.1, he.2]
      exact word_write_packed hf.number
    · rw [if_neg fun h => he ⟨h.1, Slot.direct.inj h.2⟩]
      exact hword _ (by rw [inodeAt_eq, inodeAt_eq]; omega)
  | indirect => rw [if_neg (by simp), hind]
  | entry e =>
    rw [if_neg (by simp)]
    apply ptr_entry_congr hind
    intro h0
    exact word_congr_at (hblocks _ (hs.data k hk .indirect h0)) _

theorem attach_indirect (h0 : ptr f i .indirect = 0) :
    Attached f (f.write (inodeAt i + 124) (packed b)) i .indirect b := by
  obtain ⟨hinodes, hword, hsuper, hblocks⟩ := @inode_word f b i hi 124 (by omega) (by omega)
  refine ⟨hinodes, ?_, hsuper, fun c hc _ o _ => hblocks c hc o⟩
  intro k hk t
  have hnew : ptr (f.write (inodeAt i + 124) (packed b)) i .indirect = b := word_write_packed hf.number
  have hold : k ≠ i → ptr (f.write (inodeAt i + 124) (packed b)) k .indirect = ptr f k .indirect := fun hne =>
    hword _ (by rw [inodeAt_eq, inodeAt_eq]; omega)
  cases t with
  | direct l =>
    rw [if_neg (by simp)]
    exact hword _ (by rw [inodeAt_eq, inodeAt_eq]; omega)
  | indirect =>
    by_cases he : k = i
    · rw [if_pos ⟨he, rfl⟩, he, hnew]
    · rw [if_neg fun h => he h.1, hold he]
  | entry e =>
    rw [if_neg (by simp)]
    by_cases he : k = i
    · -- The new indirect block has only zeros.
      subst he
      rw [ptr_entry_of_eq h0, ptr_entry_of_ne (by rw [hnew]; exact hf.data.pos.ne'), hnew,
        word_congr_at (hblocks b hf.data)]
      apply word_eq_zero
      intro o _
      rw [Nat.add_assoc]
      exact hf.zero _ (by omega)
    · apply ptr_entry_congr (hold he)
      intro h0
      exact word_congr_at (hblocks _ (hs.data k hk .indirect h0)) _

theorem attach_entry (h0 : ptr f i .indirect ≠ 0)
    (j : Fin 1024) : Attached f (f.write (4096 * ptr f i .indirect + 4 * j) (packed b)) i (.entry j) b := by
  have hdata := hs.data i hi .indirect h0
  set c := ptr f i .indirect with hc
  have hkeeps : Keeps f (f.write (4096 * c + 4 * j) (packed b)) c := by
    refine ⟨size_write_le, ?_⟩
    intro p _ hp
    exact byte_packed (by omega)
  refine ⟨hkeeps.sameInodes hdata, ?_, ?_, ?_⟩
  · intro k hk t
    by_cases hki : k = i
    · subst hki
      have hind : ptr (f.write (4096 * c + 4 * j) (packed b)) k .indirect = c :=
        hkeeps.table hdata (by rw [inodeAt_eq]; omega) (by have := hk.lt; rw [inodeAt_eq, inodeAt_eq]; omega)
      cases t with
      | direct l =>
        rw [if_neg (by simp)]
        exact hkeeps.table hdata (by rw [inodeAt_eq]; omega) (by have := hk.lt; rw [inodeAt_eq, inodeAt_eq]; omega)
      | indirect => rw [if_neg (by simp), hind]
      | entry e =>
        rw [ptr_entry_of_ne (by rw [hind]; exact h0), hind, ptr_entry_of_ne h0, ← hc]
        by_cases he : e = j
        · rw [if_pos ⟨rfl, congrArg Slot.entry he⟩, he, word_write_packed hf.number]
        rw [if_neg fun h => he (Slot.entry.inj h.2)]
        exact word_packed (by omega)
    · rw [if_neg fun h => hki h.1]
      apply hkeeps.ptr_eq hs hdata hk
      intro he
      exact hki (hs.once i k .indirect .indirect hi hk h0 he.symm).1.symm
  · intro p hp
    exact byte_write_outside (by omega)
  · intro d _ hne o ho
    exact byte_packed (by omega)

end

/-! ### Bytes are written in a block of a file -/

theorem Sound.fill (h : Sound f L) (hi : IsFile f i) {k o : ℕ} (hk : k < 1052) {data : List UInt8}
    (hb : ptr f i (slot k) = b) (h0 : b ≠ 0) (hlen : o + data.length ≤ 4096) :
    (getBlock b).write o data f = .ok () (f.write (4096 * b + o) data) ∧
      Sound (f.write (4096 * b + o) data) L ∧ SameInodes f (f.write (4096 * b + o) data) ∧
      (∀ j, IsFile f j → ∀ s, ptr (f.write (4096 * b + o) data) j s = ptr f j s) ∧
      ∀ j, IsFile f j → ∀ p < 4308992, content (f.write (4096 * b + o) data) j p =
        if j = i ∧ 4096 * k + o ≤ p ∧ p < 4096 * k + o + data.length then data.getD (p - (4096 * k + o)) 0
        else content f j p := by
  have hslot : ptr f i (slot k) ≠ 0 := hb ▸ h0
  have hdata : IsData f b := hb ▸ h.data i hi _ hslot
  have hkeeps : Keeps f (f.write (4096 * b + o) data) b := by
    refine ⟨size_write_le, ?_⟩
    intro p _ hp
    exact byte_write_outside (by omega)
  have hinodes := hkeeps.sameInodes hdata
  have hind : ∀ j, IsFile f j → ptr f j .indirect ≠ b := by
    intro j hj he
    exact slot_ne_indirect k (h.once i j _ _ hi hj hslot (hb.trans he.symm)).2
  have hptr : ∀ j, IsFile f j → ∀ s, ptr (f.write (4096 * b + o) data) j s = ptr f j s := fun j hj =>
    hkeeps.ptr_eq h hdata hj (hind j hj)
  have hmem : b ∉ L := hb ▸ h.unfree i hi _
  refine ⟨?_, ?_, hinodes, hptr, ?_⟩
  · unfold Block.write
    rw [if_neg (by rw [S5_BLOCK_SIZE]; omega)]
    rfl
  · apply h.same hinodes.toSameTypes hptr _ h.nodup (List.Subset.refl L)
    apply h.free.keeps hkeeps.grown
    · intro p _ hp
      exact byte_write_outside (by omega)
    intro c hc _ o' ho'
    have hcb : c ≠ b := fun he => hmem (he ▸ hc)
    exact byte_write_outside (by omega)
  intro j hj p hp
  by_cases he : ptr f j (slot (p / 4096)) = b
  · obtain ⟨rfl, hkp⟩ := h.once i j _ _ hi hj hslot (hb.trans he.symm)
    have hkp := slot_inj hk (by omega) hkp
    unfold content
    rw [hptr i hi, he, if_neg h0]
    by_cases hin : 4096 * k + o ≤ p ∧ p < 4096 * k + o + data.length
    · rw [if_pos ⟨rfl, hin⟩, byte_write_inside (by omega) (by omega)]
      congr 1
      omega
    · rw [if_neg fun h => hin h.2, if_neg h0]
      exact byte_write_outside (by omega)
  · rw [hkeeps.content_eq h hj (hptr j hj) he, if_neg]
    rintro ⟨rfl, h1, h2⟩
    have hkp : p / 4096 = k := by omega
    exact he (hkp ▸ hb)

end Weenix.S5
