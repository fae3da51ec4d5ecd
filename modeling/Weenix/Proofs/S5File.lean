import Weenix.Proofs.S5Image

/-! Reading and writing files on a disk image against a file of bytes for each inode. -/

namespace Weenix.S5

open ByteFile Exec Function List

variable {f g : ByteFile} {L M : List ℕ} {b i k off v : ℕ} {data : List UInt8}

/-! ### The fields of an inode -/

theorem Sound.inode_inside (h : Sound f L) (hi : IsFile f i) : inodeAt i + 128 ≤ f.size := by
  have h1 := h.table
  have h2 := hi.lt
  rw [inodeAt_eq] at *
  omega

section Fields

variable (h : Sound f L) (hi : IsFile f i)
include h hi

theorem getInode_ok : getInode i f = .ok (inode i) f := by
  have hin := h.inode_inside hi
  rw [inodeAt_eq] at hin
  exact getInode_lt (by omega) hi.lt

theorem getType_ok : (inode i).getType f = .ok (typeOf f i) f := by
  have hin := h.inode_inside hi
  unfold Inode.getType
  rw [bind_ok _ (show simRead ((inode i).offset + 8) 2 f = .ok (f.read (inodeAt i + 8) 2) f from rfl), unpackHalf,
    unpackedHalf_read (by omega)]
  rfl

theorem getSize_ok : (inode i).getSize f = .ok (fileSize f i) f := by
  have hin := h.inode_inside hi
  exact getWord_ok (by change inodeAt i + 4 ≤ _; omega)

theorem getDirectBlockno_ok (j : Fin 28) : (inode i).getDirectBlockno j f = .ok (ptr f i (.direct j)) f := by
  have hin := h.inode_inside hi
  unfold Inode.getDirectBlockno
  rw [if_pos (by exact j.isLt), Nat.mul_comm]
  exact getWord_ok (by change inodeAt i + 12 + 4 * j.val + 4 ≤ _; omega)

theorem getIndirectBlockno_ok : (inode i).getIndirectBlockno f = .ok (ptr f i .indirect) f := by
  have hin := h.inode_inside hi
  exact getWord_ok (by change inodeAt i + 12 + 4 * 28 + 4 ≤ _; omega)

theorem entry_ok (h0 : ptr f i .indirect ≠ 0) (j : Fin 1024) :
    (getBlock (ptr f i .indirect)).getWord (j * 4) f = .ok (ptr f i (.entry j)) f := by
  have hin := h.inside i hi .indirect h0
  rw [ptr_entry_of_ne h0, Nat.mul_comm]
  exact blockGetWord_ok (by omega) (by omega)

end Fields

theorem setDirectBlockno_ok (j : Fin 28) (hb : b < 4294967296) :
    (inode i).setDirectBlockno j b f = .ok () (f.write (inodeAt i + 12 + 4 * j) (packed b)) := by
  unfold Inode.setDirectBlockno
  rw [if_pos (by exact j.isLt), Nat.mul_comm]
  exact setWord_ok hb

theorem setIndirectBlockno_ok (hb : b < 4294967296) :
    (inode i).setIndirectBlockno b f = .ok () (f.write (inodeAt i + 124) (packed b)) := setWord_ok hb

/-! ### The block of a position -/

theorem slot_direct (hk : k < 28) : slot k = .direct ⟨k, hk⟩ := dif_pos hk

theorem slot_entry (hk : ¬k < 28) (hlt : k < 1052) : slot k = .entry ⟨k - 28, by omega⟩ := by
  unfold slot
  rw [dif_neg hk]
  congr 2
  omega

theorem readBlockno_ok (h : Sound f L) (hi : IsFile f i) (hk : k < 1052) :
    (inode i).readBlockno k f = .ok (ptr f i (slot k)) f := by
  unfold Inode.readBlockno
  by_cases hd : k < 28
  · rw [if_pos (by exact hd), slot_direct hd]
    exact getDirectBlockno_ok h hi ⟨k, hd⟩
  rw [if_neg (by exact hd), bind_ok _ (getIndirectBlockno_ok h hi), slot_entry hd hk]
  by_cases h0 : ptr f i .indirect = 0
  · rw [if_pos h0, ptr_entry_of_eq h0]
    rfl
  · rw [if_neg h0]
    exact entry_ok h hi h0 ⟨k - 28, by omega⟩

/-- A slot that was empty is filled with a block of zeros. -/
theorem Attached.sameBytes {s : Slot} (h : Attached f g i s b) (hs : Sound f L) (hi : IsFile f i) (hf : Fresh f L b)
    (h0 : S5.ptr f i s = 0) : SameBytes f g :=
  ⟨h.toSameInodes, fun _ hj p => h.content_eq hs hi hf h0 hj p⟩

theorem Attached.ptr_self {s : Slot} (h : Attached f g i s b) (hi : IsFile f i) : S5.ptr g i s = b := by
  rw [h.ptr i hi, if_pos ⟨rfl, rfl⟩]

/-- Either a call takes `n` of the free blocks and returns in an image with the same files, or
there are too few of them. -/
def Served {α : Type} (x : Tool α) (f : ByteFile) (L : List ℕ) (n : ℕ) (P : α → ByteFile → Prop) : Prop :=
  (∃ a g M, x f = .ok a g ∧ Sound g M ∧ SameBytes f g ∧ M.length + n = L.length ∧ P a g) ∨
    (∃ g, x f = .error .diskSpace g) ∧ L.length < n

def lacksIndirect (f : ByteFile) (i k : ℕ) : ℕ := if 28 ≤ k ∧ ptr f i .indirect = 0 then 1 else 0

def lacksBlock (f : ByteFile) (i k : ℕ) : ℕ := if ptr f i (slot k) = 0 then 1 else 0

section
variable (h : Sound f L) (hi : IsFile f i) (hk : k < 1052)
include h hi hk

theorem writeBlockno_served : Served ((inode i).writeBlockno k) f L (lacksIndirect f i k) fun a g =>
    a = ptr g i (slot k) ∧ (¬k < 28 → ptr g i .indirect ≠ 0) ∧
      (∀ s ≠ .indirect, ptr g i s = ptr f i s) ∧ (k < 28 → ptr g i .indirect = ptr f i .indirect) := by
  unfold Served lacksIndirect Inode.writeBlockno
  by_cases hd : k < 28
  · rw [if_pos (by exact hd), if_neg (by omega)]
    exact .inl ⟨_, f, L, getDirectBlockno_ok h hi ⟨k, hd⟩, h, SameBytes.refl f, rfl, by rw [slot_direct hd],
      fun hn => absurd hd hn, fun _ _ => rfl, fun _ => rfl⟩
  rw [if_neg (by exact hd), bind_ok _ (getIndirectBlockno_ok h hi), slot_entry hd hk]
  by_cases h0 : ptr f i .indirect = 0
  · rw [if_pos h0, if_pos ⟨by omega, h0⟩]
    cases L with
    | nil =>
      rw [bind_error _ (alloc_empty h.free)]
      exact .inr ⟨⟨f, rfl⟩, Nat.one_pos⟩
    | cons b L =>
      obtain ⟨g1, g, halloc, hzero, hs, hf, hsame, hptr⟩ := h.claim
      have hi' := hsame.isFile.mpr hi
      have h0' : ptr g i .indirect = 0 := (hptr i hi _).trans h0
      have hatt := attach_indirect hs hi' hf h0'
      have hnew := hatt.ptr_self hi'
      have hrest : ∀ s ≠ .indirect, ptr _ i s = ptr f i s := fun s hne => by
        rw [hatt.ptr i hi', if_neg fun he => hne he.2, hptr i hi]
      refine .inl ⟨0, _, L, ?_, hatt.sound hs hi' hf, hsame.trans (hatt.sameBytes hs hi' hf h0'), rfl, ?_,
        fun _ => ?_, hrest, fun hn => absurd hn hd⟩
      · rw [bind_ok _ halloc, bind_ok _ hzero, blockno_getBlock, bind_ok _ (setIndirectBlockno_ok hf.number)]
        rfl
      · rw [hrest _ (by simp), ptr_entry_of_eq h0]
      · rw [hnew]
        exact hf.data.pos.ne'
  · rw [if_neg h0, if_neg fun hn => h0 hn.2]
    exact .inl ⟨_, f, L, entry_ok h hi h0 ⟨k - 28, by omega⟩, h, SameBytes.refl f, rfl, rfl, fun _ => h0,
      fun _ _ => rfl, fun _ => rfl⟩

theorem newBlock_served (hempty : ptr f i (slot k) = 0) (hind : ¬k < 28 → ptr f i .indirect ≠ 0) :
    Served ((inode i).newBlock k) f L 1 fun a g => a = getBlock (ptr g i (slot k)) ∧ ptr g i (slot k) ≠ 0 ∧
      ∀ s ≠ slot k, ptr g i s = ptr f i s := by
  unfold Served Inode.newBlock
  cases L with
  | nil =>
    rw [bind_error _ (alloc_empty h.free)]
    exact .inr ⟨⟨f, rfl⟩, Nat.one_pos⟩
  | cons b L =>
    left
    obtain ⟨g1, g, halloc, hzero, hs, hf, hsame, hptr⟩ := h.claim
    have hi' := hsame.isFile.mpr hi
    have h0' : ptr g i (slot k) = 0 := (hptr i hi _).trans hempty
    -- what follows from the new pointer, whichever word it is in
    have hdone : ∀ {g'}, Attached g g' i (slot k) b → Sound g' L ∧ SameBytes f g' ∧
        L.length + 1 = (b :: L).length ∧ getBlock b = getBlock (ptr g' i (slot k)) ∧
        ptr g' i (slot k) ≠ 0 ∧ ∀ s ≠ slot k, ptr g' i s = ptr f i s := by
      intro g' hatt
      have hnew := hatt.ptr_self hi'
      refine ⟨hatt.sound hs hi' hf, hsame.trans (hatt.sameBytes hs hi' hf h0'), rfl, by rw [hnew],
        by rw [hnew]; exact hf.data.pos.ne', fun s hne => ?_⟩
      rw [hatt.ptr i hi', if_neg fun he => hne he.2, hptr i hi]
    rw [bind_ok _ halloc, bind_ok _ hzero, blockno_getBlock]
    by_cases hd : k < 28
    · have hatt := attach_direct hs hi' hf ⟨k, hd⟩
      rw [← slot_direct hd] at hatt
      refine ⟨getBlock b, _, L, ?_, hdone hatt⟩
      rw [if_pos (by exact hd), bind_ok _ (setDirectBlockno_ok ⟨k, hd⟩ hf.number)]
      rfl
    have hind' : ptr g i .indirect ≠ 0 := (hptr i hi .indirect) ▸ hind hd
    have hatt := attach_entry hs hi' hf hind' ⟨k - 28, by omega⟩
    rw [← slot_entry hd hk] at hatt
    refine ⟨getBlock b, _, L, ?_, hdone hatt⟩
    rw [if_neg (by exact hd), bind_ok _ (getIndirectBlockno_ok hs hi'), Nat.mul_comm,
      bind_ok _ (blockSetWord_ok (by rw [S5_NDIRECT_BLOCKS]; omega) hf.number)]
    rfl

theorem writeBlock_served :
    Served ((inode i).writeBlock k) f L (lacksBlock f i k + lacksIndirect f i k) fun a g =>
      a = getBlock (ptr g i (slot k)) ∧ ptr g i (slot k) ≠ 0 ∧
      (∀ s ≠ slot k, s ≠ .indirect → ptr g i s = ptr f i s) ∧
      (ptr g i .indirect = 0 ↔ k < 28 ∧ ptr f i .indirect = 0) := by
  unfold Inode.writeBlock
  obtain ⟨a, g, M, hrun, hs, hsame, hlen, rfl, hind, hrest, hdirect⟩ | ⟨⟨g, hrun⟩, hfull⟩ :=
    writeBlockno_served h hi hk
  swap
  · exact .inr ⟨⟨g, bind_error _ hrun⟩, by omega⟩
  have hi' := hsame.isFile.mpr hi
  have hslot := hrest (slot k) (slot_ne_indirect k)
  have hiff : ptr g i .indirect = 0 ↔ k < 28 ∧ ptr f i .indirect = 0 := by
    by_cases hd : k < 28
    · simp [hd, hdirect hd]
    · simp [hd, hind hd]
  unfold Served
  by_cases h0 : ptr g i (slot k) = 0
  · rw [bind_ok _ hrun, if_pos h0, lacksBlock, if_pos (hslot ▸ h0)]
    obtain ⟨a, g', M', hrun', hs', hsame', hlen', ha, hne, hrest'⟩ | ⟨⟨g', hrun'⟩, hfull⟩ :=
      newBlock_served hs hi' hk h0 hind
    · refine .inl ⟨a, g', M', hrun', hs', hsame.trans hsame', by omega, ha, hne, fun s h1 h2 => ?_, ?_⟩
      · rw [hrest' s h1, hrest s h2]
      · rwa [hrest' .indirect (slot_ne_indirect k).symm]
    · exact .inr ⟨⟨g', hrun'⟩, by omega⟩
  · rw [lacksBlock, if_neg (hslot ▸ h0)]
    refine .inl ⟨getBlock (ptr g i (slot k)), g, M, ?_, hs, hsame, by omega, rfl, h0, fun s _ => hrest s, hiff⟩
    rw [bind_ok _ hrun, if_neg h0]
    rfl

end

/-! ### The blocks that a write takes -/

def blocksOf (off n : ℕ) : List ℕ :=
  if n = 0 then [] else range' (off / 4096) ((off + n - 1) / 4096 - off / 4096 + 1)

/-- The blocks that are to be allocated for these blocks of a file: those that are missing, and the
indirect block if it is. -/
def lacking (f : ByteFile) (i : ℕ) (l : List ℕ) : ℕ :=
  l.countP (fun k => ptr f i (slot k) = 0) + if ptr f i .indirect = 0 ∧ ∃ k ∈ l, 28 ≤ k then 1 else 0

theorem blocksOf_pos {r a : ℕ} (hr : r ≠ 0) (ha : a = min (4096 - off % 4096) r) :
    blocksOf off r = off / 4096 :: blocksOf (off + a) (r - a) := by
  rw [blocksOf, if_neg hr, range'_succ, blocksOf]
  split_ifs with hlast
  · rw [range'_eq_nil_iff.2 (by omega)]
  · congr 2
    · omega
    · omega

theorem blocksOf_lt {n : ℕ} (hoff : off + n ≤ 4308992) : ∀ k ∈ blocksOf off n, off / 4096 ≤ k ∧ k < 1052 := by
  intro k hmem
  unfold blocksOf at hmem
  split_ifs at hmem with h0
  · cases hmem
  · rw [mem_range'_1] at hmem
    omega

theorem lacks_le (f : ByteFile) (i k : ℕ) (l : List ℕ) :
    lacksBlock f i k + lacksIndirect f i k ≤ lacking f i (k :: l) := by
  have hind : lacksIndirect f i k ≤
      if ptr f i .indirect = 0 ∧ ∃ m ∈ k :: l, 28 ≤ m then 1 else 0 := by
    unfold lacksIndirect
    split_ifs with h1 h2
    · exact le_rfl
    · exact absurd ⟨h1.2, k, mem_cons_self, h1.1⟩ h2
    · exact Nat.zero_le _
    · exact le_rfl
  simp only [lacking, lacksBlock, countP_cons, decide_eq_true_eq] at hind ⊢
  omega

/-- The first block of a list is served, which leaves the rest of them as they were. -/
theorem lacking_cons {l : List ℕ} (hk : k < 1052) (hl : ∀ m ∈ l, k < m ∧ m < 1052)
    (hrest : ∀ s ≠ slot k, s ≠ .indirect → ptr g i s = ptr f i s)
    (hind : ptr g i .indirect = 0 ↔ k < 28 ∧ ptr f i .indirect = 0) :
    lacking f i (k :: l) = lacksBlock f i k + lacksIndirect f i k + lacking g i l := by
  have hcount : l.countP (fun m => ptr g i (slot m) = 0) = l.countP (fun m => ptr f i (slot m) = 0) := by
    refine countP_congr fun m hm => ?_
    have hne : slot m ≠ slot k := fun he => (hl m hm).1.ne' (slot_inj (hl m hm).2 hk he)
    rw [hrest _ hne (slot_ne_indirect m)]
  simp only [lacking, lacksBlock, lacksIndirect, hcount, hind, countP_cons, mem_cons, exists_eq_or_imp,
    decide_eq_true_eq]
  by_cases hd : 28 ≤ k
  · simp only [hd, true_or, and_true, true_and, Nat.not_lt.2 hd, false_and, if_false]
    omega
  · simp only [hd, false_or, false_and, if_false, Nat.not_le.1 hd, true_and]
    omega

/-! ### The loop of `write` -/

theorem chunk_getD {r a n : ℕ} (ha : n < a) (data : List UInt8) :
    ((data.drop r).take a).getD n 0 = data.getD (r + n) 0 := by
  rw [getD_eq_getElem?_getD, getD_eq_getElem?_getD, List.getElem?_take_of_lt ha, List.getElem?_drop]

/-- What the image holds with the last `r` bytes of `data` written from `off` on. -/
structure Written (f g : ByteFile) (i off r : ℕ) (data : List UInt8) : Prop extends SameInodes f g where
  content : ∀ j, IsFile f j → ∀ p < 4308992, S5.content g j p =
    if j = i ∧ off ≤ p ∧ p < off + r then data.getD (data.length - r + (p - off)) 0 else S5.content f j p

theorem writeLoop_zero (ino : Inode) : ino.writeLoop data off 0 f = .ok off f := by
  rw [Inode.writeLoop, if_pos rfl]
  rfl

theorem writeLoop_pos (ino : Inode) {r a : ℕ} (hr : r ≠ 0) (ha : a = min (4096 - off % 4096) r) :
    ino.writeLoop data off r = ino.writeBlock (off / 4096) >>= fun block =>
      block.write (off % 4096) ((data.drop (data.length - r)).take a) >>= fun _ =>
      ino.writeLoop data (off + a) (r - a) := by
  rw [Inode.writeLoop, if_neg hr, ha]
  rfl

theorem writeLoop_spec (r : ℕ) : ∀ {f L off}, Sound f L → IsFile f i → r ≤ data.length → off + r ≤ 4308992 →
    (∃ g M, (inode i).writeLoop data off r f = .ok (off + r) g ∧ Sound g M ∧ Written f g i off r data) ∨
      (∃ g, (inode i).writeLoop data off r f = .error .diskSpace g) ∧
        L.length < lacking f i (blocksOf off r) := by
  induction r using Nat.strong_induction_on with
  | _ r ih =>
    intro f L off h hi hr hoff
    by_cases hr0 : r = 0
    · subst hr0
      refine .inl ⟨f, L, writeLoop_zero _, h, (SameBytes.refl f).toSameInodes, ?_⟩
      intro j _ p _
      rw [if_neg (by omega)]
    obtain ⟨a, ha⟩ : ∃ a, a = min (4096 - off % 4096) r := ⟨_, rfl⟩
    rw [writeLoop_pos _ hr0 ha]
    obtain ⟨chunk, hchunk⟩ : ∃ chunk, chunk = (data.drop (data.length - r)).take a := ⟨_, rfl⟩
    have hlen : chunk.length = a := by
      rw [hchunk, length_take, length_drop]
      omega
    rw [← hchunk]
    have hbound : off + a + (r - a) ≤ 4308992 := by omega
    have hrest := blocksOf_lt hbound
    have hnext : ∀ m ∈ blocksOf (off + a) (r - a), off / 4096 < m ∧ m < 1052 := by
      intro m hm
      have hne : r - a ≠ 0 := fun he => by simp [blocksOf, he] at hm
      have := hrest m hm
      omega
    rw [blocksOf_pos hr0 ha]
    obtain ⟨blk, g, M, hblock, hs, hsame, hM, rfl, h0, hslots, hind⟩ | ⟨⟨g, hblock⟩, hfull⟩ :=
      @writeBlock_served f L i (off / 4096) h hi (by omega)
    · have hi' := hsame.isFile.mpr hi
      obtain ⟨hwrite, hs', hinodes, hptr, hcontent⟩ :=
        @Sound.fill g M _ i hs hi' (off / 4096) (off % 4096) (by omega) chunk rfl h0 (by omega)
      have hi'' := hinodes.isFile.mpr hi'
      rw [bind_ok _ hblock, bind_ok _ hwrite]
      have hlack := lacking_cons (f := f) (i := i) (by omega) hnext
        (fun s h1 h2 => (hptr i hi' s).trans (hslots s h1 h2)) ((hptr i hi' .indirect).symm ▸ hind)
      obtain ⟨g', M', hloop, hs'', hw⟩ | ⟨⟨g', hloop⟩, hfull⟩ := ih (r - a) (by omega) hs' hi'' (by omega)
        (show off + a + (r - a) ≤ 4308992 by omega)
      · refine .inl ⟨g', M', ?_, hs'', hsame.toSameInodes.trans (hinodes.trans hw.toSameInodes), ?_⟩
        · rw [hloop, show off + a + (r - a) = off + r by omega]
        intro j hj p hp
        have hj' := hsame.isFile.mpr hj
        rw [hw.content j (hinodes.isFile.mpr hj') p hp, hcontent j hj' p hp, hsame.content j hj p, hlen]
        -- The bytes of this round, those of the rounds that follow, and the others.
        by_cases hji : j = i
        · by_cases hlate : off + a ≤ p ∧ p < off + r
          · rw [if_pos ⟨hji, hlate.1, by omega⟩, if_pos ⟨hji, by omega, by omega⟩]
            congr 1
            omega
          rw [if_neg (by omega)]
          by_cases hnow : off ≤ p ∧ p < off + r
          · rw [if_pos ⟨hji, by omega, by omega⟩, if_pos ⟨hji, hnow⟩, hchunk, chunk_getD (by omega)]
            congr 1
            omega
          · rw [if_neg (by omega), if_neg (by omega)]
        · rw [if_neg fun h => hji h.1, if_neg fun h => hji h.1, if_neg fun h => hji h.1]
      · exact .inr ⟨⟨g', hloop⟩, by omega⟩
    · rw [bind_error _ hblock]
      exact .inr ⟨⟨g, rfl⟩, hfull.trans_le (lacks_le _ _ _ _)⟩

/-! ### The loop of `read` -/

theorem readLoop_zero (ino : Inode) (res : List UInt8) : ino.readLoop off 0 res f = .ok res f := by
  rw [Inode.readLoop, if_pos rfl]
  rfl

theorem readLoop_pos (ino : Inode) {n a : ℕ} (hn : n ≠ 0) (ha : a = min (4096 - off % 4096) n) (res : List UInt8) :
    ino.readLoop off n res = ino.readBlockno (off / 4096) >>= fun blockno =>
      Inode.readBlock blockno (off % 4096) a >>= fun data =>
      ino.readLoop (off + a) (n - a) (res ++ data) := by
  rw [Inode.readLoop, if_neg hn, ha]
  rfl

/-- The bytes of a file from one block. -/
theorem readBlock_ok (h : Sound f L) (hi : IsFile f i) {a : ℕ} (ha : off % 4096 + a ≤ 4096) :
    Inode.readBlock (ptr f i (slot (off / 4096))) (off % 4096) a f =
      .ok ((List.range a).map fun o => content f i (off + o)) f := by
  have hblock : ∀ o < a, (off + o) / 4096 = off / 4096 ∧ (off + o) % 4096 = off % 4096 + o := fun o ho =>
    ⟨by omega, by omega⟩
  unfold Inode.readBlock
  split_ifs with h0
  · have hzero : (List.range a).map (fun o => content f i (off + o)) = List.replicate a (0 : UInt8) := by
      apply eq_replicate_iff.mpr ⟨by simp, ?_⟩
      intro c hc
      obtain ⟨o, ho, rfl⟩ := mem_map.mp hc
      unfold content
      rw [(hblock o (mem_range.mp ho)).1, if_pos h0]
    rw [hzero]
    rfl
  have hin := h.inside i hi _ h0
  unfold Block.read
  rw [if_neg (by rw [S5_BLOCK_SIZE]; omega)]
  change EStateM.Result.ok (f.read (4096 * _ + off % 4096) a) f = _
  rw [read_eq (by omega)]
  congr 1
  apply map_congr_left
  intro o ho
  obtain ⟨hk, hm⟩ := hblock o (mem_range.mp ho)
  unfold content
  rw [hk, hm, if_neg h0, Nat.add_assoc]

theorem readLoop_ok (h : Sound f L) (hi : IsFile f i) (n : ℕ) : ∀ {off} (res : List UInt8),
    (n ≠ 0 → off + n ≤ 4308992) →
    (inode i).readLoop off n res f = .ok (res ++ (List.range n).map fun o => content f i (off + o)) f := by
  induction n using Nat.strong_induction_on with
  | _ n ih =>
    intro off res hoff
    by_cases hn : n = 0
    · subst hn
      rw [readLoop_zero, range_zero, map_nil, append_nil]
    obtain ⟨a, ha⟩ : ∃ a, a = min (4096 - off % 4096) n := ⟨_, rfl⟩
    rw [readLoop_pos _ hn ha, bind_ok _ (readBlockno_ok h hi (by omega)), bind_ok _ (readBlock_ok h hi (by omega)),
      ih (n - a) (by omega) _ (by omega), append_assoc]
    have hrange : List.range n = List.range a ++ (List.range (n - a)).map fun o => a + o := by
      rw [← range_add, Nat.add_sub_cancel' (by omega)]
    rw [hrange, map_append, map_map]
    congr 3
    apply map_congr_left
    intro o _
    exact congrArg (content f i) (Nat.add_assoc off a o)

/-! ### The size -/

theorem setSize_spec (h : Sound f L) (hi : IsFile f i) (hv : v < 4294967296) :
    Sound (f.write (inodeAt i) (packed v)) L ∧ SameTypes f (f.write (inodeAt i) (packed v)) ∧
      (∀ j, fileSize (f.write (inodeAt i) (packed v)) j = if j = i then v else fileSize f j) ∧
      ∀ j, IsFile f j → ∀ p, content (f.write (inodeAt i) (packed v)) j p = content f j p := by
  have hlt := hi.lt
  set g := f.write (inodeAt i) (packed v) with hg
  have hout : ∀ p, p < inodeAt i ∨ inodeAt i + 4 ≤ p → g.byte p = f.byte p := fun p hp =>
    byte_packed hp
  have hword : ∀ p, p + 4 ≤ inodeAt i ∨ inodeAt i + 4 ≤ p → g.word p = f.word p := fun p hp =>
    word_packed hp
  have hblocks : ∀ c, IsData f c → ∀ o, g.byte (4096 * c + o) = f.byte (4096 * c + o) := by
    intro c hc o
    unfold IsData at hc
    rw [inodeAt_eq] at hc
    exact hout _ (by rw [inodeAt_eq]; omega)
  have htypes : SameTypes f g := by
    refine ⟨size_write_le, hword _ (by rw [inodeAt_eq]; omega), ?_⟩
    intro j _
    apply half_congr
    intro o _
    exact hout _ (by rw [inodeAt_eq, inodeAt_eq]; omega)
  have hptr : ∀ j, IsFile f j → ∀ s, ptr g j s = ptr f j s := by
    intro j hj s
    cases s with
    | direct e | indirect => exact hword _ (by rw [inodeAt_eq, inodeAt_eq]; omega)
    | entry e =>
      apply ptr_entry_congr
      · exact hword _ (by rw [inodeAt_eq, inodeAt_eq]; omega)
      intro h0
      exact word_congr_at (hblocks _ (h.data j hj .indirect h0)) _
  refine ⟨?_, htypes, ?_, ?_⟩
  · apply h.same htypes hptr _ h.nodup (List.Subset.refl L)
    apply h.free.keeps htypes.grown
    · intro p _ hp
      exact hout p (by rw [inodeAt_eq]; omega)
    · intro c hc _ o _
      exact hblocks c (h.freeData c hc) o
  · intro j
    by_cases hj : j = i
    · rw [if_pos hj, hj]
      exact word_write_packed hv
    · rw [if_neg hj]
      exact hword _ (by rw [inodeAt_eq, inodeAt_eq]; omega)
  intro j hj p
  unfold content
  rw [hptr j hj]
  split_ifs with h0
  · rfl
  · exact hblocks _ (h.data j hj _ h0) _

theorem IsFile.accepted (hi : IsFile f i) : ¬(typeOf f i ≠ S5_TYPE_DATA ∧ typeOf f i ≠ S5_TYPE_DIR) := fun h =>
  hi.type.elim h.1 h.2

theorem write_spec (h : Sound f L) (hi : IsFile f i) (hoff : off + data.length ≤ 4308992) :
    (∃ g M, (inode i).write off data f = .ok () g ∧ Sound g M ∧ SameTypes f g ∧
      (∀ j < f.word 136, fileSize g j = if j = i then max (fileSize f i) (off + data.length) else fileSize f j) ∧
      ∀ j, IsFile f j → ∀ p < 4308992, content g j p =
        if j = i ∧ off ≤ p ∧ p < off + data.length then data.getD (p - off) 0 else content f j p) ∨
      (∃ g, (inode i).write off data f = .error .diskSpace g) ∧
        L.length < lacking f i (blocksOf off data.length) := by
  unfold Inode.write
  rw [bind_ok _ (getType_ok h hi), if_neg hi.accepted, if_neg (by change ¬off + data.length > 4308992; omega)]
  obtain ⟨g, M, hloop, hs, hw⟩ | ⟨⟨g, hloop⟩, hfull⟩ := @writeLoop_spec i data data.length f L off h hi (le_refl _) hoff
  · left
    have hi' := hw.isFile.mpr hi
    have hcontent : ∀ j, IsFile f j → ∀ p < 4308992, content g j p =
        if j = i ∧ off ≤ p ∧ p < off + data.length then data.getD (p - off) 0 else content f j p := by
      intro j hj p hp
      rw [hw.content j hj p hp, Nat.sub_self, Nat.zero_add]
    have hsize := hw.size i hi.lt
    rw [bind_ok _ hloop, bind_ok _ (getSize_ok hs hi')]
    by_cases hgrow : off + data.length > fileSize g i
    · obtain ⟨hs', htypes, hsizes, hsame⟩ := @setSize_spec g M i (off + data.length) hs hi' (by omega)
      refine ⟨_, M, ?_, hs', hw.toSameTypes.trans htypes, ?_, ?_⟩
      · rw [if_pos hgrow]
        exact setWord_ok (by omega)
      · intro j hj
        rw [hsizes j, hw.size j hj]
        split_ifs
        · omega
        · rfl
      · intro j hj p hp
        rw [hsame j (hw.isFile.mpr hj) p, hcontent j hj p hp]
    · refine ⟨g, M, ?_, hs, hw.toSameTypes, ?_, hcontent⟩
      · rw [if_neg hgrow]
        rfl
      intro j hj
      rw [hw.size j hj]
      split_ifs with hji
      · rw [hji]
        omega
      · rfl
  · rw [bind_error _ hloop]
    exact .inr ⟨⟨g, rfl⟩, hfull⟩

/-! ### A file of bytes for each inode -/

/-- No block is owned twice or free and owned, and what is stored behind the end of a file is
zero. -/
structure WellFormed (f : ByteFile) : Prop where
  sound : ∃ L, Sound f L
  fits : ∀ i, IsFile f i → fileSize f i ≤ S5_MAX_FILE_SIZE
  ended : ∀ i, IsFile f i → ∀ p, fileSize f i ≤ p → p < S5_MAX_FILE_SIZE → content f i p = 0

def fileOf (f : ByteFile) (i : ℕ) : ByteFile where
  size := fileSize f i
  byte p := if p < fileSize f i then content f i p else 0
  ended _ hp := if_neg (Nat.not_lt.mpr hp)

/-- A write in a file of bytes: the size is at least the end of what is written. -/
def store (r : ByteFile) (off : ℕ) (data : List UInt8) : ByteFile where
  size := max r.size (off + data.length)
  byte p := if off ≤ p ∧ p < off + data.length then data.getD (p - off) 0 else r.byte p
  ended p hp := by
    rw [if_neg (by omega)]
    exact r.ended p (by omega)

theorem read_file (h : WellFormed f) (hi : IsFile f i) (size : Option ℕ) :
    (inode i).read off size f = .ok ((fileOf f i).read off (size.getD (fileOf f i).size)) f := by
  obtain ⟨L, hs⟩ := h.sound
  have hfits : fileSize f i ≤ 4308992 := h.fits i hi
  have hmax : min S5_MAX_FILE_SIZE (fileSize f i) = fileSize f i := min_eq_right hfits
  unfold Inode.read
  rw [bind_ok _ (getSize_ok hs hi), bind_ok _ (getType_ok hs hi), if_neg hi.accepted, hmax,
    readLoop_ok hs hi _ _ (by omega), nil_append]
  congr 1
  apply map_congr_left
  intro o ho
  have hlt := mem_range.mp ho
  exact (if_pos (by omega)).symm

theorem write_file (h : WellFormed f) (hi : IsFile f i) (hoff : off + data.length ≤ S5_MAX_FILE_SIZE) :
    (∃ g, (inode i).write off data f = .ok () g ∧ WellFormed g ∧ (∀ j, IsFile g j ↔ IsFile f j) ∧
      ∀ j, IsFile f j → fileOf g j = if j = i then store (fileOf f i) off data else fileOf f j) ∨
      (∃ g, (inode i).write off data f = .error .diskSpace g) ∧
        ∀ L, Sound f L → L.length < lacking f i (blocksOf off data.length) := by
  obtain ⟨L, hs⟩ := h.sound
  have hmax : S5_MAX_FILE_SIZE = 4308992 := rfl
  obtain ⟨g, M, hwrite, hs', htypes, hsize, hcontent⟩ | ⟨⟨g, hfull⟩, -⟩ := write_spec hs hi hoff
  · left
    refine ⟨g, hwrite, ⟨⟨M, hs'⟩, ?_, ?_⟩, fun j => htypes.isFile, ?_⟩
    · intro j hj
      have hj' := htypes.isFile.mp hj
      have hfits := h.fits j hj'
      have hfits' := h.fits i hi
      rw [hsize j hj'.lt]
      split_ifs <;> omega
    · intro j hj p hp hlt
      have hj' := htypes.isFile.mp hj
      rw [hsize j hj'.lt] at hp
      rw [hcontent j hj' p hlt]
      split_ifs at hp with hji
      · rw [if_neg (by omega)]
        exact h.ended j hj' p (by rw [hji]; omega) hlt
      · rw [if_neg fun he => hji he.1]
        exact h.ended j hj' p hp hlt
    intro j hj
    have hfits := h.fits i hi
    have hsizej := hsize j hj.lt
    apply ByteFile.ext
    · rw [apply_ite ByteFile.size]
      exact hsizej
    intro p
    change (if p < fileSize g j then content g j p else 0) = _
    rw [hsizej]
    by_cases hji : j = i
    · subst hji
      rw [if_pos rfl, if_pos rfl]
      change _ = if off ≤ p ∧ p < off + data.length then data.getD (p - off) 0
        else if p < fileSize f j then content f j p else 0
      by_cases hp : p < max (fileSize f j) (off + data.length)
      · rw [if_pos hp, hcontent j hj p (by omega)]
        by_cases hin : off ≤ p ∧ p < off + data.length
        · rw [if_pos ⟨rfl, hin⟩, if_pos hin]
        rw [if_neg fun he => hin he.2, if_neg hin]
        by_cases hold : p < fileSize f j
        · rw [if_pos hold]
        rw [if_neg hold]
        exact h.ended j hj p (Nat.not_lt.mp hold) (by omega)
      · rw [if_neg hp, if_neg (by omega), if_neg (by omega)]
    · rw [if_neg hji, if_neg hji]
      have hfitsj := h.fits j hj
      change _ = if p < fileSize f j then content f j p else 0
      by_cases hp : p < fileSize f j
      · rw [if_pos hp, if_pos hp, hcontent j hj p (by omega), if_neg fun he => hji he.1]
      · rw [if_neg hp, if_neg hp]
  · refine .inr ⟨⟨g, hfull⟩, fun M hs' => ?_⟩
    obtain ⟨g', M', hwrite, -⟩ | ⟨-, hlt⟩ := write_spec hs' hi hoff
    · rw [hfull] at hwrite
      cases hwrite
    · exact hlt

/-! ### Every sequence of calls -/

inductive FileOp
  | read (i off : ℕ) (size : Option ℕ)
  | write (i off : ℕ) (data : List UInt8)

namespace FileOp

def index : FileOp → ℕ
  | read i _ _ => i
  | write i _ _ => i

def call : FileOp → Tool (List UInt8)
  | read i off size => do
    let ino ← getInode i
    ino.read off size
  | write i off data => do
    let ino ← getInode i
    ino.write off data
    return []

/-- What the call does to the files of bytes. -/
def store : FileOp → (ℕ → ByteFile) → ℕ → ByteFile
  | read _ _ _, R => R
  | write i off data, R => update R i (S5.store (R i) off data)

/-- A call changes one file and looks at no other. -/
theorem store_congr {R R' : ℕ → ByteFile} {j : ℕ} (op : FileOp) (h : R j = R' j) : op.store R j = op.store R' j := by
  cases op with
  | read i off size => exact h
  | write i off data =>
    change update R i (S5.store (R i) off data) j = update R' i (S5.store (R' i) off data) j
    rw [update_apply, update_apply]
    split_ifs with hj
    · rw [← hj, h]
    · exact h

end FileOp

def FileStep (f : ByteFile) (op : FileOp) (g : ByteFile) : Prop :=
  IsFile f op.index ∧ ∃ res, op.call f = .ok res g

theorem read_call (h : WellFormed f) (hi : IsFile f i) (off : ℕ) (size : Option ℕ) :
    (FileOp.read i off size).call f = .ok ((fileOf f i).read off (size.getD (fileOf f i).size)) f := by
  obtain ⟨L, hs⟩ := h.sound
  exact (bind_ok _ (getInode_ok hs hi)).trans (read_file h hi size)

theorem write_call (h : WellFormed f) (hi : IsFile f i) (off : ℕ) (data : List UInt8) :
    (FileOp.write i off data).call f = ((inode i).write off data >>= fun _ => return []) f := by
  obtain ⟨L, hs⟩ := h.sound
  exact bind_ok _ (getInode_ok hs hi)

/-- A write that returns is within the largest file size. -/
theorem write_fits (h : WellFormed f) (hi : IsFile f i) (hw : (inode i).write off data f = .ok () g) :
    off + data.length ≤ S5_MAX_FILE_SIZE := by
  obtain ⟨L, hs⟩ := h.sound
  by_contra hlt
  unfold Inode.write at hw
  rw [bind_ok _ (getType_ok hs hi), if_neg hi.accepted, if_pos (by omega)] at hw
  cases hw

theorem file_step {op : FileOp} (h : WellFormed f) (hs : FileStep f op g) :
    WellFormed g ∧ (∀ j, IsFile g j ↔ IsFile f j) ∧ ∀ j, IsFile f j → fileOf g j = op.store (fileOf f) j := by
  obtain ⟨hi, res, hcall⟩ := hs
  cases op with
  | read i off size =>
    change IsFile f i at hi
    rw [read_call h hi] at hcall
    obtain rfl := (EStateM.Result.ok.inj hcall).2
    exact ⟨h, fun _ => Iff.rfl, fun _ _ => rfl⟩
  | write i off data =>
    change IsFile f i at hi
    rw [write_call h hi] at hcall
    cases hw : (inode i).write off data f with
    | error e g' =>
      rw [bind_error _ hw] at hcall
      cases hcall
    | ok u g' =>
      rw [bind_ok _ hw] at hcall
      obtain rfl : g' = g := (EStateM.Result.ok.inj hcall).2
      obtain ⟨g'', hw', hwf, hfiles, hstore⟩ | ⟨⟨g'', hw'⟩, -⟩ := write_file h hi (write_fits h hi hw)
      · obtain rfl := (EStateM.Result.ok.inj (hw.symm.trans hw')).2
        refine ⟨hwf, hfiles, ?_⟩
        intro j hj
        rw [hstore j hj, FileOp.store, update_apply]
      · rw [hw] at hw'
        cases hw'

/-- Reads see a file of bytes for each inode, and a write within the largest file size fails only
if fewer blocks are free than it has to allocate. -/
theorem files_are_bytes (h : WellFormed f) {ops : List FileOp} (hrun : Runs.Run FileStep f ops g) :
    (∀ i, IsFile f i → ∀ off size, (FileOp.read i off size).call g =
      .ok ((ops.foldl (fun R op => op.store R) (fileOf f) i).read off
        (size.getD (ops.foldl (fun R op => op.store R) (fileOf f) i).size)) g) ∧
      ∀ i, IsFile f i → ∀ off data, off + data.length ≤ S5_MAX_FILE_SIZE →
        (∃ g', (FileOp.write i off data).call g = .ok [] g') ∨
          (∃ g', (FileOp.write i off data).call g = .error .diskSpace g') ∧
            ∀ L, Sound g L → L.length < lacking g i (blocksOf off data.length) := by
  have key : WellFormed g ∧ (∀ j, IsFile g j ↔ IsFile f j) ∧
      ∀ j, IsFile f j → fileOf g j = ops.foldl (fun R op => op.store R) (fileOf f) j := by
    induction hrun with
    | nil => exact ⟨h, fun _ => Iff.rfl, fun _ _ => rfl⟩
    | @snoc ops g g' op _ hstep ih =>
      obtain ⟨hwf, hfiles, hstore⟩ := ih
      obtain ⟨hwf', hfiles', hstore'⟩ := file_step hwf hstep
      refine ⟨hwf', fun j => (hfiles' j).trans (hfiles j), ?_⟩
      intro j hj
      rw [foldl_append, hstore' j ((hfiles j).mpr hj)]
      exact op.store_congr (hstore j hj)
  obtain ⟨hwf, hfiles, hstore⟩ := key
  constructor
  · intro i hi off size
    rw [read_call hwf ((hfiles i).mpr hi), hstore i hi]
  intro i hi off data hlen
  have hi' := (hfiles i).mpr hi
  rw [write_call hwf hi']
  obtain ⟨g', hw, -⟩ | ⟨⟨g', hw⟩, hfull⟩ := write_file hwf hi' hlen
  · exact .inl ⟨g', bind_ok _ hw⟩
  · exact .inr ⟨⟨g', bind_error _ hw⟩, hfull⟩

/-- An image of three blocks with an empty file and one free block. -/
def emptyFile : ByteFile where
  size := 12288
  byte p := if p = 8 ∨ p = 136 ∨ p = 4104 then 1 else if p = 12 then 2 else if 128 ≤ p ∧ p < 132 then 255 else 0
  ended p hp := by
    rw [if_neg (by omega), if_neg (by omega), if_neg (by omega)]

theorem emptyFile_word {p : ℕ} (hp : 4108 ≤ p) : emptyFile.word p = 0 := by
  apply word_eq_zero
  intro o _
  change (if p + o = 8 ∨ p + o = 136 ∨ p + o = 4104 then (1 : UInt8) else if p + o = 12 then 2
    else if 128 ≤ p + o ∧ p + o < 132 then 255 else 0) = 0
  rw [if_neg (by omega), if_neg (by omega), if_neg (by omega)]

theorem emptyFile_ptr (s : Slot) : ptr emptyFile 0 s = 0 := by
  cases s with
  | direct j | indirect => exact emptyFile_word (by rw [inodeAt_eq]; omega)
  | entry j => exact ptr_entry_of_eq (emptyFile_word (by rw [inodeAt_eq]; omega))

theorem emptyFile_isFile : IsFile emptyFile i ↔ i = 0 := by
  constructor
  · intro h
    have hlt : i < 1 := h.lt
    omega
  · rintro rfl
    exact ⟨by decide, .inl rfl⟩

theorem emptyFile_sound : Sound emptyFile [2] := by
  refine ⟨by decide, ⟨by decide, by decide, [], .nil, rfl⟩, by decide, ?_, ?_, ?_, ?_, ?_⟩
  · intro b hb
    rw [mem_singleton.mp hb]
    unfold IsData
    decide
  all_goals
    intro i
  · intro hi s h0
    rw [emptyFile_isFile.mp hi] at h0
    exact absurd (emptyFile_ptr s) h0
  · intro hi s h0
    rw [emptyFile_isFile.mp hi] at h0
    exact absurd (emptyFile_ptr s) h0
  · intro hi s
    rw [emptyFile_isFile.mp hi, emptyFile_ptr]
    decide
  intro j s t hi _ h0
  rw [emptyFile_isFile.mp hi] at h0
  exact absurd (emptyFile_ptr s) h0

theorem emptyFile_wellFormed : WellFormed emptyFile where
  sound := ⟨[2], emptyFile_sound⟩
  fits i hi := by
    rw [emptyFile_isFile.mp hi]
    decide
  ended i hi p _ _ := by
    rw [emptyFile_isFile.mp hi]
    exact if_pos (emptyFile_ptr _)

/-- Two bytes are written behind a gap and read back with it. -/
theorem files_are_bytes_gap : ∃ g, Runs.Run FileStep emptyFile [.write 0 2 [7, 8]] g ∧
    (FileOp.read 0 0 none).call g = .ok [0, 0, 7, 8] g ∧ (FileOp.read 0 3 (some 9)).call g = .ok [8] g := by
  have hi : IsFile emptyFile 0 := emptyFile_isFile.mpr rfl
  obtain ⟨g, hwrite⟩ | ⟨-, hfull⟩ :=
    (files_are_bytes emptyFile_wellFormed .nil).2 0 hi 2 [7, 8] (by decide)
  · have hrun : Runs.Run FileStep emptyFile [.write 0 2 [7, 8]] g := .snoc .nil ⟨hi, [], hwrite⟩
    have hread := (files_are_bytes emptyFile_wellFormed hrun).1 0 hi
    exact ⟨g, hrun, (hread 0 none).trans (congrArg (EStateM.Result.ok · g) (by decide)),
      (hread 3 (some 9)).trans (congrArg (EStateM.Result.ok · g) (by decide))⟩
  · exact absurd (hfull [2] emptyFile_sound) (by decide)

end Weenix.S5
