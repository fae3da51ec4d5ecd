import Weenix.Proofs.S5Image
import Weenix.Spec.S5Tool

/-! What `format` puts on the free lists: all inodes, and the blocks from the last one of the inode table
on, which is one too many. -/

namespace Weenix.S5

open ByteFile Exec List

variable {f g : ByteFile} {L M : List ℕ} {b i n pos v off : ℕ}

/-! ### Free inodes -/

/-- The inodes on the free list from a link on. -/
inductive InodeChain (f : ByteFile) : ℕ → List ℕ → Prop
  | nil : InodeChain f S5_NULL []
  | node {i : ℕ} {M : List ℕ} (hi : i < f.word 136) (hstored : inodeAt i + 4 ≤ f.size)
      (hM : InodeChain f (f.word (inodeAt i)) M) : InodeChain f i (i :: M)

/-- The block that `get_inode` places an inode in. -/
def inodeBlock (i : ℕ) : ℕ := inodeAt i / S5_BLOCK_SIZE

/-- The first `k` inodes are linked one to the next. -/
structure Linked (f g : ByteFile) (k : ℕ) : Prop where
  grown : f.size ≤ g.size
  super : ∀ p < 4096, g.byte p = f.byte p
  next : ∀ j < k, g.word (inodeAt j) = j + 1
  stored : ∀ j < k, inodeAt j + 4 ≤ g.size

theorem setType_ok (hv : v < 65536) : (inode i).setType v f = .ok () (f.write (inodeAt i + 8) (packedHalf v)) := by
  unfold Inode.setType packHalf
  rw [if_pos hv]
  rfl

theorem setNumber_ok (hv : v < 4294967296) : (inode i).setNumber v f = .ok () (f.write (inodeAt i + 4) (packed v)) :=
  setWord_ok hv

theorem setNextFree_ok (hv : v < 4294967296) : (inode i).setNextFree v f = .ok () (f.write (inodeAt i) (packed v)) :=
  setWord_ok hv

theorem Linked.snoc {k : ℕ} (h : Linked f g k) (hk : k + 1 < 4294967296) : Linked f
    (((g.write (inodeAt k + 4) (packed k)).write (inodeAt k + 8) (packedHalf S5_TYPE_FREE)).write (inodeAt k)
      (packed (k + 1))) (k + 1) := by
  set g1 := (g.write (inodeAt k + 4) (packed k)).write (inodeAt k + 8) (packedHalf S5_TYPE_FREE) with hg1
  have hgrown : g.size ≤ g1.size := size_write_le.trans size_write_le
  have hbyte : ∀ p < inodeAt k, g1.byte p = g.byte p := by
    intro p hp
    rw [hg1, byte_write_outside (by omega), byte_write_outside (by omega)]
  have hsize : (g1.write (inodeAt k) (packed (k + 1))).size = max g1.size (inodeAt k + 4) := size_write (by simp [packed])
  refine ⟨h.grown.trans (hgrown.trans size_write_le), ?_, ?_, ?_⟩
  · intro p hp
    rw [byte_write_outside (by rw [inodeAt_eq]; omega), hbyte p (by rw [inodeAt_eq]; omega), h.super p hp]
  · intro j hj
    rcases Nat.lt_succ_iff_lt_or_eq.1 hj with hlt | rfl
    · rw [word_write_outside (by rw [inodeAt_eq, inodeAt_eq]; omega), ← h.next j hlt]
      refine word_congr fun o ho => hbyte _ ?_
      rw [inodeAt_eq, inodeAt_eq]
      omega
    · exact word_write_packed hk
  · intro j hj
    rcases Nat.lt_succ_iff_lt_or_eq.1 hj with hlt | rfl
    · have := h.stored j hlt
      omega
    · omega

theorem formatInodes_ok (hs : 140 ≤ f.size) (hn : 0 < n) (hnum : f.word 136 = n) (hlt : n < 4294967296) :
    ∃ g, formatInodes n f = .ok (inode (n - 1)) g ∧ Linked f g n := by
  have hstep : ∀ k < n, ∀ (a : Inode) (g : ByteFile), (Linked f g k ∧ (0 < k → a = inode (k - 1))) →
      ∃ a' g', (do
        let inode ← getInode k
        inode.setNumber k
        inode.setType S5_TYPE_FREE
        inode.setNextFree (k + 1)
        return inode : Tool Inode) g = .ok a' g' ∧ Linked f g' (k + 1) ∧ (0 < k + 1 → a' = inode k) := by
    rintro k hk a g ⟨h, -⟩
    have hgrown := h.grown
    have hword : g.word 136 = n := (word_congr fun o ho => h.super _ (by omega)).trans hnum
    refine ⟨inode k, _, ?_, h.snoc (by omega), fun _ => rfl⟩
    rw [bind_ok _ (getInode_lt (by omega) (by omega)), bind_ok _ (setNumber_ok (by omega)),
      bind_ok _ (setType_ok (by decide)), bind_ok _ (setNextFree_ok (by omega))]
    rfl
  have hstart : Linked f f 0 :=
    ⟨le_rfl, fun _ _ => rfl, fun j hj => absurd hj (Nat.not_lt_zero j), fun j hj => absurd hj (Nat.not_lt_zero j)⟩
  obtain ⟨a, g, hg, hlinked, ha⟩ := foldlM_range (a := ⟨0, 0⟩)
    (fun k a g => Linked f g k ∧ (0 < k → a = inode (k - 1))) hstep ⟨hstart, fun h => absurd h (Nat.lt_irrefl 0)⟩
  obtain rfl := ha hn
  exact ⟨g, hg, hlinked⟩

/-- The last inode is linked to none. -/
theorem InodeChain.of_next (hn : n ≤ f.word 136) (hstored : ∀ j < n, inodeAt j + 4 ≤ f.size)
    (hnext : ∀ j, j + 1 < n → f.word (inodeAt j) = j + 1) (hlast : f.word (inodeAt (n - 1)) = S5_NULL) :
    ∀ m i, i + (m + 1) = n → InodeChain f i (List.range' i (m + 1)) := by
  intro m
  induction m with
  | zero =>
    intro i hi
    obtain rfl : i = n - 1 := by omega
    refine .node (by omega) (hstored _ (by omega)) ?_
    rw [hlast]
    exact .nil
  | succ m ih =>
    intro i hi
    refine .node (by omega) (hstored _ (by omega)) ?_
    rw [hnext i (by omega)]
    exact ih (i + 1) (by omega)

theorem InodeChain.first (h : InodeChain f v (i :: M)) : i < f.word 136 ∧ inodeAt i + 4 ≤ f.size := by
  cases h with
  | node hi hstored _ => exact ⟨hi, hstored⟩

theorem InodeChain.frame {v : ℕ} (h : InodeChain f v M) (hsize : f.size ≤ g.size) (hnum : g.word 136 = f.word 136)
    (hbyte : ∀ p, 4096 ≤ p → p < inodeAt (f.word 136) → g.byte p = f.byte p) : InodeChain g v M := by
  induction h with
  | nil => exact .nil
  | @node i M hi hstored _ ih =>
    refine .node (by omega) (by omega) ?_
    have hword : g.word (inodeAt i) = f.word (inodeAt i) := by
      refine word_congr fun o ho => hbyte _ ?_ ?_
      · rw [inodeAt_eq]
        omega
      · rw [inodeAt_eq, inodeAt_eq]
        omega
    rw [hword]
    exact ih

/-! ### Free blocks -/

/-- The blocks listed while `format` goes on, with `i` of them in the superblock. -/
def Listed (f : ByteFile) (i : ℕ) (L : List ℕ) : Prop :=
  i ≤ 29 ∧ ∃ rest, Chain f (f.word 128) rest ∧ L = (f.words 12 i).reverse ++ rest

theorem Listed.push (h : Listed f i L) (hi : i < 29) (hb : b < 4294967296) :
    Listed (f.write (12 + 4 * i) (packed b)) (i + 1) (b :: L) := by
  obtain ⟨-, rest, hc, rfl⟩ := h
  have hlast : (f.write (12 + 4 * i) (packed b)).word 128 = f.word 128 :=
    word_packed (by omega)
  have hwords : (f.write (12 + 4 * i) (packed b)).words 12 i = f.words 12 i :=
    words_congr fun j hj => word_write_outside (by omega)
  refine ⟨hi, rest, ?_, ?_⟩
  · rw [hlast]
    exact hc.super size_write_le fun p hp => byte_packed (by omega)
  · rw [words_succ, hwords, word_write_packed hb, reverse_append]
    rfl

theorem Listed.spill (h : Listed f 29 L) (hg : Copied f g 12 (4096 * b) 30) (h0 : b ≠ 0) (hb : b < S5_NULL)
    (hmem : b ∉ L) : Listed (g.write 128 (packed b)) 0 (b :: L) := by
  obtain ⟨-, rest, hc, rfl⟩ := h
  have hb' : b < 4294967296 := hb.trans (by decide)
  have hout : ∀ p ≥ 132, (g.write 128 (packed b)).word p = g.word p := fun p hp =>
    word_packed (by omega)
  have hwords : (g.write 128 (packed b)).words (4096 * b) 29 = f.words 12 29 :=
    words_congr fun j hj => by rw [hout _ (by omega), hg.copied j (by omega)]
  refine ⟨by decide, _, ?_, rfl⟩
  rw [word_write_packed hb', ← hwords]
  refine .node (ne_of_lt hb) h0 ((hg.inside (by decide)).trans size_write_le) ?_
  rw [hout _ (by omega), hg.copied 29 (by decide)]
  refine hc.frame (hg.grown.trans size_write_le) ?_
  intro c hcmem hc0 j hj
  have hcb : c ≠ b := fun he => hmem (mem_append_right _ (he ▸ hcmem))
  rw [hout _ (by omega), hg.word_outside (by omega)]

theorem formatBlocks_spill (hs : 132 ≤ f.size) (h0 : b ≠ 0) (hb : b < 4294967296) (l : List ℕ) :
    ∃ g, Copied f g 12 (4096 * b) 30 ∧ formatBlocks (b :: l) 29 f = formatBlocks l 0 (g.write 128 (packed b)) := by
  obtain ⟨g, hg, hspill⟩ := spill_ok (formatBlocks l 0) hs h0 hb
  refine ⟨g, hg, ?_⟩
  exact hspill

/-- The loop lists the blocks, the last one first, and leaves the image before them as it is. -/
theorem formatBlocks_ok (m a i : ℕ) (f : ByteFile) (L : List ℕ) (hs : 132 ≤ f.size) (ha : 0 < a)
    (ham : a + m ≤ S5_NULL) (h : Listed f i L) (hlt : (∀ b ∈ L, b < a)) :
    ∃ i' g, formatBlocks (List.range' a m) i f = .ok i' g ∧ Listed g i' ((List.range' a m).reverse ++ L) ∧
      f.size ≤ g.size ∧ ∀ p, p < 12 ∨ 132 ≤ p ∧ p < 4096 * (a + (29 - i)) → g.byte p = f.byte p := by
  induction m generalizing a i f L with
  | zero =>
    exact ⟨i, f, rfl, h, le_rfl, fun _ _ => rfl⟩
  | succ m ih =>
    have hnull : a < 4294967296 := lt_of_lt_of_le (by omega) (show S5_NULL ≤ 4294967296 by decide)
    have hmem : a ∉ L := fun hm => lt_irrefl a (hlt a hm)
    have hlt' : ∀ b ∈ a :: L, b < a + 1 := by
      intro b hb
      rcases mem_cons.1 hb with rfl | hb
      · omega
      have := hlt b hb
      omega
    rw [List.range'_succ, reverse_cons, append_assoc, singleton_append]
    rcases Nat.lt_or_eq_of_le h.1 with hi | rfl
    · obtain ⟨i', g, hg, hlist, hgrown, hout⟩ := ih (a + 1) (i + 1) (f.write (12 + 4 * i) (packed a)) (a :: L)
        (hs.trans size_write_le) (by omega) (by omega) (h.push hi hnull) hlt'
      refine ⟨i', g, ?_, hlist, size_write_le.trans hgrown, ?_⟩
      · rw [formatBlocks, if_neg (by rw [fnode]; omega), bind_ok _ (setFreeBlock_ok hi hnull)]
        exact hg
      · intro p hp
        rw [hout p (by omega), byte_packed (by omega)]
    obtain ⟨g1, hg1, hloop⟩ := formatBlocks_spill hs (by omega) hnull (List.range' (a + 1) m)
    have hgrown1 := hg1.grown
    obtain ⟨i', g, hg, hlist, hgrown, hout⟩ := ih (a + 1) 0 (g1.write 128 (packed a)) (a :: L)
      ((hs.trans hgrown1).trans size_write_le) (by omega) (by omega) (h.spill hg1 (by omega) (by omega) hmem) hlt'
    refine ⟨i', g, hloop.trans hg, hlist, (hgrown1.trans size_write_le).trans hgrown, ?_⟩
    intro p hp
    rw [hout p (by omega), byte_packed (by omega), hg1.outside p (by omega)]

theorem formatBlocks_append (l l' : List ℕ) (i : ℕ) :
    formatBlocks (l ++ l') i = formatBlocks l i >>= formatBlocks l' := by
  induction l generalizing i with
  | nil => rfl
  | cons num l ih =>
    rw [cons_append, formatBlocks, formatBlocks]
    simp only [ih]
    split_ifs
    · simp only [bind_assoc]
    · simp only [bind_assoc]

theorem setWord_lt {u : Unit} (h : setWord off v f = .ok u g) : v < 4294967296 := by
  by_contra hv
  unfold setWord pack at h
  rw [if_neg hv] at h
  exact nomatch h

theorem setFreeBlock_lt {u : Unit} (h : setFreeBlock i v f = .ok u g) : v < 4294967296 := by
  unfold setFreeBlock at h
  split_ifs at h
  · exact setWord_lt h
  · exact nomatch h

/-- A number of more than 32 bits stops the loop. -/
theorem formatBlocks_lt {l : List ℕ} {i' : ℕ} (h : formatBlocks l i f = .ok i' g) : ∀ b ∈ l, b < 4294967296 := by
  induction l generalizing i f with
  | nil => exact fun _ hb => by cases hb
  | cons num l ih =>
    rw [formatBlocks] at h
    split_ifs at h
    · obtain ⟨_, f1, -, h⟩ := bind_ok_iff.1 h
      obtain ⟨last, f2, -, h⟩ := bind_ok_iff.1 h
      obtain ⟨_, f3, -, h⟩ := bind_ok_iff.1 h
      obtain ⟨_, f4, hset, h⟩ := bind_ok_iff.1 h
      exact forall_mem_cons.2 ⟨setWord_lt hset, ih h⟩
    · obtain ⟨_, f1, hset, h⟩ := bind_ok_iff.1 h
      exact forall_mem_cons.2 ⟨setFreeBlock_lt hset, ih h⟩

/-- All numbers of 32 bits are listed, unless the last of them is written as a link. -/
theorem formatBlocks_all {a m : ℕ} (hs : 132 ≤ f.size) (hnull : f.word 128 = S5_NULL) (ha : 0 < a) (hm : 2 ≤ m)
    (ham : a + m ≤ 4294967296) : ∃ i' g, formatBlocks (List.range' a m) 0 f = .ok i' g ∧ i' ≤ 29 ∧
      (Listed g i' (List.range' a m).reverse ∨ a + m = 4294967296 ∧ Listed g i' []) ∧
      f.size ≤ g.size ∧ ∀ p, p < 12 ∨ 132 ≤ p ∧ p < 4096 * (a + 1) → g.byte p = f.byte p := by
  have hnone : Listed f 0 [] := ⟨by decide, [], hnull ▸ .nil, rfl⟩
  have hval : S5_NULL = 4294967295 := rfl
  rcases Nat.lt_or_eq_of_le ham with hlt | heq
  · obtain ⟨i', g, hg, hlist, hgrown, hout⟩ := formatBlocks_ok m a 0 f [] hs ha (by omega) hnone (by simp)
    rw [append_nil] at hlist
    exact ⟨i', g, hg, hlist.1, .inl hlist, hgrown, fun p hp => hout p (by omega)⟩
  obtain ⟨k, rfl⟩ : ∃ k, m = k + 1 := ⟨m - 1, by omega⟩
  obtain ⟨i, g, hg, hlist, hgrown, hout⟩ := formatBlocks_ok k a 0 f [] hs ha (by omega) hnone (by simp)
  have hgs : 132 ≤ g.size := hs.trans hgrown
  rw [append_nil] at hlist
  rw [List.range'_concat, formatBlocks_append, bind_ok _ hg, Nat.one_mul, show a + k = S5_NULL by omega]
  rcases Nat.lt_or_eq_of_le hlist.1 with hi | rfl
  · refine ⟨i + 1, g.write (12 + 4 * i) (packed S5_NULL), ?_, hi, .inl ?_, hgrown.trans size_write_le, ?_⟩
    · rw [formatBlocks, if_neg (by rw [fnode]; omega), bind_ok _ (setFreeBlock_ok hi (by decide))]
      rfl
    · rw [reverse_append]
      exact hlist.push hi (by decide)
    · intro p hp
      rw [byte_packed (by omega), hout p (by omega)]
  obtain ⟨g1, hg1, hloop⟩ := formatBlocks_spill (b := S5_NULL) hgs (by decide) (by decide) []
  refine ⟨0, g1.write 128 (packed S5_NULL), hloop, by decide, .inr ⟨heq, by decide, [], ?_, rfl⟩,
    (hgrown.trans hg1.grown).trans size_write_le, ?_⟩
  · rw [word_write_packed (by decide)]
    exact .nil
  · intro p hp
    rw [byte_packed (by omega), hg1.outside p (by omega), hout p (by omega)]

theorem Listed.freeList (h : Listed f i L) (hs : 132 ≤ f.size) : FreeList (f.write 8 (packed i)) L := by
  obtain ⟨hi, rest, hc, rfl⟩ := h
  have hword : ∀ p ≥ 12, (f.write 8 (packed i)).word p = f.word p := fun p hp =>
    word_packed (by omega)
  have hn : (f.write 8 (packed i)).word 8 = i := word_write_packed (by omega)
  have hwords : (f.write 8 (packed i)).words 12 i = f.words 12 i := words_congr fun j _ => hword _ (by omega)
  refine ⟨hs.trans size_write_le, by omega, rest, ?_, ?_⟩
  · exact hc.super size_write_le fun p hp => byte_packed (by omega)
  · rw [hn, hwords]

/-! ### The whole -/

def listed (n blocks : ℕ) : List ℕ := List.range' (iblocks n) (blocks - iblocks n)

/-- The tables that `format` writes. The number of the last block of a disk of `2 ^ 32` blocks is also the
mark for the end of the chain. -/
structure Tables (n blocks : ℕ) (g : ByteFile) : Prop where
  inodes : InodeChain g (g.word 4) (List.range n)
  blocks : FreeList g (listed n blocks).reverse ∨ blocks = 4294967296 ∧ FreeList g []

theorem iblocks_pos (n : ℕ) : 0 < iblocks n := Nat.succ_pos _

theorem le_iblocks (n : ℕ) : inodeAt n ≤ 4096 * (iblocks n + 1) := by
  rw [inodeAt_eq, iblocks, show S5_INODES_PER_BLOCK = 32 from rfl]
  omega

/-- The loop over the inodes and the link of the last one. -/
theorem formatInodes_chain (hs : 140 ≤ f.size) (hn : 0 < n) (hnum : f.word 136 = n) (hlt : n < 4294967296) :
    ∃ g1 g, formatInodes n f = .ok (inode (n - 1)) g1 ∧ (inode (n - 1)).setNextFree S5_NULL g1 = .ok () g ∧
      InodeChain g 0 (List.range n) ∧ f.size ≤ g.size ∧ g.word 136 = n := by
  obtain ⟨g1, hg1, hlinked⟩ := formatInodes_ok hs hn hnum hlt
  have hnum1 : g1.word 136 = n := (word_congr fun o ho => hlinked.super _ (by omega)).trans hnum
  have hnum2 : (g1.write (inodeAt (n - 1)) (packed S5_NULL)).word 136 = n := by
    rw [word_write_outside (by rw [inodeAt_eq]; omega), hnum1]
  refine ⟨g1, _, hg1, setNextFree_ok (by decide), ?_, hlinked.grown.trans size_write_le, hnum2⟩
  obtain ⟨m, rfl⟩ : ∃ m, n = m + 1 := ⟨n - 1, by omega⟩
  rw [range_eq_range']
  refine InodeChain.of_next hnum2.ge ?_ ?_ (word_write_packed (by decide)) m 0 (Nat.zero_add _)
  · intro j hj
    exact (hlinked.stored j hj).trans size_write_le
  · intro j hj
    rw [word_packed (by rw [inodeAt_eq, inodeAt_eq]; omega), hlinked.next j (by omega)]

theorem formatTables_ok (f : ByteFile) (pos size n blocks : ℕ) (hn : 0 < n) (hlt : n < 4294967296)
    (hb : iblocks n + 1 < blocks) (hb' : blocks ≤ 4294967296) :
    ∃ g, formatTables pos size n blocks f = .ok () g ∧ Tables n blocks g := by
  set f0 := (f.truncate pos).write size []
  set f1 := (f0.write 0 (packed S5_MAGIC)).write 140 (packed S5_CURRENT_VERSION)
  set f2 := f1.write 136 (packed n)
  have hs2 : 144 ≤ f2.size := (show 140 + 4 ≤ f1.size from le_size_write_packed).trans size_write_le
  obtain ⟨f3, f4, hf3, hf4, hchain, hs4, hnum⟩ := formatInodes_chain (f := f2) (by omega) hn (word_write_packed hlt) hlt
  set f5 := (f4.write 4 (packed 0)).write 128 (packed S5_NULL) with hf5
  have hs5 : f4.size ≤ f5.size := size_write_le.trans size_write_le
  have hpos := iblocks_pos n
  have hnull : f5.word 128 = S5_NULL := word_write_packed (by decide)
  obtain ⟨i, g, hg, hi, hlist, hgrown, hout⟩ := formatBlocks_all (f := f5) (a := iblocks n) (m := blocks - iblocks n)
    (by omega) hnull hpos (by omega) (by omega)
  have hgs : 132 ≤ g.size := by omega
  refine ⟨g.write 8 (packed i), ?_, ?_, ?_⟩
  · unfold formatTables
    rw [bind_ok _ (show (modify fun f => f.truncate pos : Tool Unit) f = .ok () (f.truncate pos) from rfl),
      bind_ok _ (show simWrite size [] (f.truncate pos) = .ok () f0 from rfl),
      bind_ok _ (show setMagic S5_MAGIC f0 = .ok () _ from setWord_ok (by decide)),
      bind_ok _ (show setVersion S5_CURRENT_VERSION _ = .ok () f1 from setWord_ok (by decide)),
      bind_ok _ (show setNumInodes n f1 = .ok () f2 from setWord_ok hlt), bind_ok _ hf3, bind_ok _ hf4,
      bind_ok _ (show setFreeInode 0 f4 = .ok () _ from setWord_ok (by decide)),
      bind_ok _ (show setLastFreeBlock S5_NULL _ = .ok () f5 from setWord_ok (by decide)), bind_ok _ hg]
    exact setNfree_ok (by omega)
  · have hbyte : ∀ p, p < 8 ∨ 132 ≤ p ∧ p < 4096 * (iblocks n + 1) → (g.write 8 (packed i)).byte p = f5.byte p := by
      intro p hp
      rw [byte_packed (by omega), hout p (by omega)]
    have hbyte' : ∀ p ≥ 132, f5.byte p = f4.byte p := by
      intro p hp
      rw [hf5, byte_packed (by omega), byte_packed (by omega)]
    have hfirst : (g.write 8 (packed i)).word 4 = 0 := by
      exact word_congr fun o ho => hbyte _ (by omega)
    have htable := le_iblocks n
    rw [hfirst]
    refine hchain.frame ((hs5.trans hgrown).trans size_write_le) ?_ ?_
    · exact word_congr fun o ho => (hbyte _ (by omega)).trans (hbyte' _ (by omega))
    intro p hp hlt'
    rw [hnum] at hlt'
    rw [hbyte p (by omega), hbyte' p (by omega)]
  · refine hlist.imp (fun h => h.freeList hgs) fun h => ⟨by omega, h.2.freeList hgs⟩

/-- What is said of the tables: every block after the inode blocks is free once, no other block is, and
every inode is free once. -/
structure Formatted (n blocks : ℕ) (g : ByteFile) : Prop where
  blocks : ∃ L, FreeList g L ∧ (∀ b < blocks, (∀ i < n, inodeBlock i < b) → L.count b = 1) ∧
    0 ∉ L ∧ ∀ i < n, inodeBlock i ∉ L
  inodes : ∃ M, InodeChain g (g.word 4) M ∧ M.Perm (List.range n)

theorem inodeBlock_eq (i : ℕ) : inodeBlock i = 1 + i / 32 := by
  unfold inodeBlock
  rw [inodeAt_eq, S5_BLOCK_SIZE]
  omega

/-- The last block of the inode table. -/
theorem inodeBlock_last (n : ℕ) : inodeBlock (n - 1) = iblocks n := by
  rw [inodeBlock_eq, iblocks, show S5_INODES_PER_BLOCK = 32 from rfl, Nat.add_comm]

theorem formatTables_lt {size blocks : ℕ} (h : formatTables pos size n blocks f = .ok () g) :
    n < 4294967296 ∧ ∀ b ∈ listed n blocks, b < 4294967296 := by
  obtain ⟨_, f1, -, h⟩ := bind_ok_iff.1 h
  obtain ⟨_, f2, -, h⟩ := bind_ok_iff.1 h
  obtain ⟨_, f3, -, h⟩ := bind_ok_iff.1 h
  obtain ⟨_, f4, -, h⟩ := bind_ok_iff.1 h
  obtain ⟨_, f5, hnum, h⟩ := bind_ok_iff.1 h
  obtain ⟨ino, f6, -, h⟩ := bind_ok_iff.1 h
  obtain ⟨_, f7, -, h⟩ := bind_ok_iff.1 h
  obtain ⟨_, f8, -, h⟩ := bind_ok_iff.1 h
  obtain ⟨_, f9, -, h⟩ := bind_ok_iff.1 h
  obtain ⟨i, g', hblocks, -⟩ := bind_ok_iff.1 h
  exact ⟨setWord_lt hnum, formatBlocks_lt hblocks⟩

/-- The tables are never as they are said to be: the last block of the inode table is listed as free, or, on a
disk where the end of the chain is mistaken, no block is. -/
theorem Tables.not_formatted {blocks : ℕ} (h : Tables n blocks g) (hn : 0 < n) (hb : iblocks n + 1 < blocks) :
    ¬ Formatted n blocks g := by
  rintro ⟨⟨L, hL, hafter, -, hinode⟩, -⟩
  rcases h.blocks with hfree | ⟨-, hfree⟩
  · obtain rfl := hL.unique hfree
    refine hinode (n - 1) (by omega) ?_
    rw [inodeBlock_last, mem_reverse, listed, mem_range'_1]
    omega
  obtain rfl := hL.unique hfree
  have hnext := hafter (iblocks n + 1) hb fun i hi => by
    rw [inodeBlock_eq, iblocks, show S5_INODES_PER_BLOCK = 32 from rfl]
    omega
  rw [count_nil] at hnext
  exact absurd hnext (by decide)

/-- The checks of `format`. -/
structure Accepts (inodes size : ℤ) : Prop where
  one : 1 ≤ inodes
  aligned : size % S5_BLOCK_SIZE = 0
  room : (iblocks inodes.toNat : ℤ) + 1 < size / S5_BLOCK_SIZE

/-- Whatever `format` accepts, the image it makes the root directory in has not the free blocks that are
said. The inodes are all on their list, and on a disk of fewer than `2 ^ 32` blocks the free blocks are those
from the last inode block on. -/
theorem format_never {inodes size : ℤ} (h : Accepts inodes size)
    (ht : formatTables pos size.toNat inodes.toNat (size / S5_BLOCK_SIZE).toNat f = .ok () g) :
    format pos inodes size f = formatRoot g ∧ ¬ Formatted inodes.toNat (size / S5_BLOCK_SIZE).toNat g ∧
      InodeChain g (g.word 4) (List.range inodes.toNat) ∧
      (size / S5_BLOCK_SIZE < 4294967296 →
        FreeList g (listed inodes.toNat (size / S5_BLOCK_SIZE).toNat).reverse) := by
  have hformat : format pos inodes size f = formatRoot g := by
    unfold format
    rw [if_neg (by have := h.one; omega), if_neg (not_not.2 h.aligned)]
    rw [if_neg (by have := h.room; omega), bind_ok _ ht]
  have hn : 0 < inodes.toNat := by
    have := h.one
    omega
  have hb : iblocks inodes.toNat + 1 < (size / S5_BLOCK_SIZE).toNat := by
    have := h.room
    omega
  refine ⟨hformat, ?_⟩
  generalize hblocks : (size / S5_BLOCK_SIZE).toNat = blocks at *
  generalize inodes.toNat = n at *
  obtain ⟨hlt, hlisted⟩ := formatTables_lt ht
  have hb' : blocks ≤ 4294967296 := by
    have := hlisted (blocks - 1) (by rw [listed, mem_range'_1]; omega)
    omega
  obtain ⟨g', hg', htables⟩ := formatTables_ok f pos size.toNat n blocks hn hlt hb hb'
  obtain rfl := (EStateM.Result.ok.inj (ht.symm.trans hg')).2
  refine ⟨htables.not_formatted hn hb, htables.inodes, fun hlt => ?_⟩
  exact htables.blocks.resolve_right fun he => by omega

def noFile : ByteFile := .empty

theorem format_never_small : Accepts 1 12288 ∧ ∃ g, formatTables 0 12288 1 3 noFile = .ok () g ∧
    ¬ Formatted 1 3 g := by
  have haccepts : Accepts 1 12288 := ⟨by decide, by decide, by decide⟩
  obtain ⟨g, hg, -⟩ := formatTables_ok noFile 0 12288 1 3 (by decide) (by decide) (by decide) (by decide)
  exact ⟨haccepts, g, hg, (format_never haccepts hg).2.1⟩

/-- On a disk of three blocks with one inode, blocks 1 and 2 are free, and inode 0 is in block 1. -/
theorem format_lists_inode_block : ∃ g, formatTables 0 12288 1 3 noFile = .ok () g ∧ FreeList g [2, 1] ∧
    getInode 0 g = .ok ⟨0, 4096⟩ g := by
  obtain ⟨g, hg, ht⟩ := formatTables_ok noFile 0 12288 1 3 (by decide) (by decide) (by decide) (by decide)
  have hfree : FreeList g [2, 1] := ht.blocks.resolve_right fun h => absurd h.1 (by decide)
  refine ⟨g, hg, hfree, ?_⟩
  obtain ⟨hlt, hstored⟩ := ht.inodes.first
  exact getInode_lt ((show 140 ≤ inodeAt 0 + 4 by decide).trans hstored) hlt

end Weenix.S5
