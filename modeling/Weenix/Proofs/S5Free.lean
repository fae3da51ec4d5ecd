import Weenix.Lib.Exec
import Weenix.Lib.Run
import Weenix.Spec.S5fs

/-! The free blocks of a disk image are a stack, kept in the superblock and in a chain of free
blocks that hold 29 more each. -/

namespace Weenix.S5

open ByteFile Exec Function

variable {f g : ByteFile} {L : List ℕ} {b off v n pos : ℕ}

theorem fnode : S5_NBLKS_PER_FNODE - 1 = 29 := rfl

theorem blockno_getBlock (b : ℕ) : (getBlock b).blockno = b := rfl

/-! ### Reading and writing words -/

theorem getWord_ok (h : off + 4 ≤ f.size) : getWord off f = .ok (f.word off) f := by
  unfold getWord
  rw [bind_ok _ (show simRead off 4 f = .ok (f.read off 4) f from rfl), unpack, unpacked_read h]
  rfl

theorem setWord_ok (h : v < 4294967296) : setWord off v f = .ok () (f.write off (packed v)) := by
  unfold setWord
  rw [bind_ok _ (show pack v f = .ok (packed v) f by rw [pack, if_pos h]; rfl)]
  rfl

theorem blockGetWord_ok (hoff : off + 4 ≤ 4096) (h : 4096 * b + off + 4 ≤ f.size) :
    (getBlock b).getWord off f = .ok (f.word (4096 * b + off)) f := by
  have hread : (getBlock b).read off 4 f = .ok (f.read (4096 * b + off) 4) f := by
    unfold Block.read
    rw [if_neg (by rw [S5_BLOCK_SIZE]; omega)]
    rfl
  unfold Block.getWord
  rw [bind_ok _ hread, unpack, unpacked_read h]
  rfl

theorem blockSetWord_ok (hoff : off + 4 ≤ 4096) (hv : v < 4294967296) :
    (getBlock b).setWord off v f = .ok () (f.write (4096 * b + off) (packed v)) := by
  unfold Block.setWord
  rw [bind_ok _ (show pack v f = .ok (packed v) f by rw [pack, if_pos hv]; rfl), Block.write,
    if_neg (by rw [S5_BLOCK_SIZE, length_packed]; omega)]
  rfl

/-- A loop that copies a word in each round. -/
theorem copy_loop {body : ℕ → Tool Unit} {src dst : ℕ} (hbody : ∀ k < n, ∀ g : ByteFile, f.size ≤ g.size →
      body k g = .ok () (g.write (dst + 4 * k) (packed (g.word (src + 4 * k)))))
    (hd : src + 4 * n ≤ dst ∨ dst + 4 * n ≤ src) :
    ∃ g, (List.range n).forM body f = .ok () g ∧ Copied f g src dst n := by
  apply forM_range (fun k g => Copied f g src dst k)
  · intro k hk g hg
    exact ⟨_, hbody k hk g hg.grown, hg.snoc (by omega)⟩
  · exact Copied.nothing

/-! ### The free list -/

/-- The nodes from a link on, with the blocks they hold, in the order of allocation. -/
inductive Chain (f : ByteFile) : ℕ → List ℕ → Prop
  | nil : Chain f S5_NULL []
  | node {b : ℕ} {L : List ℕ} (hb : b ≠ S5_NULL) (hsuper : b ≠ 0) (hstored : 4096 * b + 120 ≤ f.size)
      (hL : Chain f (f.word (4096 * b + 116)) L) : Chain f b (b :: (f.words (4096 * b) 29).reverse ++ L)

/-- The free blocks of an image in the order of allocation: those of the superblock, the last one
first, and those of the chain. -/
structure FreeList (f : ByteFile) (L : List ℕ) : Prop where
  stored : 132 ≤ f.size
  nfree : f.word 8 ≤ 29
  chain : ∃ rest, Chain f (f.word 128) rest ∧ L = (f.words 12 (f.word 8)).reverse ++ rest

theorem Chain.unique {L' : List ℕ} (h : Chain f v L) (h' : Chain f v L') : L = L' := by
  induction h generalizing L' with
  | nil =>
    cases h' with
    | nil => rfl
    | node hb => exact absurd rfl hb
  | node hb _ _ _ ih =>
    cases h' with
    | nil => exact absurd rfl hb
    | node _ _ _ hL => rw [ih hL]

theorem FreeList.unique {L' : List ℕ} (h : FreeList f L) (h' : FreeList f L') : L = L' := by
  obtain ⟨rest, hc, rfl⟩ := h.chain
  obtain ⟨rest', hc', rfl⟩ := h'.chain
  rw [hc.unique hc']

/-- A chain lies in its nodes. -/
theorem Chain.frame (h : Chain f v L) (hsize : f.size ≤ g.size)
    (hw : ∀ b ∈ L, b ≠ 0 → ∀ i < 30, g.word (4096 * b + 4 * i) = f.word (4096 * b + 4 * i)) : Chain g v L := by
  induction h with
  | nil => exact .nil
  | @node b L hb hsuper hstored _ ih =>
    have hnode := hw b (by simp) hsuper
    have hwords : f.words (4096 * b) 29 = g.words (4096 * b) 29 :=
      words_congr fun i hi => (hnode i (by omega)).symm
    have hmore : g.word (4096 * b + 116) = f.word (4096 * b + 116) := hnode 29 (by decide)
    rw [hwords]
    refine .node hb hsuper (by omega) ?_
    rw [hmore]
    apply ih
    intro c hc
    exact hw c (List.mem_append_right _ hc)

/-- What is written in the superblock leaves the chain as it is. -/
theorem Chain.super (h : Chain f v L) (hsize : f.size ≤ g.size) (hg : ∀ p ≥ 4096, g.byte p = f.byte p) :
    Chain g v L := by
  apply h.frame hsize
  intro b _ hb i _
  apply word_congr
  intro j _
  exact hg _ (by omega)

/-! ### Allocation -/

theorem getNfree_ok (h : 132 ≤ f.size) : getNfree f = .ok (f.word 8) f := getWord_ok (by omega)

theorem getLastFreeBlock_ok (h : 132 ≤ f.size) : getLastFreeBlock f = .ok (f.word 128) f := getWord_ok (by exact h)

theorem setLastFreeBlock_ok (h : v < 4294967296) : setLastFreeBlock v f = .ok () (f.write 128 (packed v)) :=
  setWord_ok h

theorem setNfree_ok (h : v < 4294967296) : setNfree v f = .ok () (f.write 8 (packed v)) := setWord_ok h

theorem getFreeBlock_ok (hn : n < 29) (h : 132 ≤ f.size) : getFreeBlock n f = .ok (f.word (12 + 4 * n)) f := by
  unfold getFreeBlock
  rw [if_pos (by exact hn)]
  exact getWord_ok (by omega)

theorem setFreeBlock_ok (hn : n < 29) (hv : v < 4294967296) :
    setFreeBlock n v f = .ok () (f.write (12 + 4 * n) (packed v)) := by
  unfold setFreeBlock
  rw [if_pos (by exact hn)]
  exact setWord_ok hv

theorem alloc_empty (h : FreeList f []) : allocBlock f = .error .diskSpace f := by
  obtain ⟨rest, hc, hL⟩ := h.chain
  obtain ⟨hw, rfl⟩ := List.append_eq_nil_iff.mp hL.symm
  have hn : f.word 8 = 0 := by
    have := congrArg List.length hw
    rwa [List.length_reverse, length_words] at this
  have hlast : f.word 128 = S5_NULL := by
    generalize f.word 128 = v at hc
    cases hc
    rfl
  unfold allocBlock
  rw [bind_ok _ (getNfree_ok h.stored), hn, if_neg (by decide), if_pos rfl,
    bind_ok _ (getLastFreeBlock_ok h.stored), hlast, if_pos rfl]
  rfl

/-- A block of the superblock's array is taken. -/
theorem alloc_array (hs : 132 ≤ f.size) (hn : f.word 8 = n + 1) (hlt : n < 29) :
    allocBlock f = .ok (getBlock (f.word (12 + 4 * n))) (f.write 8 (packed n)) := by
  have hs' : 132 ≤ (f.write 8 (packed n)).size := hs.trans size_write_le
  have hn' : (f.write 8 (packed n)).word 8 = n := word_write_packed (by omega)
  have hb : (f.write 8 (packed n)).word (12 + 4 * n) = f.word (12 + 4 * n) :=
    word_packed (by omega)
  unfold allocBlock
  rw [bind_ok _ (getNfree_ok hs), hn, if_neg (by rw [S5_NBLKS_PER_FNODE]; omega), if_neg (Nat.succ_ne_zero n),
    Nat.add_sub_cancel, bind_ok _ (setNfree_ok (by omega)), bind_ok _ (getNfree_ok hs'), hn',
    bind_ok _ (getFreeBlock_ok hlt hs'), hb]
  rfl

/-- The first node of the chain is taken, and what it holds goes to the superblock. -/
theorem alloc_node (hs : 132 ≤ f.size) (hn : f.word 8 = 0) (hb : f.word 128 = b) (hnull : b ≠ S5_NULL) (h0 : b ≠ 0)
    (hnode : 4096 * b + 120 ≤ f.size) : ∃ g, Copied f g (4096 * b) 12 30 ∧
      allocBlock f = .ok (getBlock b) (g.write 8 (packed 29)) := by
  obtain ⟨g, hloop, hg⟩ := @copy_loop f 29 (fun i => do
      let entry ← (getBlock b).getWord (i * 4)
      setFreeBlock i entry) (4096 * b) 12 (by
    intro k hk g hfg
    rw [bind_ok _ (blockGetWord_ok (by omega) (by omega)), setFreeBlock_ok hk (word_lt _ _), Nat.mul_comm k 4])
    (by omega)
  have hgs := hg.grown
  refine ⟨_, hg.snoc (by omega), ?_⟩
  unfold allocBlock
  rw [bind_ok _ (getNfree_ok hs), hn, if_neg (by decide), if_pos rfl, bind_ok _ (getLastFreeBlock_ok hs), hb,
    if_neg hnull, fnode, bind_ok _ hloop, bind_ok _ (blockGetWord_ok (by decide) (by omega)),
    bind_ok _ (setLastFreeBlock_ok (word_lt _ _)), bind_ok _ (setNfree_ok (by decide))]
  rfl

/-- What allocation does to the image: it takes the first free block and writes in the
superblock only. -/
theorem FreeList.alloc (h : FreeList f (b :: L)) : ∃ g, allocBlock f = .ok (getBlock b) g ∧ FreeList g L ∧
    g.size = f.size ∧ ∀ p, p < 8 ∨ 132 ≤ p → g.byte p = f.byte p := by
  obtain ⟨rest, hc, hL⟩ := h.chain
  have hstored := h.stored
  have hnfree := h.nfree
  rcases hn : f.word 8 with _ | n
  · rw [hn] at hL
    obtain rfl : b :: L = rest := hL
    generalize hlast : f.word 128 = last at hc
    cases hc with
    | node hnull h0 hnode hmore =>
      obtain ⟨g, hg, halloc⟩ := alloc_node hstored hn hlast hnull h0 hnode
      have hsize : (g.write 8 (packed 29)).size = f.size := by
        have h1 := hg.grown
        have h2 := hg.fits
        rw [size_write_inside (by rw [length_packed]; omega)]
        omega
      have hword : ∀ i < 30, (g.write 8 (packed 29)).word (12 + 4 * i) = f.word (4096 * b + 4 * i) := by
        intro i hi
        rw [word_packed (by omega), hg.copied i hi]
      have hout : ∀ p, p < 8 ∨ 132 ≤ p → (g.write 8 (packed 29)).byte p = f.byte p := by
        intro p hp
        rw [byte_packed (by omega), hg.outside p (by omega)]
      refine ⟨_, halloc, ⟨by omega, ?_, ?_⟩, hsize, hout⟩
      · rw [word_write_packed (by decide)]
      have hn' : (g.write 8 (packed 29)).word 8 = 29 := word_write_packed (by decide)
      have hwords : (g.write 8 (packed 29)).words 12 29 = f.words (4096 * b) 29 :=
        words_congr fun i hi => hword i (by omega)
      rw [hn', hwords, hword 29 (by decide)]
      exact ⟨_, hmore.super (by omega) fun p hp => hout p (by omega), rfl⟩
  · have hlt : n < 29 := by omega
    rw [hn, words_succ, List.reverse_append] at hL
    obtain ⟨rfl, rfl⟩ : b = f.word (12 + 4 * n) ∧ L = (f.words 12 n).reverse ++ rest := List.cons.inj hL
    have hsize : (f.write 8 (packed n)).size = f.size := size_write_inside (by rw [length_packed]; omega)
    have hout : ∀ p, p < 8 ∨ 132 ≤ p → (f.write 8 (packed n)).byte p = f.byte p := by
      intro p hp
      exact byte_packed (by omega)
    have hword : ∀ p ≥ 12, (f.write 8 (packed n)).word p = f.word p := by
      intro p hp
      exact word_packed (by omega)
    have hn' : (f.write 8 (packed n)).word 8 = n := word_write_packed (by omega)
    have hwords : (f.write 8 (packed n)).words 12 n = f.words 12 n :=
      words_congr fun i _ => hword _ (by omega)
    refine ⟨_, alloc_array hstored hn hlt, ⟨by omega, by omega, ?_⟩, hsize, hout⟩
    rw [hn', hwords, hword 128 (by decide)]
    exact ⟨rest, hc.super (by omega) fun p hp => hout p (by omega), rfl⟩

/-! ### Freeing -/

/-- `g` is `f` with `b` behind the `n` entries of the superblock's array. -/
structure Pushed (f g : ByteFile) (b n : ℕ) : Prop where
  grown : f.size ≤ g.size
  nfree : g.word 8 = n + 1
  entry : g.word (12 + 4 * n) = b
  rest : ∀ p, (p + 4 ≤ 8 ∨ 12 ≤ p) → (p + 4 ≤ 12 + 4 * n ∨ 16 + 4 * n ≤ p) → g.word p = f.word p

/-- `g` is `f` with the whole array in block `b`, and `b` before the chain. -/
structure Spilled (f g : ByteFile) (b : ℕ) : Prop where
  grown : f.size ≤ g.size
  inside : 4096 * b + 120 ≤ g.size
  nfree : g.word 8 = 0
  last : g.word 128 = b
  node : ∀ i < 30, g.word (4096 * b + 4 * i) = f.word (12 + 4 * i)
  rest : ∀ p, (p + 4 ≤ 8 ∨ 12 ≤ p) → (p + 4 ≤ 128 ∨ 132 ≤ p) →
    (p + 4 ≤ 4096 * b ∨ 4096 * b + 120 ≤ p) → g.word p = f.word p

theorem free_array (hs : 132 ≤ f.size) (hn : f.word 8 = n) (hlt : n < 29) (hb : b < S5_NULL) :
    ∃ g, (getBlock b).free f = .ok () g ∧ Pushed f g b n := by
  have hb' : b < 4294967296 := lt_trans hb (by decide)
  have hs' : 132 ≤ (f.write (12 + 4 * n) (packed b)).size := hs.trans size_write_le
  have hn' : (f.write (12 + 4 * n) (packed b)).word 8 = n := by
    rw [word_write_outside (by omega), hn]
  refine ⟨(f.write (12 + 4 * n) (packed b)).write 8 (packed (n + 1)), ?_, ?_⟩
  · unfold Block.free
    rw [bind_ok _ (getNfree_ok hs), hn, if_pos (by exact hlt), bind_ok _ (getNfree_ok hs), hn,
      blockno_getBlock, bind_ok _ (setFreeBlock_ok hlt hb'), bind_ok _ (getNfree_ok hs'), hn',
      setNfree_ok (by omega)]
  refine ⟨size_write_le.trans size_write_le, word_write_packed (by omega), ?_, ?_⟩
  · rw [word_packed (by omega), word_write_packed hb']
  intro p h8 hp
  rw [word_packed (by omega), word_packed (by omega)]

/-- The array and the link of the superblock are written into block `b`, which becomes the first node. -/
theorem spill_ok {α : Type} (next : Tool α) (hs : 132 ≤ f.size) (h0 : b ≠ 0) (hb : b < 4294967296) :
    ∃ g, Copied f g 12 (4096 * b) 30 ∧
      ((List.range (S5_NBLKS_PER_FNODE - 1)).forM (fun i => do
          let entry ← getFreeBlock i
          (getBlock b).setWord (i * 4) entry) >>= fun _ => do
        let last ← getLastFreeBlock
        (getBlock b).setWord ((S5_NBLKS_PER_FNODE - 1) * 4) last
        setLastFreeBlock b
        next) f = next (g.write 128 (packed b)) := by
  obtain ⟨g, hloop, hg⟩ := @copy_loop f 29 (fun i => do
      let entry ← getFreeBlock i
      (getBlock b).setWord (i * 4) entry) 12 (4096 * b) (by
    intro k hk g hfg
    rw [bind_ok _ (getFreeBlock_ok hk (by omega)), blockSetWord_ok (by omega) (word_lt _ _), Nat.mul_comm k 4])
    (by omega)
  have hgs := hg.grown
  refine ⟨_, hg.snoc (by omega), ?_⟩
  rw [fnode, bind_ok _ hloop, bind_ok _ (getLastFreeBlock_ok (by omega)),
    bind_ok _ (blockSetWord_ok (by decide) (word_lt _ _)), bind_ok _ (setLastFreeBlock_ok hb)]

theorem free_node (hs : 132 ≤ f.size) (hn : f.word 8 = 29) (h0 : b ≠ 0) (hb : b < S5_NULL) :
    ∃ g, (getBlock b).free f = .ok () g ∧ Spilled f g b := by
  have hb' : b < 4294967296 := lt_trans hb (by decide)
  obtain ⟨g', hg', hspill⟩ := spill_ok (setNfree 0) hs h0 hb'
  refine ⟨(g'.write 128 (packed b)).write 8 (packed 0), ?_, ?_⟩
  · unfold Block.free
    rw [bind_ok _ (getNfree_ok hs), hn, if_neg (by decide), blockno_getBlock]
    exact hspill.trans (setNfree_ok (by decide))
  have hsize := (@size_write_le g' 128 (packed b)).trans (@size_write_le (g'.write 128 (packed b)) 8 (packed 0))
  have hout : ∀ p, (p + 4 ≤ 8 ∨ 12 ≤ p) → (p + 4 ≤ 128 ∨ 132 ≤ p) →
      ((g'.write 128 (packed b)).write 8 (packed 0)).word p = g'.word p := by
    intro p h8 hp
    rw [word_packed (by omega), word_packed (by omega)]
  refine ⟨hg'.grown.trans hsize, (hg'.inside (by decide)).trans hsize, word_write_packed (by decide), ?_, ?_, ?_⟩
  · rw [word_packed (by omega), word_write_packed hb']
  · intro i hi
    rw [hout _ (by omega) (by omega), hg'.copied i hi]
  · intro p h8 h128 hp
    rw [hout p h8 h128, hg'.word_outside hp]

theorem Pushed.freeList {rest : List ℕ} (h : Pushed f g b n) (hs : 132 ≤ f.size) (hlt : n < 29)
    (hc : Chain f (f.word 128) rest) : FreeList g (b :: ((f.words 12 n).reverse ++ rest)) := by
  have hgrown := h.grown
  have hn := h.nfree
  refine ⟨by omega, by omega, rest, ?_, ?_⟩
  · rw [h.rest 128 (by omega) (by omega)]
    apply hc.frame h.grown
    intro c _ hc0 i _
    exact h.rest _ (by omega) (by omega)
  · have hwords : g.words 12 n = f.words 12 n := words_congr fun i _ => h.rest _ (by omega) (by omega)
    rw [hn, words_succ, h.entry, hwords, List.reverse_append]
    rfl

theorem Spilled.freeList {rest : List ℕ} (h : Spilled f g b) (hs : 132 ≤ f.size) (h0 : b ≠ 0) (hb : b < S5_NULL)
    (hmem : b ∉ rest) (hc : Chain f (f.word 128) rest) :
    FreeList g (b :: ((f.words 12 29).reverse ++ rest)) := by
  have hgrown := h.grown
  have hn := h.nfree
  have hwords : g.words (4096 * b) 29 = f.words 12 29 := words_congr fun i hi => h.node i (by omega)
  have hold : Chain g (f.word 128) rest := by
    apply hc.frame h.grown
    intro c hc hc0 i hi
    have hcb : c ≠ b := fun he => hmem (he ▸ hc)
    exact h.rest _ (by omega) (by omega) (by omega)
  have hnode : Chain g b (b :: (g.words (4096 * b) 29).reverse ++ rest) := by
    apply Chain.node (ne_of_lt hb) h0 h.inside
    rw [h.node 29 (by decide)]
    exact hold
  refine ⟨by omega, by omega, b :: (g.words (4096 * b) 29).reverse ++ rest, ?_, ?_⟩
  · rw [h.last]
    exact hnode
  · rw [hn, hwords]
    rfl

theorem FreeList.free (h : FreeList f L) (hmem : b ∉ L) (h0 : b ≠ 0) (hb : b < S5_NULL) :
    ∃ g, (getBlock b).free f = .ok () g ∧ FreeList g (b :: L) := by
  obtain ⟨rest, hc, rfl⟩ := h.chain
  rcases lt_or_eq_of_le h.nfree with hlt | hfull
  · obtain ⟨g, hg, hp⟩ := free_array h.stored rfl hlt hb
    exact ⟨g, hg, hp.freeList h.stored hlt hc⟩
  obtain ⟨g, hg, hp⟩ := free_node h.stored hfull h0 hb
  rw [hfull] at hmem ⊢
  exact ⟨g, hg, hp.freeList h.stored h0 hb (fun hr => hmem (List.mem_append_right _ hr)) hc⟩

/-! ### The kernel's `s5_free_block` -/

def superOf (f : ByteFile) : S5Super where
  magic := f.word 0
  freeInode := f.word 4
  nfree := f.word 8
  freeBlocks i := f.word (12 + 4 * i)
  rootInode := f.word 132
  numInodes := f.word 136
  version := f.word 140

def diskOf (f : ByteFile) : S5fs := ⟨superOf f, fun c i => f.word (4096 * c + 4 * i)⟩

theorem superOf_eq {s : S5Super} (hs : ∀ p, p + 4 ≤ 8 ∨ 132 ≤ p → p < 144 → g.word p = f.word p)
    (hn : g.word 8 = s.nfree) (hb : ∀ i : Fin 30, g.word (12 + 4 * i) = s.freeBlocks i)
    (he : s = { superOf f with nfree := s.nfree, freeBlocks := s.freeBlocks }) : superOf g = s := by
  rw [he]
  unfold superOf
  rw [hs 0 (by decide) (by decide), hs 4 (by decide) (by decide), hs 132 (by decide) (by decide),
    hs 136 (by decide) (by decide), hs 140 (by decide) (by decide), hn, funext hb]

/-- The kernel and the tool leave the same superblock and the same blocks. -/
theorem free_kernel (h : FreeList f L) (h0 : b ≠ 0) (hb : b < S5_NULL) (hg : (getBlock b).free f = .ok () g) :
    ∃ fs, s5FreeBlock (diskOf f) b = some fs ∧ superOf g = fs.super ∧
      ∀ c, c ≠ 0 → (diskOf g).page c = fs.page c := by
  have hnfree : (diskOf f).super.nfree ≤ 29 := h.nfree
  unfold s5FreeBlock
  rw [dif_pos (by rw [S5_NBLKS_PER_FNODE]; omega)]
  rcases lt_or_eq_of_le h.nfree with hlt | hfull
  · obtain ⟨g', hg', hp⟩ := free_array h.stored rfl hlt hb
    obtain rfl := (EStateM.Result.ok.inj (hg.symm.trans hg')).2
    rw [if_neg (by rw [fnode]; exact (ne_of_lt hlt).symm)]
    refine ⟨_, rfl, superOf_eq ?_ hp.nfree ?_ rfl, ?_⟩
    · intro p hp8 hp144
      exact hp.rest p (by omega) (by omega)
    · intro i
      dsimp only
      rw [update_apply]
      split_ifs with hi
      · rw [hi]
        exact hp.entry
      · have hne : i.val ≠ f.word 8 := fun he => hi (Fin.ext he)
        exact hp.rest _ (by omega) (by omega)
    · intro c hc
      funext i
      exact hp.rest _ (by omega) (by omega)
  obtain ⟨g', hg', hp⟩ := free_node h.stored hfull h0 hb
  obtain rfl := (EStateM.Result.ok.inj (hg.symm.trans hg')).2
  rw [if_pos (by rw [fnode]; exact hfull.symm)]
  refine ⟨_, rfl, superOf_eq ?_ hp.nfree ?_ rfl, ?_⟩
  · intro p hp8 hp144
    exact hp.rest p (by omega) (by omega) (by omega)
  · intro i
    dsimp only
    rw [update_apply]
    split_ifs with hi
    · rw [hi]
      exact hp.last
    · exact hp.rest _ (by omega) (by omega) (by omega)
  intro c hc
  funext i
  dsimp only
  rcases eq_or_ne c b with rfl | hcb
  · rw [update_self]
    split_ifs with hi
    · exact hp.node i hi
    · exact hp.rest _ (by omega) (by omega) (by omega)
  · rw [update_of_ne hcb]
    exact hp.rest _ (by omega) (by omega) (by omega)

/-! ### Every sequence of calls -/

inductive FreeOp
  | alloc
  | free (b : ℕ)

def left {α : Type} : EStateM.Result S5fsException ByteFile α → ByteFile
  | .ok _ g => g
  | .error _ g => g

/-- A block other than the superblock that is not free. -/
structure Allocated (f : ByteFile) (b : ℕ) : Prop where
  super : b ≠ 0
  number : b < S5_NULL
  used : ∀ L, FreeList f L → b ∉ L

def FreeStep (f : ByteFile) (op : FreeOp) (g : ByteFile) : Prop :=
  match op with
  | .alloc => g = left (allocBlock f)
  | .free b => Allocated f b ∧ g = left ((getBlock b).free f)

theorem freeList_step {op : FreeOp} (h : FreeList f L) (hL : L.Nodup) (hs : FreeStep f op g) :
    ∃ M, FreeList g M ∧ M.Nodup := by
  cases op with
  | alloc =>
    obtain rfl : g = left (allocBlock f) := hs
    cases L with
    | nil =>
      rw [alloc_empty h]
      exact ⟨[], h, hL⟩
    | cons b L =>
      obtain ⟨g, halloc, hg, -⟩ := h.alloc
      rw [halloc]
      exact ⟨L, hg, hL.of_cons⟩
  | free b =>
    obtain ⟨hb, rfl⟩ := hs
    obtain ⟨g, hfree, hg⟩ := h.free (hb.used L h) hb.super hb.number
    rw [hfree]
    exact ⟨b :: L, hg, hL.cons (hb.used L h)⟩

theorem free_list_is_stack (h : FreeList f L) (hL : L.Nodup) {ops : List FreeOp} (hrun : Runs.Run FreeStep f ops g) :
    ∃ M, FreeList g M ∧ M.Nodup ∧
      (M = [] → allocBlock g = .error .diskSpace g) ∧
      (∀ b N, M = b :: N → ∃ g', allocBlock g = .ok (getBlock b) g' ∧ FreeList g' N) ∧
      ∀ b, Allocated g b → ∃ g', (getBlock b).free g = .ok () g' ∧ FreeList g' (b :: M) ∧
        (∃ g'', allocBlock g' = .ok (getBlock b) g'' ∧ FreeList g'' M) ∧
        ∃ fs, s5FreeBlock (diskOf g) b = some fs ∧ superOf g' = fs.super ∧
          ∀ c, c ≠ 0 → (diskOf g').page c = fs.page c := by
  obtain ⟨M, hM, hnodup⟩ : ∃ M, FreeList g M ∧ M.Nodup := by
    refine Runs.Run.invariant (I := fun g => ∃ M, FreeList g M ∧ M.Nodup) ⟨L, h, hL⟩ ?_ hrun
    rintro f op g ⟨M, hM, hnodup⟩ hs
    exact freeList_step hM hnodup hs
  refine ⟨M, hM, hnodup, ?_, ?_, ?_⟩
  · rintro rfl
    exact alloc_empty hM
  · rintro b N rfl
    obtain ⟨g', halloc, hg', -⟩ := hM.alloc
    exact ⟨g', halloc, hg'⟩
  intro b hb
  obtain ⟨g', hfree, hg'⟩ := hM.free (hb.used M hM) hb.super hb.number
  obtain ⟨g'', halloc, hg'', -⟩ := hg'.alloc
  exact ⟨g', hfree, hg', ⟨g'', halloc, hg''⟩, free_kernel hM hb.super hb.number hfree⟩

/-- An image of three blocks, with blocks 2 and 1 free. -/
def twoFree : ByteFile where
  size := 12288
  byte i := if i = 12 then 1 else if i = 8 ∨ i = 16 then 2 else if 128 ≤ i ∧ i < 132 then 255 else 0
  ended i hi := by grind

theorem twoFree_list : FreeList twoFree [2, 1] :=
  ⟨by decide, by decide, [], .nil, rfl⟩

/-- Both blocks are allocated and the first is freed: it is the next to be allocated, and the other
one can be freed on top of it. -/
theorem free_list_is_stack_two : ∃ g, Runs.Run FreeStep twoFree [.alloc, .alloc, .free 2] g ∧ FreeList g [2] ∧
    (∃ g', allocBlock g = .ok (getBlock 2) g' ∧ FreeList g' []) ∧
      ∃ g', (getBlock 1).free g = .ok () g' ∧ FreeList g' [1, 2] := by
  have hallocated : ∀ {g L b}, FreeList g L → b ∉ L → b ≠ 0 → b < S5_NULL → Allocated g b :=
    fun hl hb h0 hnum => ⟨h0, hnum, fun L' hl' => hl.unique hl' ▸ hb⟩
  obtain ⟨g₁, h₁, hl₁, -⟩ := twoFree_list.alloc
  obtain ⟨g₂, h₂, hl₂, -⟩ := hl₁.alloc
  have hb₂ := hallocated (b := 2) hl₂ (by decide) (by decide) (by decide)
  obtain ⟨g₃, h₃, hl₃⟩ := hl₂.free (by decide) hb₂.super hb₂.number
  have hs₁ : FreeStep twoFree .alloc g₁ := (congrArg left h₁).symm
  have hs₂ : FreeStep g₁ .alloc g₂ := (congrArg left h₂).symm
  have hrun : Runs.Run FreeStep twoFree [.alloc, .alloc, .free 2] g₃ :=
    .snoc (.snoc (.snoc .nil hs₁) hs₂) ⟨hb₂, (congrArg left h₃).symm⟩
  obtain ⟨M, hM, -, -, hnext, hback⟩ := free_list_is_stack twoFree_list (by decide) hrun
  obtain rfl := hM.unique hl₃
  obtain ⟨g', hfree, hg', -⟩ := hback 1 (hallocated hl₃ (by decide) (by decide) (by decide))
  exact ⟨g₃, hrun, hl₃, hnext 2 [] rfl, g', hfree, hg'⟩

end Weenix.S5
