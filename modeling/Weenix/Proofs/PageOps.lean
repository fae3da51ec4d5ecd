import Weenix.Proofs.PageGroup

/-! What the operations on one group do, from a group in order to a group in order: flipping a
pair bit, splitting a block and taking the head of a free list. A single insertion or removal
goes with one flip, a change to both buddies with none. -/

namespace Weenix.Page.Pagegroup

open Cover List

variable {g g' : Pagegroup} {k i j a : ℕ}

/-! ### Bits -/

theorem index_lt {n : ℕ} (h : (j + 1) * 2 ^ k ≤ n) : j < n / 2 ^ k :=
  (Nat.le_div_iff_mul_le (by positivity)).2 h

/-- A flip within the used bits of one map changes no used bit of another map. -/
theorem bitCheck_bitFlip (hf : g.Frame) {k' : ℕ} (hk : 1 ≤ k) (hk8 : k < PAGE_NSIZES)
    (hk' : 1 ≤ k') (hk8' : k' < PAGE_NSIZES) (hi : (i + 1) * 2 ^ k ≤ g.npages)
    (hj : (j + 1) * 2 ^ k' ≤ g.npages) : (g.bitFlip k i).bitCheck k' j =
      if k' = k ∧ j = i then !g.bitCheck k' j else g.bitCheck k' j := by
  have hi' := index_lt hi
  have hj' := index_lt hj
  have haddr : 8 * g.map k' + j = 8 * g.map k + i ↔ k' = k ∧ j = i := by
    constructor
    · intro h
      rcases lt_trichotomy k' k with hlt | rfl | hlt
      · have := hf.maps k' k hk' hlt hk8
        omega
      · exact ⟨rfl, by omega⟩
      · have := hf.maps k k' hk hlt hk8'
        omega
    · rintro ⟨rfl, rfl⟩
      rfl
  simp only [bitFlip, bitCheck, Function.update_apply, haddr]
  split_ifs with h
  · obtain ⟨rfl, rfl⟩ := h
    rfl
  · rfl

theorem blockAddr_eq (g : Pagegroup) (k i : ℕ) : g.blockAddr k i = g.baseaddr + i * 2 ^ k * PAGE_SIZE := by
  rw [blockAddr, blockSize, Nat.mul_assoc]

theorem calculateIndex_page (hf : g.Frame) {p : ℕ} (hk : k < PAGE_NSIZES) (hp : p < g.npages) :
    calculateIndex g k (g.baseaddr + p * PAGE_SIZE) = .ok (p / 2 ^ k) := by
  have hdvd : 2 ^ k ∣ PAGE_SIZE := pow_dvd_pow 2 (by simp only [PAGE_NSIZES, PAGE_SHIFT] at *; omega)
  have hlt : p * PAGE_SIZE < g.npages * PAGE_SIZE :=
    Nat.mul_lt_mul_of_pos_right hp (by simp [PAGE_SIZE])
  have h1 : (g.baseaddr + p * PAGE_SIZE) % PAGE_SIZE = 0 :=
    Nat.mod_eq_zero_of_dvd (dvd_add hf.base (Dvd.intro_left p rfl))
  have h2 : p * PAGE_SIZE % 2 ^ k = 0 := Nat.mod_eq_zero_of_dvd (Dvd.dvd.mul_left hdvd p)
  have h3 : p * PAGE_SIZE / 2 ^ k / 2 ^ PAGE_SHIFT = p / 2 ^ k := by
    rw [Nat.div_div_eq_div_mul, Nat.mul_comm (2 ^ k), ← Nat.div_div_eq_div_mul]
    congr 1
    exact Nat.mul_div_cancel p (by simp [PAGE_SIZE])
  rw [calculateIndex, if_pos]
  · simp only [Nat.add_sub_cancel_left, Nat.shiftRight_eq_div_pow, h3]
  refine ⟨h1, hk, Nat.le_add_right _ _, ?_, by rwa [Nat.add_sub_cancel_left]⟩
  rw [hf.stop]
  omega

theorem first_lt (h : (i + 1) * 2 ^ k ≤ g.npages) : i * 2 ^ k < g.npages := by
  have : 0 < 2 ^ k := by positivity
  rw [Nat.add_mul] at h
  omega

theorem calculateIndex_block (hf : g.Frame) (hk : k < PAGE_NSIZES)
    (h : (i + 1) * 2 ^ k ≤ g.npages) : calculateIndex g k (g.blockAddr k i) = .ok i := by
  rw [blockAddr_eq, calculateIndex_page hf hk (first_lt h), Nat.mul_div_cancel _ (by positivity)]

theorem calculateIndex_pair (hf : g.Frame) (hk : k + 1 < PAGE_NSIZES) (h : (i + 1) * 2 ^ k ≤ g.npages) :
    calculateIndex g (k + 1) (g.blockAddr k i) = .ok (i / 2) := by
  rw [blockAddr_eq, calculateIndex_page hf hk (first_lt h), pow_succ, ← Nat.div_div_eq_div_mul,
    Nat.mul_div_cancel _ (by positivity)]

/-- The pair of a block of the group lies in the group: the area is whole. -/
theorem pair_le (hf : g.Frame) (hk : k + 1 < PAGE_NSIZES) (h : (i + 1) * 2 ^ k ≤ g.npages) :
    (i / 2 + 1) * 2 ^ (k + 1) ≤ g.npages := by
  obtain ⟨m, hm⟩ : 2 ^ (k + 1) ∣ g.npages :=
    (pow_dvd_pow 2 (by simp only [PAGE_NSIZES] at *; omega)).trans hf.whole
  have h1 : i + 1 ≤ 2 * m := by
    rw [hm, pow_succ, Nat.mul_assoc, Nat.mul_comm (2 ^ k)] at h
    exact Nat.le_of_mul_le_mul_right h (by positivity)
  rw [hm, Nat.mul_comm (2 ^ (k + 1))]
  exact Nat.mul_le_mul_right _ (by omega)

/-! ### Counting a pair -/

theorem pairCount_insertHead (ha : a = g.blockAddr k i) (k' j : ℕ) : (g.insertHead k a).pairCount k' j =
      g.pairCount k' j + if k' = k ∧ j = i / 2 then 1 else 0 := by
  subst ha
  by_cases hk : k' = k
  · subst hk
    have hinj : ∀ m, g.blockAddr k' i = g.blockAddr k' m ↔ i = m := fun m =>
      ⟨fun h => blockAddr_inj g h, fun h => h ▸ rfl⟩
    simp only [pairCount, sameFrame_insertHead.blockAddr, insertHead_same, count_cons,
      beq_iff_eq, hinj, true_and]
    split_ifs <;> omega
  · simp [pairCount, sameFrame_insertHead.blockAddr, insertHead_other hk, hk]

theorem pairCount_congr (hs : SameFrame g g') (hl : g'.freelist = g.freelist) (k j : ℕ) :
    g'.pairCount k j = g.pairCount k j := by
  simp only [pairCount, hs.blockAddr, hl]

theorem pairCount_setFree {l : List ℕ} (h : g.freelist k = g.blockAddr k i :: l) (k' j : ℕ) : g.pairCount k' j =
      (g.setFree k l).pairCount k' j + if k' = k ∧ j = i / 2 then 1 else 0 := by
  rw [← pairCount_insertHead (g := g.setFree k l) (i := i) rfl k' j,
    (sameFrame_setFree l).blockAddr, insertHead_setFree h]

/-- Flipping the bit of a block's pair repairs a group whose bit is wrong there only. -/
theorem core_of_flip (hf : g.Frame)
    (hp : ∀ k < PAGE_NSIZES, ∀ a ∈ g.freelist k, g.IsBlock k a) (hk : k < PAGE_NSIZES)
    (hi : (i + 1) * 2 ^ k ≤ g.npages)
    (hb : ∀ k' < PAGE_NSIZES - 1, ∀ j, (j + 1) * 2 ^ (k' + 1) ≤ g.npages →
      g.bitCheck (k' + 1) j =
        decide ((g.pairCount k' j + if k' = k ∧ j = i / 2 then 1 else 0) % 2 = 1)) :
    ∃ g', flipPair g k (g.blockAddr k i) = .ok g' ∧ g'.Core ∧ SameFrame g g' ∧
      g'.freelist = g.freelist := by
  by_cases hk7 : k < PAGE_NSIZES - 1
  · have hk8 : k + 1 < PAGE_NSIZES := by omega
    refine ⟨g.bitFlip (k + 1) (i / 2), ?_, ⟨sameFrame_bitFlip.frame hf, ?_, ?_⟩,
      sameFrame_bitFlip, rfl⟩
    · rw [flipPair, if_pos hk7, calculateIndex_pair hf hk8 hi]
      rfl
    · intro k' hk' a ha
      exact sameFrame_bitFlip.isBlock.2 (hp k' hk' a ha)
    intro k' hk' j hj
    rw [bitCheck_bitFlip hf (by omega) hk8 (by omega) (by omega) (pair_le hf hk8 hi) hj,
      hb k' hk' j hj, pairCount_congr sameFrame_bitFlip rfl]
    simp only [Nat.add_right_cancel_iff]
    split_ifs
    · rw [← decide_not]
      exact decide_eq_decide.2 (by omega)
    · rfl
  · refine ⟨g, ?_, ⟨hf, hp, ?_⟩, SameFrame.refl g, rfl⟩
    · rw [flipPair, if_neg hk7]
      rfl
    intro k' hk' j hj
    rw [hb k' hk' j hj, if_neg (by omega)]
    rfl

theorem Core.insert (hc : g.Core) (hk : k < PAGE_NSIZES) (ha : g.IsBlock k a) :
    ∃ g', flipPair (g.insertHead k a) k a = .ok g' ∧ g'.Core ∧ SameFrame g g' ∧
      g'.freelist = (g.insertHead k a).freelist := by
  obtain ⟨i, rfl, hi⟩ := ha
  have hp : ∀ k' < PAGE_NSIZES, ∀ b ∈ (g.insertHead k (g.blockAddr k i)).freelist k',
      (g.insertHead k (g.blockAddr k i)).IsBlock k' b := by
    intro k' hk' b hb
    by_cases h : k' = k
    · subst h
      rw [insertHead_same, mem_cons] at hb
      rcases hb with rfl | hb
      · exact ⟨i, rfl, hi⟩
      · exact hc.placed k' hk' b hb
    · rw [insertHead_other h] at hb
      exact hc.placed k' hk' b hb
  obtain ⟨g', h1, h2, h3, h4⟩ := core_of_flip (sameFrame_insertHead.frame hc.frame) hp hk
    (i := i) hi fun k' hk' j hj => by
      rw [pairCount_insertHead rfl]
      exact (hc.bits k' hk' j hj).trans (decide_eq_decide.2 (by split_ifs <;> omega))
  exact ⟨g', h1, h2, sameFrame_insertHead.trans h3, h4⟩

theorem Core.remove {l : List ℕ} (hc : g.Core) (hk : k < PAGE_NSIZES) (hl : g.freelist k = a :: l) :
    ∃ g', flipPair (g.setFree k l) k a = .ok g' ∧ g'.Core ∧ SameFrame g g' ∧
      g'.freelist = (g.setFree k l).freelist := by
  obtain ⟨i, rfl, hi⟩ := hc.placed k hk a (by simp [hl])
  have hp : ∀ k' < PAGE_NSIZES, ∀ b ∈ (g.setFree k l).freelist k', (g.setFree k l).IsBlock k' b := by
    intro k' hk' b hb
    by_cases h : k' = k
    · subst h
      rw [setFree_same] at hb
      exact hc.placed k' hk' b (by simp [hl, hb])
    · rw [setFree_other l h] at hb
      exact hc.placed k' hk' b hb
  obtain ⟨g', h1, h2, h3, h4⟩ := core_of_flip ((sameFrame_setFree l).frame hc.frame) hp hk
    (i := i) hi fun k' hk' j hj => by
      rw [← pairCount_setFree hl]
      exact hc.bits k' hk' j hj
  exact ⟨g', h1, h2, (sameFrame_setFree l).trans h3, h4⟩

/-! ### Splitting -/

theorem shiftLeft_block (k : ℕ) : (1 <<< k) <<< PAGE_SHIFT = blockSize k := by
  simp [Nat.shiftLeft_eq, blockSize, PAGE_SIZE]

theorem block_stop_le (hf : g.Frame) (hi : (i + 1) * 2 ^ k ≤ g.npages) :
    g.blockAddr k i + blockSize k ≤ g.endaddr := by
  have h := Nat.mul_le_mul_right PAGE_SIZE hi
  rw [Nat.add_mul, Nat.add_mul, Nat.one_mul] at h
  rw [blockAddr_eq, hf.stop, blockSize]
  omega

theorem covers_first (a k : ℕ) : Covers a (a, blockSize k) :=
  ⟨le_rfl, Nat.lt_add_of_pos_right (blockSize_pos k)⟩

/-- The halves of a free block are not themselves free. -/
theorem pairCount_of_free (hd : ∀ x, depth g.freeBlocks x ≤ 1) (hk : k + 1 < PAGE_NSIZES)
    (ha : g.blockAddr (k + 1) i ∈ g.freelist (k + 1)) : g.pairCount k i = 0 := by
  have key : ∀ h, g.blockAddr (k + 1) i ≤ h → h < g.blockAddr (k + 1) i + blockSize (k + 1) →
      h ∉ g.freelist k := by
    intro h h1 h2 hm
    have := eq_of_covers (pairwise_of_depth_le hd) (b := (g.blockAddr (k + 1) i, blockSize (k + 1)))
      (c := (h, blockSize k)) (mem_freeBlocks.2 ⟨k + 1, hk, ha, rfl⟩)
      (mem_freeBlocks.2 ⟨k, by omega, hm, rfl⟩) ⟨h1, h2⟩ (covers_first h k)
    exact absurd (blockSize_inj (Prod.ext_iff.1 this).2) (by omega)
  have hs := blockSize_succ k
  have hp := blockSize_pos k
  rw [pairCount, count_eq_zero.2, count_eq_zero.2]
  · rw [blockAddr_double_succ]
    exact key _ (by omega) (by omega)
  · rw [blockAddr_double]
    exact key _ le_rfl (by omega)

/-- Both halves of a block go on their list together and no bit changes. -/
theorem Core.insertPair (hc : g.Core) (hk : k + 1 < PAGE_NSIZES) (hi : (i + 1) * 2 ^ (k + 1) ≤ g.npages) :
    ((g.insertHead k (g.blockAddr k (2 * i))).insertHead k (g.blockAddr k (2 * i + 1))).Core := by
  have hs : SameFrame g
      ((g.insertHead k (g.blockAddr k (2 * i))).insertHead k (g.blockAddr k (2 * i + 1))) :=
    ⟨rfl, rfl, rfl⟩
  have h2 : (2 * i + 2) * 2 ^ k ≤ g.npages := by
    calc (2 * i + 2) * 2 ^ k = (i + 1) * (2 ^ k * 2) := by ring
      _ ≤ g.npages := hi
  have h1 : (2 * i + 1) * 2 ^ k ≤ g.npages :=
    (Nat.mul_le_mul_right _ (by omega)).trans h2
  refine ⟨hs.frame hc.frame, ?_, ?_⟩
  · intro k' hk' b hb
    by_cases h : k' = k
    · subst h
      simp only [insertHead_same, mem_cons] at hb
      rcases hb with rfl | rfl | hb
      · exact ⟨2 * i + 1, rfl, h2⟩
      · exact ⟨2 * i, rfl, h1⟩
      · exact hc.placed k' hk' b hb
    · rw [insertHead_other h, insertHead_other h] at hb
      exact hc.placed k' hk' b hb
  · intro k' hk' j hj
    have hb : g.blockAddr k (2 * i + 1) =
        (g.insertHead k (g.blockAddr k (2 * i))).blockAddr k (2 * i + 1) := rfl
    rw [pairCount_insertHead hb, pairCount_insertHead (i := 2 * i) rfl]
    refine (hc.bits k' hk' j hj).trans (decide_eq_decide.2 ?_)
    have e1 : (2 * i) / 2 = i := by omega
    have e2 : (2 * i + 1) / 2 = i := by omega
    split_ifs <;> omega

theorem freeBlocks_congr (h : g'.freelist = g.freelist) : g'.freeBlocks = g.freeBlocks := by
  rw [freeBlocks, h, freeBlocks]

/-- `__page_split` on a group in order succeeds, in particular its assertion about the
pair bit holds. -/
theorem pageSplitOnce_spec {rest : List ℕ} (hc : g.Core) (hd : ∀ x, depth g.freeBlocks x ≤ 1)
    (hk : k + 1 < PAGE_NSIZES) (hl : g.freelist (k + 1) = a :: rest) :
    ∃ g' i, a = g.blockAddr (k + 1) i ∧ pageSplitOnce g (k + 1) = .ok g' ∧ g'.Core ∧
      SameFrame g g' ∧ g'.freelist = (((g.setFree (k + 1) rest).insertHead k
        (g.blockAddr k (2 * i))).insertHead k (g.blockAddr k (2 * i + 1))).freelist := by
  obtain ⟨i, rfl, hi⟩ := hc.placed (k + 1) hk a (by simp [hl])
  obtain ⟨g1, hflip, hc1, hs1, hl1⟩ := hc.remove hk hl
  have hi1 : (i + 1) * 2 ^ (k + 1) ≤ g1.npages := by rwa [hs1.npages]
  have hbit : g1.bitCheck (k + 1) i = false := by
    rw [hc1.bits k (by omega) i hi1]
    have : g1.pairCount k i = g.pairCount k i := by
      simp only [pairCount, hs1.blockAddr, hl1, setFree_other rest (show k ≠ k + 1 by omega)]
    rw [this, pairCount_of_free hd hk (by simp [hl])]
    rfl
  have hbuddy : word (g.blockAddr (k + 1) i + (1 <<< k) <<< PAGE_SHIFT) =
      g.blockAddr k (2 * i + 1) := by
    have := block_stop_le hc.frame hi
    have := hc.frame.lt
    have := blockSize_succ k
    rw [shiftLeft_block, blockAddr_double_succ, word, Nat.mod_eq_of_lt (by omega)]
  refine ⟨_, i, rfl, ?_, hc1.insertPair hk hi1, ⟨hs1.base, hs1.stop, hs1.map⟩, ?_⟩
  · have hidx : calculateIndex g1 (k + 1) (g.blockAddr (k + 1) i) = .ok i := by
      rw [← hs1.blockAddr]
      exact calculateIndex_block hc1.frame hk hi1
    rw [pageSplitOnce, if_pos ⟨Nat.succ_pos k, hk⟩, hl]
    simp only [hflip, hidx, hbit, Nat.add_sub_cancel, hbuddy, bind, Except.bind,
      Bool.false_eq_true, if_false, pure, Except.pure, hs1.blockAddr, blockAddr_double]
  · simp only [insertHead, setFree, hs1.blockAddr] at hl1 ⊢
    rw [hl1]

/-- Popping the head of the list of order `m` leaves no two buddies free. -/
def LoneTail (g : Pagegroup) (m : ℕ) : Prop := (g.setFree m (g.freelist m).tail).Lone

theorem Lone.tail (h : g.Lone) (m : ℕ) : g.LoneTail m := by
  intro k hk j
  refine le_trans ?_ (h k hk j)
  simp only [pairCount, (sameFrame_setFree _).blockAddr]
  by_cases hkm : k = m
  · subst hkm
    rw [setFree_same]
    exact Nat.add_le_add ((tail_sublist _).count_le _) ((tail_sublist _).count_le _)
  · rw [setFree_other _ hkm]

/-- One round of the split loop: the free lists cover what they covered, and of the two
new buddies the one at the head is the next to go. -/
theorem split_round (hc : g.Core) (hd : ∀ x, depth g.freeBlocks x ≤ 1) (hk : k + 1 < PAGE_NSIZES)
    (hne : g.freelist (k + 1) ≠ []) (ht : g.LoneTail (k + 1)) :
    ∃ g', pageSplitOnce g (k + 1) = .ok g' ∧ g'.Core ∧ SameFrame g g' ∧
      (∀ x, depth g'.freeBlocks x = depth g.freeBlocks x) ∧ g'.freelist k ≠ [] ∧ g'.LoneTail k := by
  obtain ⟨a, rest, hl⟩ := exists_cons_of_ne_nil hne
  obtain ⟨g', i, rfl, hsplit, hc', hs', hl'⟩ := pageSplitOnce_spec hc hd hk hl
  have hlk : g'.freelist k =
      g.blockAddr k (2 * i + 1) :: g.blockAddr k (2 * i) :: g.freelist k := by
    rw [hl', insertHead_same, insertHead_same, setFree_other rest (by omega)]
  refine ⟨g', hsplit, hc', hs', ?_, by rw [hlk]; exact cons_ne_nil _ _, ?_⟩
  · intro x
    have hk' : k < PAGE_NSIZES := by omega
    rw [freeBlocks_congr hl', depth_perm (freeBlocks_setFree hk hl), blockSize_succ, depth_cut,
      depth_perm (freeBlocks_insertHead hk' _), depth_cons,
      depth_perm (freeBlocks_insertHead hk' _), depth_cons, depth_cons, depth_cons,
      blockAddr_double, blockAddr_double_succ]
    omega
  -- once the upper half is popped, the lower half is alone: its pair had no free half
  intro k' hk' j
  have hfree : (g'.setFree k (g'.freelist k).tail).freelist =
      ((g.setFree (k + 1) rest).insertHead k (g.blockAddr k (2 * i))).freelist := by
    funext m
    by_cases hm : m = k
    · subst hm
      rw [setFree_same, hlk, insertHead_same, setFree_other rest (by omega), tail_cons]
    · rw [setFree_other _ hm, hl', insertHead_other hm, insertHead_other hm]
  have h0 := ht k' hk' j
  rw [hl, tail_cons] at h0
  have ha : g.blockAddr k (2 * i) = (g.setFree (k + 1) rest).blockAddr k (2 * i) := rfl
  have hs : SameFrame ((g.setFree (k + 1) rest).insertHead k (g.blockAddr k (2 * i)))
      (g'.setFree k (g'.freelist k).tail) := ⟨hs'.base, hs'.stop, hs'.map⟩
  rw [pairCount_congr hs hfree, pairCount_insertHead ha]
  split_ifs with h
  · obtain ⟨rfl, rfl⟩ := h
    have e : 2 * i / 2 = i := by omega
    have h1 := pairCount_of_free hd hk (i := i) (by rw [hl]; exact mem_cons_self)
    have h2 := pairCount_setFree hl k' (2 * i / 2)
    rw [e] at h2 ⊢
    omega
  · exact h0

theorem splitDown_spec (order d : ℕ) (hk : order + d < PAGE_NSIZES) :
    ∀ {g : Pagegroup}, g.Core → (∀ x, depth g.freeBlocks x ≤ 1) → g.freelist (order + d) ≠ [] →
      g.LoneTail (order + d) → ∃ g', splitDown order d g = .ok g' ∧ g'.Core ∧ SameFrame g g' ∧
      (∀ x, depth g'.freeBlocks x = depth g.freeBlocks x) ∧ g'.freelist order ≠ [] ∧ g'.LoneTail order := by
  induction d with
  | zero => exact fun hc _ hne ht => ⟨_, rfl, hc, SameFrame.refl _, fun _ => rfl, hne, ht⟩
  | succ d ih =>
    intro g hc hd hne ht
    obtain ⟨g1, h1, hc1, hs1, hd1, hne1, ht1⟩ := split_round (k := order + d) hc hd hk hne ht
    obtain ⟨g', h2, hc', hs', hd', hne', ht'⟩ := ih (by omega) hc1
      (fun x => (hd1 x).trans_le (hd x)) hne1 ht1
    refine ⟨g', ?_, hc', hs1.trans hs', fun x => (hd' x).trans (hd1 x), hne', ht'⟩
    rw [splitDown, ← Nat.add_assoc, h1]
    exact h2

/-- Taking the head of a free list, as `_page_alloc_order` does. -/
theorem take_spec (hc : g.Core) (hk : k < PAGE_NSIZES) (hne : g.freelist k ≠ []) (ht : g.LoneTail k) :
    ∃ g' a rest, g.freelist k = a :: rest ∧ flipPair (g.setFree k rest) k a = .ok g' ∧ g'.Core ∧
      g'.Lone ∧ SameFrame g g' ∧ g.IsBlock k a ∧
      ∀ x, depth g.freeBlocks x = depth ((a, blockSize k) :: g'.freeBlocks) x := by
  obtain ⟨a, rest, hl⟩ := exists_cons_of_ne_nil hne
  obtain ⟨g', h1, hc', hs', hl'⟩ := hc.remove hk hl
  refine ⟨g', a, rest, hl, h1, hc', ?_, hs', hc.placed k hk a (by simp [hl]), ?_⟩
  · intro k' hk' j
    have := ht k' hk' j
    rw [hl, tail_cons] at this
    rwa [pairCount_congr (g := g.setFree k rest) ⟨hs'.base, hs'.stop, hs'.map⟩ hl']
  · intro x
    rw [depth_perm (freeBlocks_setFree hk hl), freeBlocks_congr hl']

end Weenix.Page.Pagegroup
