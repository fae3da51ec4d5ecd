import Weenix.Proofs.PageOps

/-! Joining and freeing in one group. A clear pair bit next to a free block means that
its buddy is free as well, so every round of the join loop takes both off the list
they are on and leaves at most the pair of the joined block to be looked at. -/

namespace Weenix.Page.Pagegroup

open Cover List

variable {g g' : Pagegroup} {k i j a : ℕ}

/-- Every round of `__page_join` from here on joins with a buddy that is on the free
list of the same order. -/
def JoinsFree : ℕ → Pagegroup → ℕ → ℕ → Prop
  | 0, _, _, _ => True
  | d + 1, g, order, addr =>
      ∀ index, calculateIndex g (order + 1) addr = .ok index →
        g.bitCheck (order + 1) index = false →
        buddyOf g order addr ∈ g.freelist order ∧
        ∀ g' addr', joinOnce g order addr = .ok (g', addr') → JoinsFree d g' (order + 1) addr'

/-! ### Removing a node -/

def Agree (g g' : Pagegroup) : Prop := ∀ k < PAGE_NSIZES, (g'.freelist k).Perm (g.freelist k)

theorem Agree.freeBlocks (h : Agree g g') : g'.freeBlocks.Perm g.freeBlocks :=
  List.Perm.flatMap_left _ fun k hk => (h k (mem_range.1 hk)).map _

theorem Agree.pairCount (h : Agree g g') (hs : SameFrame g g') (hk : k < PAGE_NSIZES) (j : ℕ) :
    g'.pairCount k j = g.pairCount k j := by
  simp only [Pagegroup.pairCount, hs.blockAddr, (h k hk).count_eq]

theorem listRemove_spec (hd : ∀ x, depth g.freeBlocks x ≤ 1) (hk : k < PAGE_NSIZES) (ha : a ∈ g.freelist k) :
    ∃ g', g.listRemove a = .ok g' ∧ SameFrame g g' ∧ g'.mem = g.mem ∧ Agree g (g'.insertHead k a) := by
  refine ⟨_, if_pos ⟨k, hk, ha⟩, ⟨rfl, rfl, rfl⟩, rfl, ?_⟩
  intro k' hk'
  by_cases h : k' = k
  · subst h
    rw [insertHead_same]
    exact (perm_cons_erase ha).symm
  rw [insertHead_other h]
  have : a ∉ g.freelist k' := fun ha' => h (order_unique hd hk' hk ha' ha)
  simp only [erase_of_not_mem this, List.Perm.refl]

/-- Both buddies leave their list together and no bit changes. -/
theorem removePair_spec {m : ℕ} (hc : g.Core) (hd : ∀ x, depth g.freeBlocks x ≤ 1)
    (hk : k < PAGE_NSIZES) {a b : ℕ}
    (hab : a = g.blockAddr k (2 * m) ∧ b = g.blockAddr k (2 * m + 1) ∨
      a = g.blockAddr k (2 * m + 1) ∧ b = g.blockAddr k (2 * m))
    (ha : a ∈ g.freelist k) (hb : b ∈ g.freelist k) :
    ∃ g1 g2, g.listRemove a = .ok g1 ∧ g1.listRemove b = .ok g2 ∧ SameFrame g g2 ∧ g2.Core ∧
      (∀ k' < PAGE_NSIZES, ∀ j,
        g.pairCount k' j = g2.pairCount k' j + if k' = k ∧ j = m then 2 else 0) ∧
      ∀ x, depth g.freeBlocks x = depth ((g.blockAddr (k + 1) m, blockSize (k + 1)) ::
        g2.freeBlocks) x := by
  have hne : b ≠ a := by
    rintro rfl
    rcases hab with ⟨h1, h2⟩ | ⟨h1, h2⟩ <;> · have := blockAddr_inj g (h1.symm.trans h2); omega
  obtain ⟨g1, h1, hs1, hm1, ha1⟩ := listRemove_spec hd hk ha
  have hd1 : ∀ x, depth g1.freeBlocks x ≤ 1 := by
    intro x
    have := hd x
    rw [← depth_perm ha1.freeBlocks, depth_perm (freeBlocks_insertHead hk a), depth_cons] at this
    omega
  have hb1 : b ∈ g1.freelist k := by
    have := (ha1 k hk).mem_iff.2 hb
    rw [insertHead_same, mem_cons] at this
    exact this.resolve_left hne
  obtain ⟨g2, h2, hs2, hm2, ha2⟩ := listRemove_spec hd1 hk hb1
  have hs := hs1.trans hs2
  have hcount : ∀ k' < PAGE_NSIZES, ∀ j,
      g.pairCount k' j = g2.pairCount k' j + if k' = k ∧ j = m then 2 else 0 := by
    intro k' hk' j
    have e0 : 2 * m / 2 = m := by omega
    have e1 : (2 * m + 1) / 2 = m := by omega
    rw [← ha1.pairCount (hs1.trans sameFrame_insertHead) hk' j]
    rcases hab with ⟨rfl, rfl⟩ | ⟨rfl, rfl⟩
    · rw [pairCount_insertHead (hs1.blockAddr _ _).symm,
        ← ha2.pairCount (hs2.trans sameFrame_insertHead) hk' j,
        pairCount_insertHead (hs.blockAddr _ _).symm, e0, e1]
      split_ifs <;> omega
    rw [pairCount_insertHead (hs1.blockAddr _ _).symm,
      ← ha2.pairCount (hs2.trans sameFrame_insertHead) hk' j,
      pairCount_insertHead (hs.blockAddr _ _).symm, e0, e1]
    split_ifs <;> omega
  refine ⟨g1, g2, h1, h2, hs, ⟨hs.frame hc.frame, ?_, ?_⟩, hcount, ?_⟩
  · intro k' hk' c hc'
    rw [hs.isBlock]
    apply hc.placed k' hk'
    have hinsert : ∀ {g : Pagegroup} {a}, c ∈ g.freelist k' → c ∈ (g.insertHead k a).freelist k' := by
      intro g a hg
      by_cases h : k' = k
      · subst h; rw [insertHead_same]; exact mem_cons_of_mem _ hg
      · rwa [insertHead_other h]
    exact (ha1 k' hk').mem_iff.1 (hinsert ((ha2 k' hk').mem_iff.1 (hinsert hc')))
  · intro k' hk' j hj
    have hbit : g2.bitCheck (k' + 1) j = g.bitCheck (k' + 1) j := by
      rw [bitCheck, bitCheck, hs.map, hm2, hm1]
    rw [hs.npages] at hj
    rw [hbit, hc.bits k' hk' j hj, hcount k' (by omega) j]
    exact decide_eq_decide.2 (by split_ifs <;> omega)
  · intro x
    rw [← depth_perm ha1.freeBlocks, depth_perm (freeBlocks_insertHead hk a), depth_cons,
      ← depth_perm ha2.freeBlocks, depth_perm (freeBlocks_insertHead hk b), blockSize_succ,
      depth_cut, depth_cons, depth_cons, depth_cons]
    rcases hab with ⟨rfl, rfl⟩ | ⟨rfl, rfl⟩
    · rw [blockAddr_double, blockAddr_double_succ]
    rw [blockAddr_double, blockAddr_double_succ]
    omega

/-! ### Joining -/

theorem buddyOf_block (hf : g.Frame) (hk : k + 1 < PAGE_NSIZES) (hi : (i + 1) * 2 ^ k ≤ g.npages) :
    buddyOf g k (g.blockAddr k i) =
      if i % 2 = 1 then g.blockAddr k (2 * (i / 2)) else g.blockAddr k (2 * (i / 2) + 1) := by
  have hidx : ((g.blockAddr k i - g.baseaddr) >>> PAGE_SHIFT) >>> k = i := by
    rw [blockAddr_eq, Nat.add_sub_cancel_left, Nat.shiftRight_eq_div_pow,
      Nat.shiftRight_eq_div_pow]
    change i * 2 ^ k * PAGE_SIZE / PAGE_SIZE / 2 ^ k = i
    rw [Nat.mul_div_cancel _ (by simp [PAGE_SIZE]), Nat.mul_div_cancel _ (by positivity)]
  have hle := block_stop_le hf hi
  have hpair := block_stop_le hf (pair_le hf hk hi)
  have hlt := hf.lt
  simp only [buddyOf, hidx, shiftLeft_block]
  split_ifs with h
  · have e : g.blockAddr k i = g.blockAddr k (2 * (i / 2)) + blockSize k := by
      rw [show i = 2 * (i / 2) + 1 by omega, blockAddr_double_succ, ← blockAddr_double]
      congr 2
      omega
    rw [wordSub, e]
    omega
  have e : g.blockAddr k i = g.blockAddr k (2 * (i / 2)) := by
    congr 1
    omega
  rw [word, e, blockAddr_double_succ, ← blockAddr_double]
  exact Nat.mod_eq_of_lt (by omega)

/-- Only the pair of the block of order `k` and index `i` may have both buddies free. -/
def LoneBut (g : Pagegroup) (k i : ℕ) : Prop :=
  ∀ k' < PAGE_NSIZES - 1, ∀ j, k' ≠ k ∨ j ≠ i / 2 → g.pairCount k' j ≤ 1

theorem count_pair (g : Pagegroup) (k i : ℕ) :
    g.pairCount k (i / 2) = (g.freelist k).count (g.blockAddr k i) +
      (g.freelist k).count
        (if i % 2 = 1 then g.blockAddr k (2 * (i / 2)) else g.blockAddr k (2 * (i / 2) + 1)) := by
  split_ifs with h
  · rw [pairCount, Nat.add_comm]
    congr 3
    omega
  rw [pairCount]
  congr 3
  omega

/-- One round of the join loop, entered because the pair bit is clear. -/
theorem join_round (hc : g.Core) (hd : ∀ x, depth g.freeBlocks x ≤ 1) (hk : k + 1 < PAGE_NSIZES)
    (hi : (i + 1) * 2 ^ k ≤ g.npages) (ha : g.blockAddr k i ∈ g.freelist k) (hl : g.LoneBut k i)
    (hbit : g.bitCheck (k + 1) (i / 2) = false) : buddyOf g k (g.blockAddr k i) ∈ g.freelist k ∧
    ∃ g', joinOnce g k (g.blockAddr k i) = .ok (g', g'.blockAddr (k + 1) (i / 2)) ∧ g'.Core ∧
      SameFrame g g' ∧ (∀ x, depth g'.freeBlocks x = depth g.freeBlocks x) ∧
      g'.blockAddr (k + 1) (i / 2) ∈ g'.freelist (k + 1) ∧ g'.LoneBut (k + 1) (i / 2) := by
  have hk' : k < PAGE_NSIZES := by omega
  have hbuddy := buddyOf_block hc.frame hk hi
  have hpair := pair_le hc.frame hk hi
  have hmem : buddyOf g k (g.blockAddr k i) ∈ g.freelist k := by
    rw [hc.bits k (by omega) _ hpair, decide_eq_false_iff_not, count_pair, ← hbuddy] at hbit
    have h1 := count_le_one hd hk' (g.blockAddr k i)
    have h2 := count_pos_iff.2 ha
    exact count_pos_iff.1 (by omega)
  refine ⟨hmem, ?_⟩
  obtain ⟨g1, g2, h1, h2, hs2, hc2, hcount, hdepth⟩ :=
    removePair_spec (m := i / 2) hc hd hk' (a := g.blockAddr k i)
      (b := buddyOf g k (g.blockAddr k i)) (by
        rw [hbuddy]
        split_ifs with h
        · exact .inr ⟨by congr 1; omega, rfl⟩
        · exact .inl ⟨by congr 1; omega, rfl⟩) ha hmem
  have hmin : min (g.blockAddr k i) (buddyOf g k (g.blockAddr k i)) =
      g2.blockAddr (k + 1) (i / 2) := by
    rw [hs2.blockAddr, ← blockAddr_double, hbuddy]
    split_ifs with h
    · exact min_eq_right (by simp only [blockAddr]; gcongr; omega)
    rw [show g.blockAddr k i = g.blockAddr k (2 * (i / 2)) by congr 1; omega]
    exact min_eq_left (by simp only [blockAddr]; gcongr; omega)
  obtain ⟨g', h3, hc', hs', hl'⟩ := hc2.insert hk
    (a := g2.blockAddr (k + 1) (i / 2)) ⟨i / 2, rfl, by rwa [hs2.npages]⟩
  refine ⟨g', ?_, hc', hs2.trans hs', ?_, ?_, ?_⟩
  · rw [hs'.blockAddr]
    simp only [joinOnce, h1, h2, h3, hmin, bind, Except.bind, pure, Except.pure]
  · intro x
    rw [freeBlocks_congr hl', depth_perm (freeBlocks_insertHead hk _), hdepth, hs2.blockAddr]
  · rw [hl', insertHead_same, hs'.blockAddr]
    exact mem_cons_self
  intro k' hk7 j hne
  rw [pairCount_congr (g := g2.insertHead (k + 1) (g2.blockAddr (k + 1) (i / 2)))
    ⟨hs'.base, hs'.stop, hs'.map⟩ hl', pairCount_insertHead rfl, if_neg (by tauto)]
  have hcnt := hcount k' (by omega) j
  by_cases h : k' = k ∧ j = i / 2
  · rw [if_pos h] at hcnt
    obtain ⟨rfl, rfl⟩ := h
    rw [count_pair] at hcnt
    have e1 := count_le_one hd hk' (g.blockAddr k' i)
    have e2 := count_le_one hd hk' (if i % 2 = 1 then g.blockAddr k' (2 * (i / 2))
      else g.blockAddr k' (2 * (i / 2) + 1))
    omega
  · have := hl k' hk7 j (by tauto)
    omega

/-- The whole join loop: it ends with no two buddies free, and it never joins with a
block that is not on the free list of the order it is at. -/
theorem pageJoin_spec (d k : ℕ) (hk : k + d = PAGE_NSIZES - 1) :
    ∀ {g : Pagegroup} {i : ℕ}, g.Core → (∀ x, depth g.freeBlocks x ≤ 1) →
      (i + 1) * 2 ^ k ≤ g.npages → g.blockAddr k i ∈ g.freelist k → g.LoneBut k i →
    JoinsFree d g k (g.blockAddr k i) ∧
    ∃ g', pageJoin d g k (g.blockAddr k i) = .ok g' ∧ g'.Core ∧ g'.Lone ∧ SameFrame g g' ∧
      ∀ x, depth g'.freeBlocks x = depth g.freeBlocks x := by
  induction d generalizing k with
  | zero =>
    intro g i hc hd hi ha hl
    refine ⟨trivial, g, rfl, hc, fun k' hk' j => hl k' hk' j (.inl (by omega)),
      SameFrame.refl g, fun _ => rfl⟩
  | succ d ih =>
    intro g i hc hd hi ha hl
    have hk8 : k + 1 < PAGE_NSIZES := by omega
    have hidx := calculateIndex_pair hc.frame hk8 hi
    by_cases hbit : g.bitCheck (k + 1) (i / 2) = true
    · refine ⟨?_, g, ?_, hc, ?_, SameFrame.refl g, fun _ => rfl⟩
      · intro index h hb
        rw [hidx, Except.ok.injEq] at h
        rw [← h, hbit] at hb
        cases hb
      · simp only [pageJoin, hidx, hbit, bind, Except.bind, if_true, pure, Except.pure]
      -- the bit is set, so exactly one buddy of the pair is free
      intro k' hk' j
      by_cases h : k' = k ∧ j = i / 2
      · obtain ⟨rfl, rfl⟩ := h
        rw [hc.bits k' hk' _ (pair_le hc.frame hk8 hi), decide_eq_true_eq] at hbit
        have h8 : k' < PAGE_NSIZES := by omega
        have e1 := count_le_one hd h8 (g.blockAddr k' (2 * (i / 2)))
        have e2 := count_le_one hd h8 (g.blockAddr k' (2 * (i / 2) + 1))
        rw [pairCount] at hbit ⊢
        omega
      · exact hl k' hk' j (by tauto)
    · rw [Bool.not_eq_true] at hbit
      obtain ⟨hmem, g1, hjoin, hc1, hs1, hd1, ha1, hl1⟩ := join_round hc hd hk8 hi ha hl hbit
      obtain ⟨hj, g', h1, h2, h3, h4, h5⟩ := ih (k + 1) (by omega) hc1
        (fun x => (hd1 x).trans_le (hd x))
        (by rw [hs1.npages]; exact pair_le hc.frame hk8 hi) ha1 hl1
      refine ⟨?_, g', ?_, h2, h3, hs1.trans h4, fun x => (h5 x).trans (hd1 x)⟩
      · intro index _ _
        refine ⟨hmem, fun g2 addr h => ?_⟩
        rw [hjoin, Except.ok.injEq, Prod.mk.injEq] at h
        rw [← h.1, ← h.2]
        exact hj
      · simp only [pageJoin, hidx, hbit, hjoin, bind, Except.bind, Bool.false_eq_true, if_false]
        exact h1

/-! ### Freeing -/

/-- The joins that freeing a block in this group leads to. -/
def FreesOnto (g : Pagegroup) (order addr : ℕ) : Prop :=
  ∀ g', flipPair (g.insertHead order addr) order addr = .ok g' →
    JoinsFree (PAGE_NSIZES - 1 - order) g' order addr

theorem freeInGroup_spec (hc : g.Core) (hl : g.Lone) (hk : k < PAGE_NSIZES) (ha : g.IsBlock k a)
    (hd : ∀ x, depth ((a, blockSize k) :: g.freeBlocks) x ≤ 1) :
    FreesOnto g k a ∧ ∃ g', freeInGroup g k a = .ok g' ∧ g'.Core ∧ g'.Lone ∧ SameFrame g g' ∧
      ∀ x, depth g'.freeBlocks x = depth ((a, blockSize k) :: g.freeBlocks) x := by
  obtain ⟨g1, h1, hc1, hs1, hl1⟩ := hc.insert hk ha
  obtain ⟨i, rfl, hi⟩ := ha
  have hdepth : ∀ x, depth g1.freeBlocks x =
      depth ((g.blockAddr k i, blockSize k) :: g.freeBlocks) x := fun x => by
    rw [freeBlocks_congr hl1, depth_perm (freeBlocks_insertHead hk _)]
  have hbut : g1.LoneBut k i := by
    intro k' hk' j hne
    rw [pairCount_congr (g := g.insertHead k (g.blockAddr k i)) ⟨hs1.base, hs1.stop, hs1.map⟩ hl1,
      pairCount_insertHead rfl, if_neg (by tauto)]
    exact hl k' hk' j
  have hadd : g1.blockAddr k i = g.blockAddr k i := hs1.blockAddr k i
  obtain ⟨hj, g', h2, hc', hlone, hs', hd'⟩ := pageJoin_spec (PAGE_NSIZES - 1 - k) k (by omega)
    hc1 (fun x => (hdepth x).trans_le (hd x)) (i := i) (by rwa [hs1.npages])
    (by rw [hl1, insertHead_same, hadd]; exact mem_cons_self) hbut
  rw [hadd] at hj h2
  refine ⟨fun g2 h => ?_, g', ?_, hc', hlone, hs1.trans hs', fun x => (hd' x).trans (hdepth x)⟩
  · rw [h1, Except.ok.injEq] at h
    exact h ▸ hj
  by_cases hk7 : k < PAGE_NSIZES - 1
  · simp only [freeInGroup, if_pos hk7, h1, bind, Except.bind]
    exact h2
  have hz : PAGE_NSIZES - 1 - k = 0 := by omega
  rw [flipPair, if_neg hk7] at h1
  rw [hz] at h2
  simp only [freeInGroup, if_neg hk7]
  rw [h1]
  exact h2

end Weenix.Page.Pagegroup
