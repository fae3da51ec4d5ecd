import Weenix.Lib.Exec
import Weenix.Proofs.PageRun

/-! Joining is complete. When nothing is live the free blocks alone tile the area, and a
smallest free block below the largest order would have a buddy that only another block
of the same order can cover; so there is none, and the lists are the initial ones. -/

namespace Weenix.Page

open Cover Exec Pagegroup Runs List

namespace Pagegroup

variable {g : Pagegroup} {k k' i m : ℕ}

/-- A block of a larger order holds both buddies of a pair or neither. -/
theorem covers_pair (hk : k < k') {i' : ℕ} (hpair : i / 2 = i' / 2)
    (h : Covers (g.blockAddr k i') (g.blockAddr k' m, blockSize k')) :
    Covers (g.blockAddr k i) (g.blockAddr k' m, blockSize k') := by
  obtain ⟨d, rfl⟩ : ∃ d, k' = k + 1 + d := ⟨k' - (k + 1), by omega⟩
  have hsize : blockSize (k + 1 + d) = 2 * 2 ^ d * blockSize k := by
    rw [blockSize, blockSize, pow_add, pow_succ]
    ring
  have hpos := blockSize_pos k
  obtain ⟨h1, h2⟩ := h
  simp only [blockAddr, hsize] at h1 h2 ⊢
  have e1 : m * (2 * 2 ^ d) ≤ i' := by
    refine Nat.le_of_mul_le_mul_right (c := blockSize k) ?_ hpos
    rw [Nat.mul_assoc]
    omega
  have e2 : i' < (m + 1) * (2 * 2 ^ d) := by
    refine Nat.lt_of_mul_lt_mul_right (a := blockSize k) ?_
    rw [Nat.add_mul, Nat.add_mul, Nat.one_mul, Nat.mul_assoc]
    omega
  have e3 : m * (2 * 2 ^ d) = 2 * (m * 2 ^ d) := by ring
  have e4 : (m + 1) * (2 * 2 ^ d) = 2 * ((m + 1) * 2 ^ d) := by ring
  have e5 : m * (2 * 2 ^ d) ≤ i := by omega
  have e6 : i + 1 ≤ (m + 1) * (2 * 2 ^ d) := by omega
  have f1 := Nat.mul_le_mul_right (blockSize k) e5
  have f2 := Nat.mul_le_mul_right (blockSize k) e6
  rw [Nat.mul_assoc] at f1
  rw [Nat.add_mul, Nat.add_mul, Nat.add_mul, Nat.one_mul, Nat.one_mul, Nat.mul_assoc] at f2
  simp only [Covers]
  omega

/-- One point of a block of the same order determines the block. -/
theorem eq_of_covers_first (h : Covers (g.blockAddr k i) (g.blockAddr k m, blockSize k)) : i = m := by
  obtain ⟨h1, h2⟩ := h
  simp only [blockAddr] at h1 h2
  have hpos := blockSize_pos k
  have e1 : m ≤ i := Nat.le_of_mul_le_mul_right (c := blockSize k) (by omega) hpos
  have e2 : i < m + 1 := by
    refine Nat.lt_of_mul_lt_mul_right (a := blockSize k) ?_
    rw [Nat.add_mul, Nat.one_mul]
    omega
  omega

/-- A block whose every point is free lies in a free block that is as large, by induction on the order: the two
halves lie in free blocks, and are not both free themselves. -/
theorem exists_large (hc : g.Core) (hl : g.Lone) (hk : k < PAGE_NSIZES)
    (hd : ∀ x, Covers x (g.blockAddr k i, blockSize k) → ∃ b ∈ g.freeBlocks, Covers x b) :
    ∃ k' < PAGE_NSIZES, k ≤ k' ∧ ∃ m, g.blockAddr k' m ∈ g.freelist k' ∧
      Covers (g.blockAddr k i) (g.blockAddr k' m, blockSize k') := by
  induction k generalizing i with
  | zero =>
    obtain ⟨b, hb, hcov⟩ := hd _ (covers_first _ 0)
    obtain ⟨k', hk', ha, hs⟩ := mem_freeBlocks.1 hb
    obtain ⟨m, hm, -⟩ := hc.placed k' hk' _ ha
    exact ⟨k', hk', Nat.zero_le _, m, hm ▸ ha, hm ▸ hs ▸ hcov⟩
  | succ k ih =>
    have hsize := blockSize_succ k
    obtain ⟨k1, hk1, hle1, m1, hm1, hcov1⟩ := ih (i := 2 * i) (by omega) fun x hx => hd x (by
      rw [blockAddr_double] at hx
      simp only [Covers] at hx ⊢
      omega)
    obtain ⟨k2, hk2, hle2, m2, hm2, hcov2⟩ := ih (i := 2 * i + 1) (by omega) fun x hx => hd x (by
      rw [blockAddr_double_succ] at hx
      simp only [Covers] at hx ⊢
      omega)
    rw [← blockAddr_double]
    rcases Nat.lt_or_eq_of_le hle1 with hlt | rfl
    · exact ⟨k1, hk1, hlt, m1, hm1, hcov1⟩
    rcases Nat.lt_or_eq_of_le hle2 with hlt | rfl
    · exact ⟨k2, hk2, hlt, m2, hm2, covers_pair hlt (by omega) hcov2⟩
    have hlone := hl k (by omega) i
    have h1 := count_pos_iff.2 (eq_of_covers_first hcov1 ▸ hm1)
    have h2 := count_pos_iff.2 (eq_of_covers_first hcov2 ▸ hm2)
    rw [pairCount] at hlone
    omega

section
variable (hc : g.Core) (hl : g.Lone) (hle : ∀ x, depth g.freeBlocks x ≤ 1)
  (hd : ∀ x, g.baseaddr ≤ x → x < g.endaddr → ∃ b ∈ g.freeBlocks, Covers x b)
include hc hd

theorem block_free (hi : (i + 1) * 2 ^ k ≤ g.npages) (x : ℕ) (hx : Covers x (g.blockAddr k i, blockSize k)) :
    ∃ b ∈ g.freeBlocks, Covers x b :=
  hd x ((Nat.le_add_right _ _).trans hx.1) (hx.2.trans_le (block_stop_le hc.frame hi))

include hl hle

/-- Below the largest order no block is free: the pair it belongs to lies in a free block. -/
theorem small_empty : ∀ k < PAGE_NSIZES - 1, g.freelist k = [] := by
  intro k hk
  refine eq_nil_iff_forall_not_mem.2 fun a ha => ?_
  obtain ⟨i, rfl, hi⟩ := hc.placed k (by omega) a ha
  obtain ⟨k', hk', hlt, m, hm, hcov⟩ := exists_large hc hl (by omega)
    (block_free hc hd (pair_le hc.frame (by omega) hi))
  rw [← blockAddr_double] at hcov
  have heq := eq_of_covers (pairwise_of_depth_le hle) (mem_freeBlocks.2 ⟨k, by omega, ha, rfl⟩)
    (mem_freeBlocks.2 ⟨k', hk', hm, rfl⟩) (covers_first _ k) (covers_pair hlt (by omega) hcov)
  have := blockSize_inj (Prod.ext_iff.1 heq).2
  omega

theorem large_full :
    (g.freelist (PAGE_NSIZES - 1)).Perm
      ((List.range (g.npages / 2 ^ (PAGE_NSIZES - 1))).map
        fun i => g.baseaddr + i * blockSize (PAGE_NSIZES - 1)).reverse := by
  have hmax : PAGE_NSIZES - 1 < PAGE_NSIZES := by decide
  have hnodup : ((List.range (g.npages / 2 ^ (PAGE_NSIZES - 1))).map
      fun i => g.baseaddr + i * blockSize (PAGE_NSIZES - 1)).reverse.Nodup := by
    rw [nodup_reverse]
    exact nodup_range.map fun i j h => g.blockAddr_inj h
  refine (perm_ext_iff_of_nodup (nodup_freelist hle hmax) hnodup).2 fun a => ?_
  rw [mem_reverse, mem_map]
  constructor
  · intro ha
    obtain ⟨i, rfl, hi⟩ := hc.placed _ hmax a ha
    exact ⟨i, mem_range.2 ((Nat.le_div_iff_mul_le (by positivity)).2 hi), rfl⟩
  rintro ⟨i, hi, rfl⟩
  have hi' : (i + 1) * 2 ^ (PAGE_NSIZES - 1) ≤ g.npages :=
    (Nat.le_div_iff_mul_le (by positivity)).1 (mem_range.1 hi)
  obtain ⟨k', hk', hmax', m, hm, hcov⟩ := exists_large hc hl hmax (block_free hc hd hi')
  obtain rfl : k' = PAGE_NSIZES - 1 := by omega
  exact eq_of_covers_first hcov ▸ hm

end

end Pagegroup

/-! ### Whole runs -/

def SameLists (g₀ g : Pagegroup) : Prop :=
  ∀ k < PAGE_NSIZES, (g.freelist k).Perm (g₀.freelist k)

/-- A group in order whose area is free has the lists with which it was created. -/
theorem sameLists_fresh {g0 g : Pagegroup} (hf : Fresh g0) (hbase : g.baseaddr = g0.baseaddr)
    (hstop : g.endaddr = g0.endaddr) (hc : g.Core) (hl : g.Lone) (hle : ∀ x, depth g.freeBlocks x ≤ 1)
    (hd : ∀ x, g.baseaddr ≤ x → x < g.endaddr → ∃ b ∈ g.freeBlocks, Covers x b) : SameLists g0 g := by
  have hpages : g.npages = g0.npages := by rw [npages, npages, hbase, hstop]
  intro k hk
  rcases Nat.lt_or_ge k (PAGE_NSIZES - 1) with hk' | hk'
  · obtain ⟨m, hm⟩ := hc.frame.whole
    rw [small_empty hc hl hle hd k hk', hf.small k hk', ← hpages, hm, Nat.testBit_two_pow_mul,
      decide_eq_false (by omega), Bool.false_and]
    exact List.Perm.refl _
  · obtain rfl : k = PAGE_NSIZES - 1 := by omega
    rw [hf.large, ← hpages, ← hbase]
    exact large_full hc hl hle hd

section
variable {F : List (ℕ × ℕ)} {s : Sys} {g : Pagegroup} {x : ℕ}

theorem SysInv.depth_le (h : SysInv F s) (hg : g ∈ s.st.groups) (x : ℕ) : depth g.freeBlocks x ≤ 1 := by
  obtain ⟨l, r, hlr⟩ := append_of_mem hg
  have := h.tiles.depth_le x
  rw [blocks, depth_append, hlr] at this
  have := depth_cursor ⟨l, g, r⟩ x
  simp only [Cursor.groups] at this
  omega

/-- What is not live is free in its group. -/
theorem SysInv.free (h : SysInv F s) (hg : g ∈ s.st.groups) (h1 : g.baseaddr ≤ x) (h2 : x < g.endaddr)
    (hlive : ∀ b ∈ liveBlocks s.live, ¬ Covers x b) : ∃ b ∈ g.freeBlocks, Covers x b := by
  obtain ⟨b, hb, hcov⟩ := h.tiles.exists_cover ⟨g, hg, h1, h2⟩
  rcases mem_append.1 hb with hb | hb
  swap
  · exact absurd hcov (hlive b hb)
  obtain ⟨g', hg', hbg⟩ := mem_flatMap.1 hb
  obtain ⟨k, hk, ha, hsize⟩ := mem_freeBlocks.1 hbg
  have hc := (h.core g' hg').1
  have harea := hc.isBlock_area (hc.placed k hk _ ha)
  rw [← hsize] at harea
  obtain rfl : g = g' := h.group_unique hg hg' ⟨h1, h2⟩ ⟨harea.1.trans hcov.1, hcov.2.trans_le harea.2⟩
  exact ⟨b, hbg, hcov⟩

end

theorem forall₂_sameLists {gs gs0 : List Pagegroup} (ha : areas gs = areas gs0)
    (h : ∀ g ∈ gs, ∀ g0 ∈ gs0, g.baseaddr = g0.baseaddr → g.endaddr = g0.endaddr → SameLists g0 g) :
    List.Forall₂ SameLists gs0 gs := by
  induction gs0 generalizing gs with
  | nil =>
    rw [areas, areas, map_nil, map_eq_nil_iff] at ha
    rw [ha]
    exact List.Forall₂.nil
  | cons g0 gs0 ih =>
    cases gs with
    | nil => simp [areas] at ha
    | cons g gs =>
      simp only [areas, map_cons, List.cons.injEq, Prod.mk.injEq] at ha
      refine List.Forall₂.cons (h g mem_cons_self g0 mem_cons_self ha.1.1 ha.1.2) ?_
      exact ih ha.2 fun x hx y hy => h x (mem_cons_of_mem _ hx) y (mem_cons_of_mem _ hy)

/-- With ranges that yield whole numbers of largest blocks, no two buddies are ever both
free, no call ever stops on the pair bit or on any other assertion, and once nothing is
live every free list is the one the group was created with, and only the lists of the
largest order hold anything. -/
theorem coalescing_complete (ranges : List Range) (ha : ranges.Pairwise Range.Apart)
    (hw : ∀ r ∈ ranges, 2 ^ (PAGE_NSIZES - 1) ∣ r.usablePages) (mem : ℕ → Bool) (ops : List Op)
    (s : Sys) (h : Run MatchedStep (boot mem ranges) ops s) : (∀ g ∈ s.st.groups, ∀ k < PAGE_NSIZES - 1, ∀ j,
      ¬ (g.blockAddr k (2 * j) ∈ g.freelist k ∧ g.blockAddr k (2 * j + 1) ∈ g.freelist k)) ∧
    (∀ op, Matched s op → step s op = .error .panic ∨ ∃ s', step s op = .ok s') ∧
    (s.live = [] → List.Forall₂ SameLists (boot mem ranges).st.groups s.st.groups ∧
      ∀ g ∈ s.st.groups, ∀ k < PAGE_NSIZES - 1, g.freelist k = []) := by
  have hinv := sysInv_run hw ha h
  refine ⟨fun g hg k hk j hfree => ?_, fun op hm => ?_, fun hlive => ?_⟩
  · have hlone := (hinv.core g hg).2 k hk j
    have h1 := count_pos_iff.2 hfree.1
    have h2 := count_pos_iff.2 hfree.2
    rw [pairCount] at hlone
    omega
  · obtain ⟨-, hp | ⟨s', hs', -⟩⟩ := step_spec hinv op hm
    · exact .inl hp
    · exact .inr ⟨s', hs'⟩
  rw [boot_groups]
  have hd : ∀ g ∈ s.st.groups, ∀ x, g.baseaddr ≤ x → x < g.endaddr → ∃ b ∈ g.freeBlocks, Covers x b :=
    fun g hg x h1 h2 => hinv.free hg h1 h2 (by simp [hlive, liveBlocks])
  refine ⟨forall₂_sameLists hinv.areas fun g hg g₀ hg₀ hbase hstop => ?_, fun g hg => ?_⟩
  · obtain ⟨hc, hl⟩ := hinv.core g hg
    exact sameLists_fresh (fresh_of_mem hg₀) hbase hstop hc hl (hinv.depth_le hg) (hd g hg)
  · obtain ⟨hc, hl⟩ := hinv.core g hg
    exact small_empty hc hl (hinv.depth_le hg) (hd g hg)

def range128 : Range := ⟨0x100000, 0x181000, by decide, by decide⟩

theorem range128_whole : ∀ r ∈ [range128], 2 ^ (PAGE_NSIZES - 1) ∣ r.usablePages :=
  forall_mem_singleton.2 (by decide +kernel)

/-- A run that splits 128 usable pages down to a single page and frees that page again. -/
theorem coalescing_128_pages :
    ∃ s, Run MatchedStep (boot (fun _ => false) [⟨0x100000, 0x181000, by decide, by decide⟩])
        [.alloc [], .free 0x17f000] s ∧ s.live = [] ∧
      ∀ g ∈ s.st.groups, ∀ k < PAGE_NSIZES - 1, g.freelist k = [] := by
  have h1 : ((step (boot (fun _ => false) [range128]) (.alloc [])).map Sys.live) = .ok [(0x17f000, 1)] := by
    decide +kernel
  have h2 : ((step (boot (fun _ => false) [range128]) (.alloc []) >>= fun s =>
      step s (.free 0x17f000)).map Sys.live) = .ok [] := by
    decide +kernel
  obtain ⟨s₁, e1, h1⟩ := ok_of_map h1
  obtain ⟨s₂, e2, h2⟩ := ok_of_map h2
  rw [e1] at e2
  have hrun : Run MatchedStep (boot (fun _ => false) [range128]) [.alloc [], .free 0x17f000] s₂ :=
    (Run.nil.snoc ⟨⟨nodup_nil, nil_subset _⟩, e1⟩).snoc ⟨(h1.symm ▸ mem_cons_self : (0x17f000, 1) ∈ s₁.live), e2⟩
  exact ⟨s₂, hrun, h2, ((coalescing_complete [range128] (pairwise_singleton _ _) range128_whole _ _ s₂ hrun).2.2 h2).2⟩

/-! ### Running out -/

def HasBlock (st : State) (order : ℕ) : Prop := ∃ g ∈ st.groups, ∃ k < PAGE_NSIZES, order ≤ k ∧ g.freelist k ≠ []

def Vacant (live : List (ℕ × ℕ)) (order a : ℕ) : Prop := ∀ b ∈ liveBlocks live, Cover.Disjoint (a, blockSize order) b

theorem SysInv.hasBlock_iff {F : List (ℕ × ℕ)} {s : Sys} {order : ℕ} (h : SysInv F s) (ho : order < PAGE_NSIZES) :
    HasBlock s.st order ↔ ∃ g ∈ s.st.groups, ∃ a, g.IsBlock order a ∧ Vacant s.live order a := by
  constructor
  · rintro ⟨g, hg, k, hk, hle, hne⟩
    obtain ⟨a, ha⟩ := exists_mem_of_ne_nil _ hne
    obtain ⟨m, rfl, hm⟩ := (h.core g hg).1.placed k hk a ha
    obtain ⟨d, rfl⟩ := Nat.exists_eq_add_of_le hle
    have hpow : 2 ^ (order + d) = 2 ^ d * 2 ^ order := by rw [pow_add, Nat.mul_comm]
    have hd : 1 ≤ 2 ^ d := Nat.one_le_two_pow
    refine ⟨g, hg, g.blockAddr (order + d) m, ⟨m * 2 ^ d, ?_, le_trans ?_ hm⟩, fun b hb x hx => ?_⟩
    · rw [blockAddr, blockAddr, blockSize, blockSize, hpow]
      ring
    · rw [hpow, ← Nat.mul_assoc, Nat.add_mul m 1]
      exact Nat.mul_le_mul_right _ (by omega)
    have hfree : (g.blockAddr (order + d) m, blockSize (order + d)) ∈ freeBlocksOf s.st.groups :=
      mem_flatMap.2 ⟨g, hg, mem_freeBlocks.2 ⟨_, hk, ha, rfl⟩⟩
    have hsize : blockSize order ≤ blockSize (order + d) :=
      Nat.mul_le_mul_right _ (Nat.pow_le_pow_right two_pos hle)
    exact (pairwise_append.1 h.tiles.pairwise).2.2 _ hfree b hb x
      ⟨⟨hx.1.1, hx.1.2.trans_le (Nat.add_le_add_left hsize _)⟩, hx.2⟩
  · rintro ⟨g, hg, _, ⟨i, rfl, hi⟩, hv⟩
    obtain ⟨hc, hl⟩ := h.core g hg
    have harea := hc.isBlock_area ⟨i, rfl, hi⟩
    obtain ⟨k, hk, hle, m, hm, -⟩ := exists_large hc hl ho fun x hx =>
      h.free hg (harea.1.trans hx.1) (hx.2.trans_le harea.2) fun b hb hcov => hv b hb x ⟨hx, hcov⟩
    exact ⟨g, hg, k, hk, hle, ne_nil_of_mem hm⟩

theorem splitSearch_none {order : ℕ} {gs : List Pagegroup} {norders : List ℕ}
    (h : splitSearch order gs norders = .ok none) : ∀ k ∈ norders, ∀ g ∈ gs, hasFree k g = false := by
  induction norders with
  | nil => simp
  | cons n norders ih =>
    rw [splitSearch] at h
    split at h
    · next hf => exact forall_mem_cons.2 ⟨firstGroup_none hf, ih h⟩
    · obtain ⟨g, -, h⟩ := ok_of_bind h
      split_ifs at h
      cases h

/-- `NULL` means that no block was left, and then that the slabs were given back. -/
theorem pageAllocOrder_null {st st' : State} {slabs : List (ℕ × ℕ)} {order : ℕ}
    (h : pageAllocOrder st slabs order = .ok (none, st')) :
    ¬ HasBlock st order ∧ reclaim slabs st = .ok st' := by
  unfold pageAllocOrder at h
  split at h
  · rw [pure_bind] at h
    dsimp only at h
    split at h
    · cases h
    · obtain ⟨g, -, h⟩ := ok_of_bind h
      cases h
  next hf =>
  obtain ⟨found, hfound, h⟩ := ok_of_bind h
  cases found with
  | some c =>
    dsimp only at h
    split at h
    · cases h
    · obtain ⟨g, -, h⟩ := ok_of_bind h
      cases h
  | none =>
    obtain ⟨st₁, hst, h⟩ := ok_of_bind h
    cases h
    refine ⟨?_, hst⟩
    rintro ⟨g, hg, k, hk, hle, hne⟩
    have hfree : hasFree k g = false := by
      rcases hle.eq_or_lt with rfl | hlt
      · exact firstGroup_none hf g hg
      · exact splitSearch_none hfound k (mem_range'_1.2 ⟨hlt, by omega⟩) g hg
    exact hne (by simpa [hasFree] using hfree)

theorem exists_same_area {gs gs' : List Pagegroup} {g : Pagegroup} (h : Page.areas gs = Page.areas gs')
    (hg : g ∈ gs) : ∃ g' ∈ gs', g'.baseaddr = g.baseaddr ∧ g'.endaddr = g.endaddr := by
  have hmem : (g.baseaddr, g.endaddr) ∈ Page.areas gs' := h ▸ mem_map_of_mem hg
  obtain ⟨g', hg', hsame⟩ := mem_map.1 hmem
  exact ⟨g', hg', Prod.mk.inj hsame⟩

/-- The blocks of the groups depend on their areas only. -/
theorem exists_isBlock {gs gs' : List Pagegroup} (h : Page.areas gs = Page.areas gs') {P : ℕ → Prop} {order : ℕ}
    (hP : ∃ g ∈ gs, ∃ a, g.IsBlock order a ∧ P a) : ∃ g ∈ gs', ∃ a, g.IsBlock order a ∧ P a := by
  obtain ⟨g, hg, a, ⟨i, rfl, hi⟩, ha⟩ := hP
  obtain ⟨g', hg', hbase, hend⟩ := exists_same_area h hg
  refine ⟨g', hg', g.blockAddr order i, ⟨i, ?_, ?_⟩, ha⟩
  · rw [blockAddr, blockAddr, hbase]
  · rwa [npages, hbase, hend]

/-- If there are no slabs to give back, a `NULL` of `page_alloc_n` leaves no block that is large
enough, whatever the state. With ranges that yield whole numbers of largest blocks it does so
exactly if each block of the order holds something live that is not given back with the slabs. -/
theorem null_genuine_iff {st st' : State} {npages order : ℕ} {slabs : List (ℕ × ℕ)}
    (ho : orderOf npages = .ok order) (hnull : pageAllocN st slabs npages = .ok (none, st')) :
    (slabs = [] → ¬ HasBlock st' order) ∧
    ∀ (ranges : List Range) (mem : ℕ → Bool) (ops : List Op) (live : List (ℕ × ℕ)), Whole ranges →
      ranges.Pairwise Range.Apart → Run MatchedStep (boot mem ranges) ops ⟨st, live⟩ →
      Matched ⟨st, live⟩ (.allocN npages slabs) →
      (¬ HasBlock st' order ↔
        ∀ g ∈ st.groups, ∀ a, g.IsBlock order a → ¬ Vacant (live.diff slabs) order a) := by
  rw [pageAllocN, ho, ok_bind] at hnull
  refine ⟨?_, fun ranges mem ops live hw ha hrun hs => ?_⟩
  · rintro rfl
    obtain ⟨hno, hst⟩ := pageAllocOrder_null hnull
    cases hst
    exact hno
  have hinv := sysInv_run hw ha hrun
  obtain ⟨addr, st₁, hst, hinv'⟩ := pageAllocOrder_spec hinv ho hs.1 hs.2
  rw [hst, Except.ok.injEq, Prod.mk.injEq] at hnull
  obtain ⟨rfl, rfl⟩ := hnull
  have hareas : Page.areas st₁.groups = Page.areas st.groups := hinv'.areas.trans hinv.areas.symm
  have hblocks : HasBlock st₁ order ↔
      ∃ g ∈ st.groups, ∃ a, g.IsBlock order a ∧ Vacant (live.diff slabs) order a :=
    (hinv'.hasBlock_iff (orderOf_lt ho)).trans
      ⟨exists_isBlock hareas, exists_isBlock hareas.symm⟩
  rw [hblocks]
  push Not
  rfl

/-- Half of the pages are live and the other half is given back: too little for all of them. -/
theorem null_genuine_128_pages : ∃ s st', Run MatchedStep (boot (fun _ => false) [range128])
      [.allocN 64 [], .allocN 64 []] s ∧ s.live = [(0x100000, 64), (0x140000, 64)] ∧
    pageAllocN s.st [(0x100000, 64)] 128 = .ok (none, st') ∧ ¬ HasBlock st' 7 := by
  have h1 : ((step (boot (fun _ => false) [range128]) (.allocN 64 []) >>= fun s =>
      step s (.allocN 64 [])).map fun s => (s.live, Page.areas s.st.groups)) =
      .ok ([(0x100000, 64), (0x140000, 64)], [(0x100000, 0x180000)]) := by
    decide +kernel
  have h2 : (step (boot (fun _ => false) [range128]) (.allocN 64 []) >>= fun s =>
      step s (.allocN 64 []) >>= fun s => pageAllocN s.st [(0x100000, 64)] 128).map Prod.fst = .ok none := by
    decide +kernel
  obtain ⟨s, e, h1⟩ := ok_of_map h1
  obtain ⟨s₁, e1, e2⟩ := ok_of_bind e
  obtain ⟨hlive, hareas⟩ := Prod.mk.inj h1
  obtain ⟨⟨_, st'⟩, e3, h2⟩ := ok_of_map h2
  rw [e1, ok_bind, e2, ok_bind] at e3
  cases h2
  have hrun : Run MatchedStep (boot (fun _ => false) [range128]) [.allocN 64 [], .allocN 64 []] s :=
    (Run.nil.snoc ⟨⟨nodup_nil, nil_subset _⟩, e1⟩).snoc ⟨⟨nodup_nil, nil_subset _⟩, e2⟩
  have hmatched : Matched s (.allocN 128 [(0x100000, 64)]) :=
    ⟨nodup_singleton _, by simp [hlive]⟩
  refine ⟨s, st', hrun, hlive, e3, ((null_genuine_iff rfl e3).2 [range128] _ _ s.live range128_whole
    (pairwise_singleton _ _) hrun hmatched).2 fun g hg a hblock hvacant => ?_⟩
  obtain ⟨i, rfl, hi⟩ := hblock
  have harea : (g.baseaddr, g.endaddr) ∈ [(0x100000, 0x180000)] := hareas ▸ mem_map_of_mem hg
  obtain ⟨hbase, hend⟩ := Prod.mk.inj (mem_singleton.1 harea)
  rw [npages, hbase, hend] at hi
  have hrest : (0x140000, blockSize 6) ∈ liveBlocks (s.live.diff [(0x100000, 64)]) := by
    rw [hlive]
    decide
  refine hvacant _ hrest 0x140000 ⟨⟨?_, ?_⟩, by decide⟩
  · simp only [blockAddr, hbase, blockSize, PAGE_SIZE, PAGE_SHIFT] at hi ⊢
    omega
  · simp only [blockAddr, hbase, blockSize, PAGE_SIZE, PAGE_SHIFT] at hi ⊢
    omega

/-- All pages are one slab without live objects, which is given back; no second look is taken. -/
theorem null_not_genuine : ∃ s st', Run MatchedStep (boot (fun _ => false) [range128]) [.allocN 128 []] s ∧
    pageAllocN s.st s.live 1 = .ok (none, st') ∧ HasBlock st' 0 := by
  have h1 : (step (boot (fun _ => false) [range128]) (.allocN 128 []) >>= fun s => pageAllocN s.st s.live 1).map
      (fun x => (x.1, x.2.groups.map fun g => g.freelist 7)) = .ok (none, [[0x100000]]) := by
    decide +kernel
  obtain ⟨⟨_, st'⟩, e, h1⟩ := ok_of_map h1
  obtain ⟨rfl, h1⟩ := Prod.mk.inj h1
  obtain ⟨s, e1, e2⟩ := ok_of_bind e
  refine ⟨s, st', Run.nil.snoc ⟨⟨nodup_nil, nil_subset _⟩, e1⟩, e2, ?_⟩
  obtain ⟨g, hg, hfree⟩ := mem_map.1 (h1 ▸ mem_cons_self : [0x100000] ∈ st'.groups.map fun g => g.freelist 7)
  exact ⟨g, hg, 7, by decide, by decide, by simp [hfree]⟩

/-- By induction from the largest order down: the free block of `s'` that covers a free block of `s` is not larger,
since it would be free in `s` too. -/
theorem SysInv.freeBlocks_sub {F : List (ℕ × ℕ)} {s s' : Sys} {k a : ℕ} (h : SysInv F s) (h' : SysInv F s')
    (hlive : ∀ b, b ∈ s.live ↔ b ∈ s'.live) (hb : (a, blockSize k) ∈ freeBlocksOf s.st.groups) :
    (a, blockSize k) ∈ freeBlocksOf s'.st.groups := by
  obtain ⟨g, hg, hbg⟩ := mem_flatMap.1 hb
  obtain ⟨k₀, hk, ha, hsize⟩ := mem_freeBlocks.1 hbg
  obtain rfl := blockSize_inj hsize
  obtain ⟨i, rfl, hi⟩ := (h.core g hg).1.placed k hk a ha
  have harea := (h.core g hg).1.isBlock_area ⟨i, rfl, hi⟩
  obtain ⟨g', hg', hbase, hend⟩ := exists_same_area (h.areas.trans h'.areas.symm) hg
  have haddr : g'.blockAddr k i = g.blockAddr k i := by rw [blockAddr, blockAddr, hbase]
  obtain ⟨hc, hl⟩ := h'.core g' hg'
  have hdis := pairwise_append.1 h.tiles.pairwise
  obtain ⟨k', hk', hle, m, hm, hcov⟩ := exists_large hc hl hk fun x hx => by
    rw [haddr] at hx
    refine h'.free hg' (hbase ▸ harea.1.trans hx.1) (hend ▸ hx.2.trans_le harea.2) fun b hlb hxb => ?_
    exact hdis.2.2 _ hb b (map_subset _ (fun b => (hlive b).2) hlb) x ⟨hx, hxb⟩
  have hfree : (g'.blockAddr k' m, blockSize k') ∈ freeBlocksOf s'.st.groups :=
    mem_flatMap.2 ⟨g', hg', mem_freeBlocks.2 ⟨k', hk', hm, rfl⟩⟩
  rcases hle.eq_or_lt with rfl | hlt
  · rwa [← eq_of_covers_first hcov, haddr] at hfree
  have hfree' := h'.freeBlocks_sub h (fun b => (hlive b).symm) hfree
  have heq := eq_of_covers hdis.1 hb hfree' (covers_first _ k) (haddr ▸ hcov)
  exact absurd (blockSize_inj (congrArg Prod.snd heq)) hlt.ne
termination_by PAGE_NSIZES - k

/-- Whatever was allocated and freed on the way, the same live blocks leave the same free blocks. -/
theorem freeBlocks_of_live {ranges : List Range} {mem : ℕ → Bool} {ops ops' : List Op} {s s' : Sys} (hw : Whole ranges)
    (ha : ranges.Pairwise Range.Apart) (h : Run MatchedStep (boot mem ranges) ops s)
    (h' : Run MatchedStep (boot mem ranges) ops' s') (hlive : ∀ b, b ∈ s.live ↔ b ∈ s'.live) (k a : ℕ) :
    (a, blockSize k) ∈ freeBlocksOf s.st.groups ↔ (a, blockSize k) ∈ freeBlocksOf s'.st.groups := by
  have hs := sysInv_run hw ha h
  have hs' := sysInv_run hw ha h'
  exact ⟨hs.freeBlocks_sub hs' hlive, hs'.freeBlocks_sub hs fun b => (hlive b).symm⟩

/-- A page allocated and freed before leaves no trace: the lower half is free, as one block. -/
theorem freeBlocks_of_live_128_pages : ∃ s s' : Sys,
    Run MatchedStep (boot (fun _ => false) [range128]) [.allocN 64 []] s ∧
    Run MatchedStep (boot (fun _ => false) [range128]) [.alloc [], .free 0x17f000, .allocN 64 []] s' ∧
    (0x100000, blockSize 6) ∈ freeBlocksOf s'.st.groups := by
  have h1 : (step (boot (fun _ => false) [range128]) (.allocN 64 [])).map
      (fun s => (s.live, freeBlocksOf s.st.groups)) = .ok ([(0x140000, 64)], [(0x100000, blockSize 6)]) := by
    decide +kernel
  have h2 : (step (boot (fun _ => false) [range128]) (.alloc [])).map Sys.live = .ok [(0x17f000, 1)] := by
    decide +kernel
  have h3 : (step (boot (fun _ => false) [range128]) (.alloc []) >>= fun s =>
      step s (.free 0x17f000) >>= fun s => step s (.allocN 64 [])).map Sys.live = .ok [(0x140000, 64)] := by
    decide +kernel
  obtain ⟨s, e, h1⟩ := ok_of_map h1
  obtain ⟨hlive, hfree⟩ := Prod.mk.inj h1
  obtain ⟨s₁, e1, h2⟩ := ok_of_map h2
  obtain ⟨s', e3, hlive'⟩ := ok_of_map h3
  rw [e1, ok_bind] at e3
  obtain ⟨s₂, e2, e3⟩ := ok_of_bind e3
  have hrun : Run MatchedStep (boot (fun _ => false) [range128]) [.allocN 64 []] s :=
    Run.nil.snoc ⟨⟨nodup_nil, nil_subset _⟩, e⟩
  have hrun' : Run MatchedStep (boot (fun _ => false) [range128]) [.alloc [], .free 0x17f000, .allocN 64 []] s' :=
    ((Run.nil.snoc ⟨⟨nodup_nil, nil_subset _⟩, e1⟩).snoc
      ⟨(h2.symm ▸ mem_cons_self : (0x17f000, 1) ∈ s₁.live), e2⟩).snoc ⟨⟨nodup_nil, nil_subset _⟩, e3⟩
  exact ⟨s, s', hrun, hrun', (freeBlocks_of_live range128_whole (pairwise_singleton _ _) hrun hrun'
    (fun _ => by rw [hlive, hlive']) 6 0x100000).1 (by simp [hfree])⟩

end Weenix.Page
