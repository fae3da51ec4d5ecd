import Weenix.Lib.Run
import Weenix.Proofs.PageBoot

/-! Whole runs of the allocator, from the state in which the boot code leaves it. The
ranges that yield a whole number of largest blocks are in order from the start and stay
so; with any other range the first block left over at its end is lost once it has been
given back. -/

namespace Weenix.Page

open Cover Pagegroup Runs

/-! ### The state after boot -/

def Range.group (mem : ℕ → Bool) (r : Range) : Pagegroup :=
  pagegroupCreate mem (pageAlignDown r.start) (pageAlignDown r.stop)

def groupsOf (mem : ℕ → Bool) (ranges : List Range) : List Pagegroup :=
  (ranges.map (Range.group mem)).filter fun g => g.baseaddr < g.endaddr

def Range.Apart (r r' : Range) : Prop := r.stop ≤ r'.start ∨ r'.stop ≤ r.start

theorem foldl_pageAddRange (mem : ℕ → Bool) (ranges : List Range) (st : State)
    (hst : word st.freecount = st.freecount) :
    (ranges.foldl (fun st r => pageAddRange mem r.start r.stop st) st).groups =
      st.groups ++ groupsOf mem ranges ∧
    (ranges.foldl (fun st r => pageAddRange mem r.start r.stop st) st).freecount =
      word (st.freecount + ((groupsOf mem ranges).map npages).sum) := by
  induction ranges generalizing st with
  | nil => simp [groupsOf, hst]
  | cons r ranges ih =>
    rw [List.foldl_cons]
    by_cases hr : (r.group mem).baseaddr < (r.group mem).endaddr
    · have hadd : pageAddRange mem r.start r.stop st = ⟨st.groups ++ [r.group mem],
          word (st.freecount + ((r.group mem).endaddr - (r.group mem).baseaddr) >>> PAGE_SHIFT)⟩ :=
        if_pos hr
      have hcons : groupsOf mem (r :: ranges) = r.group mem :: groupsOf mem ranges := by
        simp [groupsOf, hr]
      have hpages : ((r.group mem).endaddr - (r.group mem).baseaddr) >>> PAGE_SHIFT =
          (r.group mem).npages := Nat.shiftRight_eq_div_pow _ _
      rw [hpages] at hadd
      obtain ⟨h1, h2⟩ := ih ⟨st.groups ++ [r.group mem],
        word (st.freecount + (r.group mem).npages)⟩ (Nat.mod_mod _ _)
      rw [hadd, h1, h2, hcons, List.append_assoc, List.map_cons, List.sum_cons]
      refine ⟨rfl, ?_⟩
      simp only [word, Nat.mod_add_mod, Nat.add_assoc]
    · have hadd : pageAddRange mem r.start r.stop st = st := if_neg hr
      have hcons : groupsOf mem (r :: ranges) = groupsOf mem ranges := by
        simp [groupsOf, hr]
      rw [hadd, hcons]
      exact ih st hst

theorem boot_groups (mem : ℕ → Bool) (ranges : List Range) :
    (boot mem ranges).st.groups = groupsOf mem ranges :=
  (foldl_pageAddRange mem ranges pageInit rfl).1

theorem mem_groupsOf {mem : ℕ → Bool} {ranges : List Range} {g : Pagegroup} (h : g ∈ groupsOf mem ranges) :
    ∃ r ∈ ranges, g = r.group mem ∧ (r.group mem).baseaddr < (r.group mem).endaddr := by
  rw [groupsOf, List.mem_filter, List.mem_map] at h
  obtain ⟨⟨r, hr, rfl⟩, hlt⟩ := h
  exact ⟨r, hr, rfl, by simpa using hlt⟩

theorem fresh_of_mem {mem : ℕ → Bool} {ranges : List Range} {g : Pagegroup}
    (h : g ∈ groupsOf mem ranges) : Fresh g := by
  obtain ⟨r, -, rfl, hlt⟩ := mem_groupsOf h
  exact fresh_create (dvd_pageAlignDown _) hlt

theorem Fresh.freePages {g : Pagegroup} (h : Fresh g) : g.freePages = g.npages := by
  have hd : ∀ x, Cover.depth g.freeBlocks x =
      Cover.depth [(g.baseaddr, g.npages * PAGE_SIZE)] x := by
    intro x
    have hc : Covers x (g.baseaddr, g.npages * PAGE_SIZE) ↔ g.baseaddr ≤ x ∧ x < g.endaddr := by
      rw [Covers, h.stop]
    rw [h.depth, depth_cons, depth_nil, Nat.zero_add, if_congr hc rfl rfl]
  have ht := total_congr hd
  rw [total_freeBlocks, total, List.map_singleton, List.sum_singleton] at ht
  exact Nat.eq_of_mul_eq_mul_right (by simp [PAGE_SIZE]) ht

theorem freePages_groupsOf (mem : ℕ → Bool) (ranges : List Range) :
    freePages (groupsOf mem ranges) = ((groupsOf mem ranges).map npages).sum := by
  rw [freePages]
  congr 1
  exact List.map_congr_left fun g hg => (fresh_of_mem hg).freePages

/-- The free blocks of fresh groups whose areas do not overlap tile these areas. -/
theorem tiles_fresh {gs : List Pagegroup} (hf : ∀ g ∈ gs, Fresh g) (ha : gs.Pairwise Apart) :
    Tiles (freeBlocksOf gs) (InArea gs) := by
  induction gs with
  | nil => exact ⟨fun x hx => by simp [InArea] at hx, fun x _ => rfl⟩
  | cons g gs ih =>
    rw [List.pairwise_cons] at ha
    obtain ⟨h1, h2⟩ := ih (fun g' hg' => hf g' (List.mem_cons_of_mem _ hg')) ha.2
    have hg := (hf g List.mem_cons_self).depth
    have hcons : ∀ x, depth (freeBlocksOf (g :: gs)) x =
        depth g.freeBlocks x + depth (freeBlocksOf gs) x := by
      intro x
      rw [freeBlocksOf, List.flatMap_cons, depth_append, ← freeBlocksOf]
    have harea : ∀ x, InArea (g :: gs) x ↔ (g.baseaddr ≤ x ∧ x < g.endaddr) ∨ InArea gs x := by
      intro x
      simp [InArea]
    refine ⟨fun x hx => ?_, fun x hx => ?_⟩
    · rw [hcons, hg]
      rcases (harea x).1 hx with hx | hx
      · rw [if_pos hx, h2 x]
        rintro ⟨g', hg', hx'⟩
        have := ha.1 g' hg'
        rw [Apart] at this
        omega
      rw [h1 x hx, if_neg]
      obtain ⟨g', hg', hx'⟩ := hx
      have := ha.1 g' hg'
      rw [Apart] at this
      omega
    · rw [harea, not_or] at hx
      rw [hcons, hg, if_neg hx.1, h2 x hx.2]

/-! ### Ranges in order -/

def Range.usablePages (r : Range) : ℕ := (r.group fun _ => false).npages

theorem foldl_reserveMap_stop (npages : ℕ) (orders : List ℕ) (acc acc' : (ℕ → Bool) × (ℕ → ℕ) × ℕ)
    (h : acc.2.2 = acc'.2.2) : (orders.foldl (reserveMap npages) acc).2.2 =
      (orders.foldl (reserveMap npages) acc').2.2 := by
  induction orders generalizing acc acc' with
  | nil => exact h
  | cons o orders ih => exact ih _ _ (congrArg (wordSub · (mapBytes npages o)) h)

theorem Range.group_npages (mem : ℕ → Bool) (r : Range) : (r.group mem).npages = r.usablePages := by
  have : (r.group mem).endaddr = (r.group fun _ => false).endaddr :=
    congrArg pageAlignDown (foldl_reserveMap_stop _ _ _ _ rfl)
  rw [usablePages, Pagegroup.npages, this]
  rfl

def Whole (ranges : List Range) : Prop := ∀ r ∈ ranges, 2 ^ (PAGE_NSIZES - 1) ∣ r.usablePages

theorem pageAlignDown_mono {x y : ℕ} (h : x ≤ y) : pageAlignDown x ≤ pageAlignDown y :=
  Nat.mul_le_mul_right _ (Nat.div_le_div_right h)

theorem apart_groupsOf (mem : ℕ → Bool) {ranges : List Range} (hw : Whole ranges)
    (ha : ranges.Pairwise Range.Apart) : (groupsOf mem ranges).Pairwise Apart := by
  have hend : ∀ r ∈ ranges, (r.group mem).baseaddr < (r.group mem).endaddr →
      (r.group mem).endaddr ≤ pageAlignDown r.stop := by
    intro r hr hlt
    exact (create_maps (dvd_pageAlignDown _) (dvd_pageAlignDown _) (pageAlignDown_mono r.le)
      ((pageAlignDown_le _).trans_lt r.lt) hlt ((r.group_npages mem).symm ▸ hw r hr)).1
  rw [groupsOf, List.pairwise_filter, List.pairwise_map]
  refine ha.imp_of_mem fun {r r'} hr hr' h hlt hlt' => ?_
  rcases h with h | h
  · exact .inl ((hend r hr (by simpa using hlt)).trans (pageAlignDown_mono h))
  · exact .inr ((hend r' hr' (by simpa using hlt')).trans (pageAlignDown_mono h))

theorem sysInv_boot (mem : ℕ → Bool) {ranges : List Range} (hw : Whole ranges)
    (ha : ranges.Pairwise Range.Apart) : SysInv (areas (groupsOf mem ranges)) (boot mem ranges) := by
  have hapart := apart_groupsOf mem hw ha
  have htiles := tiles_fresh (fun g => fresh_of_mem) hapart
  have h : SysInv (areas (groupsOf mem ranges))
      ⟨⟨groupsOf mem ranges, freePages (groupsOf mem ranges)⟩, []⟩ := by
    refine ⟨rfl, fun g hg => ?_, hapart, ?_, by simp, rfl⟩
    · obtain ⟨r, hr, rfl, hlt⟩ := mem_groupsOf hg
      exact create_inv (dvd_pageAlignDown _) (dvd_pageAlignDown _) (pageAlignDown_mono r.le)
        ((pageAlignDown_le _).trans_lt r.lt) hlt ((r.group_npages mem).symm ▸ hw r hr)
    · rw [blocks, liveBlocks, List.map_nil, List.append_nil]
      exact htiles
  have hle := h.freePages_le
  obtain ⟨h1, h2⟩ := foldl_pageAddRange mem ranges pageInit rfl
  have hboot : boot mem ranges = ⟨⟨groupsOf mem ranges, freePages (groupsOf mem ranges)⟩, []⟩ := by
    rw [pageInit, Nat.zero_add, ← freePages_groupsOf, word, Nat.mod_eq_of_lt (by simp only at hle; omega)] at h2
    rw [boot, ← h2, ← boot_groups mem ranges]
    rfl
  rw [hboot]
  exact h

/-! ### What a run has to keep -/

/-- The free and the live blocks are disjoint, lie in the usable areas and cover them,
and the counter is right. -/
structure Sound (s : Sys) : Prop where
  disjoint : (blocks s).Pairwise Disjoint
  inside : ∀ b ∈ blocks s, ∃ g ∈ s.st.groups, g.baseaddr ≤ b.1 ∧ b.1 + b.2 ≤ g.endaddr
  cover : ∀ x, InArea s.st.groups x → ∃ b ∈ blocks s, Covers x b
  count : s.st.freecount = freePages s.st.groups

/-- Neither a list of this order nor any larger block is left. -/
def Exhausted (st : State) (order : ℕ) : Prop :=
  firstGroup (hasFree order) st.groups = none ∧
  splitSearch order st.groups (List.range' (order + 1) (PAGE_NSIZES - (order + 1))) = .ok none

/-- Every join that the call leads to is with a buddy on the free list of the same order. -/
def OpJoins (s : Sys) : Op → Prop
  | .alloc slabs => Exhausted s.st 0 → ReclaimJoins slabs s.st
  | .allocN npages slabs =>
      ∀ order, orderOf npages = .ok order → Exhausted s.st order → ReclaimJoins slabs s.st
  | .free addr => FreeJoins s.st addr 0
  | .freeN addr npages => ∀ order, orderOf npages = .ok order → FreeJoins s.st addr order

def MatchedStep (s : Sys) (op : Op) (s' : Sys) : Prop := Matched s op ∧ step s op = .ok s'

/-- Whatever memory holds at boot and whatever is then allocated and freed, the blocks
stay sound, and no call joins with a block that is not free or stops other than with the
panic on a page count above the largest block. -/
def BuddySound (ranges : List Range) : Prop :=
  ∀ mem ops s, Run MatchedStep (boot mem ranges) ops s →
    Sound s ∧ ∀ op, Matched s op →
      OpJoins s op ∧ (step s op = .error .panic ∨ ∃ s', step s op = .ok s')

theorem SysInv.sound {F : List (ℕ × ℕ)} {s : Sys} (h : SysInv F s) : Sound s := by
  refine ⟨h.tiles.pairwise, fun b hb => ?_, fun x => h.tiles.exists_cover, h.count⟩
  rcases List.mem_append.1 hb with hb | hb
  · obtain ⟨g, hg, hbg⟩ := List.mem_flatMap.1 hb
    obtain ⟨k, hk, ha, hsize⟩ := mem_freeBlocks.1 hbg
    have hc := (h.core g hg).1
    exact ⟨g, hg, hsize ▸ hc.isBlock_area (hc.placed k hk _ ha)⟩
  · obtain ⟨b', hb', rfl⟩ := List.mem_map.1 hb
    obtain ⟨o, ho, g, hg, hblock⟩ := h.live b' hb'
    exact ⟨g, hg, liveSize_eq ho ▸ (h.core g hg).1.isBlock_area hblock⟩

theorem step_spec {F : List (ℕ × ℕ)} {s : Sys} (h : SysInv F s) (op : Op) (hm : Matched s op) :
    OpJoins s op ∧ (step s op = .error .panic ∨ ∃ s', step s op = .ok s' ∧ SysInv F s') := by
  have horder : ∀ n, orderOf n = .error .panic ∨ ∃ o, orderOf n = .ok o := by
    intro n
    unfold orderOf
    split
    · exact .inr ⟨_, rfl⟩
    · exact .inl rfl
  cases op with
  | alloc slabs =>
    obtain ⟨addr, st, hst, hinv⟩ := pageAllocOrder_spec (n := 1) h rfl hm.1 hm.2
    refine ⟨fun _ => (reclaim_spec slabs h hm.1 hm.2).1, .inr ⟨_, ?_, hinv⟩⟩
    simp only [step, pageAlloc, hst, bind, Except.bind, pure, Except.pure]
  | allocN n slabs =>
    refine ⟨fun _ _ _ => (reclaim_spec slabs h hm.1 hm.2).1, ?_⟩
    rcases horder n with ho | ⟨o, ho⟩
    · exact .inl (by simp only [step, pageAllocN, ho, bind, Except.bind])
    obtain ⟨addr, st, hst, hinv⟩ := pageAllocOrder_spec h ho hm.1 hm.2
    refine .inr ⟨_, ?_, hinv⟩
    simp only [step, pageAllocN, ho, hst, bind, Except.bind, pure, Except.pure]
  | free addr =>
    obtain ⟨hj, st, hst, hinv⟩ := pageFreeOrder_spec (n := 1) (o := 0) h rfl hm
    refine ⟨hj, .inr ⟨_, ?_, hinv⟩⟩
    simp only [step, pageFree, hst, bind, Except.bind, pure, Except.pure]
  | freeN addr n =>
    obtain ⟨hj, st, hst, hinv⟩ := pageFreeN_spec h hm
    refine ⟨hj, .inr ⟨_, ?_, hinv⟩⟩
    simp only [step, hst, bind, Except.bind, pure, Except.pure]

theorem sysInv_run {mem : ℕ → Bool} {ranges : List Range} {ops : List Op} {s : Sys}
    (hw : Whole ranges) (ha : ranges.Pairwise Range.Apart)
    (h : Run MatchedStep (boot mem ranges) ops s) : SysInv (areas (groupsOf mem ranges)) s := by
  refine Run.invariant (sysInv_boot mem hw ha) ?_ h
  rintro s op s' hinv ⟨hm, hstep⟩
  obtain ⟨-, hp | ⟨s1, h1, hinv1⟩⟩ := step_spec hinv op hm
  · rw [hp] at hstep
    cases hstep
  · rw [h1, Except.ok.injEq] at hstep
    exact hstep ▸ hinv1

/-! ### Ranges with blocks left over -/

theorem dvd_of_testBit {n k : ℕ} (h : ∀ j < k, n.testBit j = false) : 2 ^ k ∣ n := by
  refine Nat.dvd_of_mod_eq_zero (Nat.eq_of_testBit_eq fun i => ?_)
  rw [Nat.testBit_mod_two_pow, Nat.zero_testBit]
  by_cases hi : i < k
  · rw [h i hi, Bool.and_false]
  · rw [decide_eq_false hi, Bool.false_and]

/-- The smallest block left over at the end of a fresh group. -/
structure LastBlock (g : Pagegroup) (k a : ℕ) : Prop where
  order : k < PAGE_NSIZES - 1
  list : g.freelist k = [a]
  stop : a + blockSize k = g.endaddr
  index : ∃ i, a = g.baseaddr + i * blockSize (k + 1)

theorem Fresh.lastBlock {g : Pagegroup} (h : Fresh g) {k : ℕ} (hk : k < PAGE_NSIZES - 1)
    (hbit : g.npages.testBit k = true) (hlow : ∀ j < k, g.npages.testBit j = false) :
    LastBlock g k (g.baseaddr + leftover g.npages k * PAGE_SIZE) := by
  have hn : leftover g.npages k + 2 ^ k = g.npages := by
    rw [← leftover_of_testBit hbit, Nat.div_mul_cancel (dvd_of_testBit hlow)]
  refine ⟨hk, by rw [h.small k hk, if_pos hbit], ?_, g.npages / 2 ^ (k + 1), ?_⟩
  · rw [h.stop, blockSize, Nat.add_assoc, ← Nat.add_mul, hn]
  · rw [leftover, blockSize, Nat.mul_assoc]

variable {g : Pagegroup} {k a : ℕ}

section
variable {g' : Pagegroup} (h : LastBlock g k a) (hf : Fresh g) (hs : SameFrame g g')
include h hf hs

theorem LastBlock.calculateIndex : calculateIndex g' (k + 1) a =
      .ok (((a - g.baseaddr) >>> (k + 1)) >>> PAGE_SHIFT) := by
  obtain ⟨i, hi⟩ := h.index
  have hpos := blockSize_pos k
  have hdvd : 2 ^ (k + 1) ∣ a - g.baseaddr := by
    rw [hi, Nat.add_sub_cancel_left, blockSize]
    exact Dvd.dvd.mul_left (Dvd.intro _ rfl) i
  have halign : PAGE_SIZE ∣ a := by
    rw [hi, blockSize, ← Nat.mul_assoc]
    exact Nat.dvd_add hf.base (Dvd.intro_left _ rfl)
  have hstop := h.stop
  rw [Page.calculateIndex, hs.base, hs.stop]
  refine if_pos ⟨Nat.mod_eq_zero_of_dvd halign, Nat.add_lt_of_lt_sub h.order, ?_, ?_,
    Nat.mod_eq_zero_of_dvd hdvd⟩
  · rw [hi]
    exact Nat.le_add_right _ _
  · omega

/-- The buddy of the last block lies past the end of the area. -/
theorem LastBlock.buddyOf : buddyOf g' k a = g.endaddr := by
  obtain ⟨i, hi⟩ := h.index
  have hoff : ((a - g.baseaddr) >>> PAGE_SHIFT) >>> k = 2 * i := by
    have hsize : i * blockSize (k + 1) = 2 * i * 2 ^ k * PAGE_SIZE := by
      rw [blockSize, pow_succ]
      ring
    rw [hi, Nat.add_sub_cancel_left, hsize, Nat.shiftRight_eq_div_pow, Nat.shiftRight_eq_div_pow,
      ← PAGE_SIZE, Nat.mul_div_cancel _ (by simp [PAGE_SIZE]), Nat.mul_div_cancel _ (by positivity)]
  have hlt := hf.lt
  rw [Page.buddyOf, hs.base]
  simp only [hoff, Nat.mul_mod_right, Nat.zero_ne_one, if_false]
  rw [shiftLeft_block, h.stop, word, Nat.mod_eq_of_lt hlt]

theorem LastBlock.flipPair : flipPair g' k a =
      .ok (g'.bitFlip (k + 1) (((a - g.baseaddr) >>> (k + 1)) >>> PAGE_SHIFT)) := by
  simp only [Page.flipPair, if_pos h.order, h.calculateIndex hf hs, bind, Except.bind, pure,
    Except.pure]

end

/-- Taking the last block and giving it back joins it with what lies behind the area:
the pair bit starts clear although only one of the two buddies exists. -/
theorem LastBlock.lost (h : LastBlock g k a) (hf : Fresh g) (hmem : g.mem = fun _ => false) :
    ∃ g1, Page.flipPair (g.setFree k []) k a = .ok g1 ∧ SameFrame g g1 ∧ ¬ g1.FreesOnto k a := by
  refine ⟨_, h.flipPair hf (sameFrame_setFree []), ⟨rfl, rfl, rfl⟩, fun hfree => ?_⟩
  have hjoins := hfree _ (h.flipPair hf ⟨rfl, rfl, rfl⟩)
  obtain ⟨d, hd⟩ : ∃ d, PAGE_NSIZES - 1 - k = d + 1 := ⟨PAGE_NSIZES - 2 - k, by
    have := h.order
    omega⟩
  rw [hd] at hjoins
  obtain ⟨hbuddy, -⟩ := hjoins _ (h.calculateIndex hf ⟨rfl, rfl, rfl⟩) (by
    simp [Pagegroup.bitCheck, Pagegroup.bitFlip, Pagegroup.insertHead, Pagegroup.setFree, hmem])
  rw [h.buddyOf hf ((sameFrame_setFree []).trans
      (sameFrame_bitFlip.trans (sameFrame_insertHead.trans sameFrame_bitFlip))), bitFlip_freelist, insertHead_same, bitFlip_freelist,
    setFree_same, List.mem_singleton, ← h.stop] at hbuddy
  have := blockSize_pos k
  omega

theorem firstGroup_append {p : Pagegroup → Bool} {before after : List Pagegroup} {g : Pagegroup}
    (hb : ∀ g' ∈ before, p g' = false) (hg : p g = true) :
    firstGroup p (before ++ g :: after) = some ⟨before, g, after⟩ := by
  induction before with
  | nil => simp [firstGroup, hg]
  | cons g' before ih =>
    have h1 := hb g' List.mem_cons_self
    have h2 := ih fun x hx => hb x (List.mem_cons_of_mem _ hx)
    simp [firstGroup, h1, h2]

theorem orderOf_pow {k : ℕ} (h : k < PAGE_NSIZES) : orderOf (2 ^ k) = .ok k := by
  rw [PAGE_NSIZES] at h
  interval_cases k <;> rfl

/-- The least order at which some group has a block left over, and the first group with
a free block of that order. -/
theorem exists_lastBlock {gs : List Pagegroup} (hf : ∀ g ∈ gs, Fresh g)
    (h : ∃ g ∈ gs, ¬ 2 ^ (PAGE_NSIZES - 1) ∣ g.npages) :
    ∃ k a c, firstGroup (hasFree k) gs = some c ∧ LastBlock c.group k a := by
  have hex : ∃ k, k < PAGE_NSIZES - 1 ∧ ∃ g ∈ gs, g.npages.testBit k = true := by
    obtain ⟨g, hg, hn⟩ := h
    by_contra hne
    refine hn (dvd_of_testBit fun j hj => Bool.eq_false_iff.2 fun hb => hne ⟨j, hj, g, hg, hb⟩)
  classical
  obtain ⟨hk, g, hg, hbit⟩ := Nat.find_spec hex
  have hmin := fun j (hj : j < Nat.find hex) => Nat.find_min hex hj
  generalize Nat.find hex = k at hk hbit hmin
  cases hc : firstGroup (hasFree k) gs with
  | none =>
    have := firstGroup_none hc g hg
    simp [hasFree, (hf g hg).small k hk, hbit] at this
  | some c =>
    obtain ⟨hgs, hp, -⟩ := firstGroup_some hc
    have hcm : c.group ∈ gs := hgs ▸ c.mem_group
    have hcbit : c.group.npages.testBit k = true := by
      by_contra hb
      simp [hasFree, (hf _ hcm).small k hk, hb] at hp
    refine ⟨k, _, c, hc, (hf _ hcm).lastBlock hk hcbit fun j hj => Bool.eq_false_iff.2 fun hb => ?_⟩
    exact hmin j hj ⟨hj.trans hk, c.group, hcm, hb⟩

theorem LastBlock.area {g : Pagegroup} {k a : ℕ} (h : LastBlock g k a) : g.baseaddr ≤ a ∧ a < g.endaddr := by
  obtain ⟨i, hi⟩ := h.index
  have hstop := h.stop
  have hpos := blockSize_pos k
  exact ⟨hi ▸ Nat.le_add_right _ _, by omega⟩

/-- When the free blocks of the groups are disjoint, no earlier group holds the block. -/
theorem LastBlock.not_before {c : Cursor} {k a : ℕ} (h : LastBlock c.group k a)
    (hf : ∀ g ∈ c.groups, Fresh g) (hd : (freeBlocksOf c.groups).Pairwise Disjoint) :
    ∀ g ∈ c.before, pagegroupFromAddress a g = false := by
  intro g hg
  by_contra hp
  rw [Bool.not_eq_false, pagegroupFromAddress, Bool.and_eq_true, decide_eq_true_eq,
    decide_eq_true_eq] at hp
  have hdepth := (hf g (List.mem_append_left _ hg)).depth a
  rw [if_pos hp] at hdepth
  have hpos : 0 < g.freeBlocks.countP (Covers a ·) := by
    rw [Cover.depth] at hdepth
    omega
  obtain ⟨b, hb, hcov⟩ := List.countP_pos_iff.1 hpos
  have hlast : (a, blockSize k) ∈ c.group.freeBlocks :=
    mem_freeBlocks.2 ⟨k, by have := h.order; omega, by rw [h.list]; exact List.mem_cons_self, rfl⟩
  rw [freeBlocksOf, Cursor.groups, List.flatMap_append, List.flatMap_cons, List.pairwise_append] at hd
  refine hd.2.2 b (List.mem_flatMap.2 ⟨g, hg, hb⟩) _ (List.mem_append_left _ hlast) a
    ⟨by simpa using hcov, le_rfl, ?_⟩
  exact Nat.lt_add_of_pos_right (blockSize_pos k)

/-- Taking the last block of the first group that has one and giving it back. -/
theorem not_buddySound {ranges : List Range} (h : ¬ Whole ranges) : ¬ BuddySound ranges := by
  intro hsound
  have hf : ∀ g ∈ groupsOf (fun _ => false) ranges, Fresh g := fun g => fresh_of_mem
  obtain ⟨k, a, c, hc, hlast⟩ := exists_lastBlock hf (by
    rw [Whole, not_forall] at h
    obtain ⟨r, h⟩ := h
    rw [Classical.not_imp] at h
    refine ⟨r.group fun _ => false, List.mem_filter.2 ⟨List.mem_map.2 ⟨r, h.1, rfl⟩, ?_⟩, h.2⟩
    by_contra hle
    rw [decide_eq_true_eq, Nat.not_lt] at hle
    refine h.2 ?_
    rw [Range.usablePages, Pagegroup.npages, Nat.sub_eq_zero_of_le hle, Nat.zero_div]
    exact Nat.dvd_zero _)
  obtain ⟨hgs, -, -⟩ := firstGroup_some hc
  have hcm : c.group ∈ groupsOf (fun _ => false) ranges := hgs ▸ c.mem_group
  have hmem : c.group.mem = fun _ => false := by
    obtain ⟨r, -, hr, -⟩ := mem_groupsOf hcm
    rw [hr]
    exact foldl_reserveMap_clear _ _ _ rfl
  obtain ⟨g1, hflip, hs, hlost⟩ := hlast.lost (hf _ hcm) hmem
  have hk : k < PAGE_NSIZES := by have := hlast.order; omega
  have horder := orderOf_pow hk
  have hstep : MatchedStep (boot (fun _ => false) ranges) (.allocN (2 ^ k) [])
      ⟨⟨{ c with group := g1 }.groups,
        wordSub (boot (fun _ => false) ranges).st.freecount (1 <<< k)⟩, [(a, 2 ^ k)]⟩ := by
    refine ⟨⟨List.nodup_nil, List.nil_subset _⟩, ?_⟩
    simp only [step, pageAllocN, horder, pageAllocOrder, boot_groups, hc, hlast.list, hflip, bind,
      Except.bind, pure, Except.pure, liveAfter]
    rfl
  have hdisj : (freeBlocksOf c.groups).Pairwise Disjoint := by
    have := (hsound (fun _ => false) [] _ Run.nil).1.disjoint
    rw [blocks, boot_groups, ← hgs] at this
    exact (List.pairwise_append.1 this).1
  have hjoins := ((hsound _ _ _ (Run.nil.snoc hstep)).2 (.freeN a (2 ^ k)) List.mem_cons_self).1
  refine hlost (hjoins k horder _ (firstGroup_append (hlast.not_before (hgs.symm ▸ hf) hdisj) ?_))
  rw [pagegroupFromAddress, hs.base, hs.stop]
  simpa using hlast.area

/-- The allocator is sound exactly when every range yields a whole number of largest
blocks. -/
theorem buddySound_iff (ranges : List Range) (ha : ranges.Pairwise Range.Apart) :
    BuddySound ranges ↔ ∀ r ∈ ranges, 2 ^ (PAGE_NSIZES - 1) ∣ r.usablePages := by
  constructor
  · intro h
    by_contra hw
    exact not_buddySound hw h
  intro hw mem ops s hrun
  have hinv := sysInv_run hw ha hrun
  refine ⟨hinv.sound, fun op hm => ?_⟩
  obtain ⟨hj, hp | ⟨s', hs', -⟩⟩ := step_spec hinv op hm
  · exact ⟨hj, .inl hp⟩
  · exact ⟨hj, .inr ⟨s', hs'⟩⟩

theorem buddySound_128_pages : BuddySound [⟨0x100000, 0x181000, by decide, by decide⟩] :=
  (buddySound_iff _ (List.pairwise_singleton _ _)).2 (by
    intro r hr
    rw [List.mem_singleton] at hr
    subst hr
    decide +kernel)

/-- With one usable page, allocating it and freeing it again unlinks a node behind the
end of the area, which is on no list. -/
theorem one_page_not_sound :
    ¬ BuddySound [⟨0x100000, 0x102000, by decide, by decide⟩] ∧
    ((do
      let s ← step (boot (fun _ => false) [⟨0x100000, 0x102000, by decide, by decide⟩]) (.alloc [])
      step s (.free 0x100000)).map fun _ => ()) = .error .unlinked := by
  refine ⟨not_buddySound fun h => ?_, by decide +kernel⟩
  have := h _ List.mem_cons_self
  revert this
  decide +kernel

end Weenix.Page
