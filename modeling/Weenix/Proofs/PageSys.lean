import Weenix.Proofs.PageJoin

/-! The allocator as a whole. Its free blocks and the live blocks tile the usable areas
of the groups; every call keeps this, whichever group it works in and however often it
splits or joins there. -/

namespace Weenix.Page

open Cover Pagegroup List

/-! ### What holds between calls -/

def liveSize (npages : ℕ) : ℕ :=
  match orderOf npages with
  | .ok order => blockSize order
  | .error _ => 0

def freeBlocksOf (gs : List Pagegroup) : List (ℕ × ℕ) := gs.flatMap Pagegroup.freeBlocks

def liveBlocks (live : List (ℕ × ℕ)) : List (ℕ × ℕ) := live.map fun b => (b.1, liveSize b.2)

def blocks (s : Sys) : List (ℕ × ℕ) := freeBlocksOf s.st.groups ++ liveBlocks s.live

def InArea (gs : List Pagegroup) (x : ℕ) : Prop := ∃ g ∈ gs, g.baseaddr ≤ x ∧ x < g.endaddr

def Pagegroup.freePages (g : Pagegroup) : ℕ :=
  ((List.range PAGE_NSIZES).map fun k => (g.freelist k).length * 2 ^ k).sum

def freePages (gs : List Pagegroup) : ℕ := (gs.map Pagegroup.freePages).sum

def Apart (g h : Pagegroup) : Prop := g.endaddr ≤ h.baseaddr ∨ h.endaddr ≤ g.baseaddr

def areas (gs : List Pagegroup) : List (ℕ × ℕ) := gs.map fun g => (g.baseaddr, g.endaddr)

/-- What holds between two calls. `F` lists the usable areas, which never change. -/
structure SysInv (F : List (ℕ × ℕ)) (s : Sys) : Prop where
  areas : areas s.st.groups = F
  core : ∀ g ∈ s.st.groups, g.Core ∧ g.Lone
  apart : s.st.groups.Pairwise Apart
  tiles : Tiles (blocks s) (InArea s.st.groups)
  live : ∀ b ∈ s.live, ∃ o, orderOf b.2 = .ok o ∧ ∃ g ∈ s.st.groups, g.IsBlock o b.1
  count : s.st.freecount = freePages s.st.groups

variable {F : List (ℕ × ℕ)}

/-! ### Pages on the free lists -/

theorem total_freeBlocks (g : Pagegroup) : total g.freeBlocks = g.freePages * PAGE_SIZE := by
  have h : ∀ ks : List ℕ,
      total (ks.flatMap fun k => (g.freelist k).map fun a => (a, blockSize k)) =
        (ks.map fun k => (g.freelist k).length * 2 ^ k).sum * PAGE_SIZE := by
    intro ks
    induction ks with
    | nil => simp [total]
    | cons k ks ih =>
      have hk : total ((g.freelist k).map fun a => (a, blockSize k)) =
          (g.freelist k).length * 2 ^ k * PAGE_SIZE := by
        simp [total, blockSize, Function.comp_def, map_const', Nat.mul_assoc]
      rw [flatMap_cons, total_append, hk, ih, map_cons, sum_cons, Nat.add_mul]
  exact h _

theorem total_freeBlocksOf (gs : List Pagegroup) : total (freeBlocksOf gs) = freePages gs * PAGE_SIZE := by
  induction gs with
  | nil => simp [freeBlocksOf, freePages, total]
  | cons g gs ih =>
    rw [freeBlocksOf, flatMap_cons, total_append, total_freeBlocks, ← freeBlocksOf, ih,
      ← Nat.add_mul]
    rfl

theorem freePages_eq {gs gs' : List Pagegroup} {n k : ℕ}
    (h : ∀ x, depth (freeBlocksOf gs') x = depth ((n, blockSize k) :: freeBlocksOf gs) x) :
    freePages gs' = freePages gs + 2 ^ k := by
  have ht := total_congr h
  have hcons : total ((n, blockSize k) :: freeBlocksOf gs) = blockSize k + total (freeBlocksOf gs) :=
    rfl
  rw [hcons, total_freeBlocksOf, total_freeBlocksOf, blockSize, ← Nat.add_mul] at ht
  have := Nat.eq_of_mul_eq_mul_right (by simp [PAGE_SIZE]) ht
  omega

/-- There are never enough free pages to overflow the counter. -/
theorem SysInv.freePages_le {s : Sys} (h : SysInv F s) : freePages s.st.groups ≤ 2 ^ 20 := by
  have hd : ∀ x, depth (freeBlocksOf s.st.groups) x ≤ 1 := by
    intro x
    have := h.tiles.depth_le x
    rw [blocks, depth_append] at this
    omega
  have hle : total (freeBlocksOf s.st.groups) ≤ 2 ^ 32 := by
    refine total_le hd fun b hb => ?_
    obtain ⟨g, hg, hbg⟩ := mem_flatMap.1 hb
    obtain ⟨k, hk, ha, hs⟩ := mem_freeBlocks.1 hbg
    have hc := (h.core g hg).1
    obtain ⟨i, hi, hle⟩ := hc.placed k hk _ ha
    have := block_stop_le hc.frame hle
    have := hc.frame.lt
    omega
  rw [total_freeBlocksOf, PAGE_SIZE, PAGE_SHIFT] at hle
  omega

/-! ### One group of the list -/

theorem firstGroup_some {p : Pagegroup → Bool} {gs : List Pagegroup} {c : Cursor}
    (h : firstGroup p gs = some c) : c.groups = gs ∧ p c.group = true ∧ ∀ g ∈ c.before, p g = false := by
  induction gs generalizing c with
  | nil => simp [firstGroup] at h
  | cons g gs ih =>
    by_cases hp : p g = true
    · simp only [firstGroup, if_pos hp, Option.some.injEq] at h
      subst h
      exact ⟨rfl, hp, by simp⟩
    simp only [firstGroup, if_neg hp, Option.map_eq_some_iff] at h
    obtain ⟨c', hc', rfl⟩ := h
    obtain ⟨h1, h2, h3⟩ := ih hc'
    refine ⟨?_, h2, ?_⟩
    · rw [← h1]
      rfl
    exact forall_mem_cons.2 ⟨by simpa using hp, h3⟩

theorem firstGroup_none {p : Pagegroup → Bool} {gs : List Pagegroup}
    (h : firstGroup p gs = none) : ∀ g ∈ gs, p g = false := by
  induction gs with
  | nil => simp
  | cons g gs ih =>
    by_cases hp : p g = true
    · simp [firstGroup, hp] at h
    simp only [firstGroup, if_neg hp, Option.map_eq_none_iff] at h
    exact forall_mem_cons.2 ⟨by simpa using hp, ih h⟩

variable {s : Sys} {c : Cursor} {g' : Pagegroup}

theorem Cursor.mem_group (c : Cursor) : c.group ∈ c.groups := by simp [Cursor.groups]

theorem depth_cursor (c : Cursor) (x : ℕ) : depth (freeBlocksOf c.groups) x =
      depth (freeBlocksOf (c.before ++ c.after)) x + depth c.group.freeBlocks x := by
  simp only [freeBlocksOf, Cursor.groups, flatMap_append, flatMap_cons, depth_append]
  omega

theorem inArea_cursor (hs : SameFrame c.group g') (x : ℕ) :
    InArea { c with group := g' }.groups x ↔ InArea c.groups x := by
  simp only [InArea, Cursor.groups, mem_append, mem_cons, or_and_right, exists_or,
    exists_eq_left, hs.base, hs.stop]

theorem areas_cursor (hs : SameFrame c.group g') : areas { c with group := g' }.groups = areas c.groups := by
  simp only [areas, Cursor.groups, map_append, map_cons, hs.base, hs.stop]

theorem apart_cursor (hs : SameFrame c.group g') (h : c.groups.Pairwise Apart) :
    { c with group := g' }.groups.Pairwise Apart := by
  simp only [Cursor.groups, pairwise_append, pairwise_cons, mem_cons,
    forall_eq_or_imp, Apart, hs.base, hs.stop] at h ⊢
  exact h

/-- Replacing one group and the live list by others that cover the same addresses. -/
theorem SysInv.update {live' : List (ℕ × ℕ)} {fc : ℕ} (h : SysInv F s) (hc : c.groups = s.st.groups)
    (hcore : g'.Core) (hlone : g'.Lone) (hs : SameFrame c.group g')
    (hdepth : ∀ x, depth g'.freeBlocks x + depth (liveBlocks live') x =
      depth c.group.freeBlocks x + depth (liveBlocks s.live) x)
    (hlive : ∀ b ∈ live', b ∈ s.live ∨ ∃ o, orderOf b.2 = .ok o ∧ c.group.IsBlock o b.1)
    (hcount : fc = freePages { c with group := g' }.groups) :
    SysInv F ⟨⟨{ c with group := g' }.groups, fc⟩, live'⟩ := by
  refine ⟨(areas_cursor hs).trans (hc ▸ h.areas), ?_, apart_cursor hs (hc ▸ h.apart), ?_, ?_, hcount⟩
  · intro g hg
    simp only [Cursor.groups, mem_append, mem_cons] at hg
    rcases hg with hg | rfl | hg
    · exact h.core g (hc ▸ mem_append_left _ hg)
    · exact ⟨hcore, hlone⟩
    · exact h.core g (hc ▸ mem_append_right _ (mem_cons_of_mem _ hg))
  · have hd : ∀ x, depth (blocks ⟨⟨{ c with group := g' }.groups, fc⟩, live'⟩) x =
        depth (blocks s) x := by
      intro x
      have := hdepth x
      rw [blocks, blocks, depth_append, depth_append, depth_cursor, ← hc, depth_cursor]
      simp only
      omega
    refine ⟨fun x hx => (hd x).trans (h.tiles.inside x ?_),
      fun x hx => (hd x).trans (h.tiles.outside x fun hx' => hx ?_)⟩
    · rw [← hc]
      exact (inArea_cursor hs x).1 hx
    · rw [← hc] at hx'
      exact (inArea_cursor hs x).2 hx'
  · intro b hb
    rcases hlive b hb with hb | ⟨o, ho, hblock⟩
    · obtain ⟨o, ho, g, hg, hblock⟩ := h.live b hb
      rw [← hc, Cursor.groups, mem_append, mem_cons] at hg
      refine ⟨o, ho, ?_⟩
      rcases hg with hg | rfl | hg
      · exact ⟨g, by simp [Cursor.groups, hg], hblock⟩
      · exact ⟨g', by simp [Cursor.groups], hs.isBlock.2 hblock⟩
      · exact ⟨g, by simp [Cursor.groups, hg], hblock⟩
    · exact ⟨o, ho, g', by simp [Cursor.groups], hs.isBlock.2 hblock⟩

/-! ### Freeing -/

theorem orderOf_lt {n o : ℕ} (h : orderOf n = .ok o) : o < PAGE_NSIZES := by
  unfold orderOf at h
  split at h
  · next order hf =>
    have := mem_of_find?_eq_some hf
    rw [Except.ok.injEq] at h
    exact h ▸ mem_range.1 this
  · cases h

theorem liveSize_eq {n o : ℕ} (h : orderOf n = .ok o) : liveSize n = blockSize o := by
  rw [liveSize, h]

theorem SysInv.depth_group_le (h : SysInv F s) (hc : c.groups = s.st.groups) (x : ℕ) :
    depth c.group.freeBlocks x + depth (liveBlocks s.live) x ≤ 1 := by
  have := h.tiles.depth_le x
  rw [blocks, depth_append, ← hc, depth_cursor] at this
  omega

/-- An address lies in at most one group. -/
theorem SysInv.group_unique (h : SysInv F s) {g g' : Pagegroup} (hg : g ∈ s.st.groups)
    (hg' : g' ∈ s.st.groups) {x : ℕ} (hx : g.baseaddr ≤ x ∧ x < g.endaddr)
    (hx' : g'.baseaddr ≤ x ∧ x < g'.endaddr) : g = g' := by
  by_contra hne
  have hsymm : Std.Symm Apart := ⟨fun _ _ => Or.symm⟩
  have := h.apart.forall hg hg' hne
  rw [Apart] at this
  omega

theorem Pagegroup.Core.isBlock_area {g : Pagegroup} {k a : ℕ} (hc : g.Core) (h : g.IsBlock k a) :
    g.baseaddr ≤ a ∧ a + blockSize k ≤ g.endaddr := by
  obtain ⟨i, rfl, hi⟩ := h
  exact ⟨Nat.le_add_right _ _, block_stop_le hc.frame hi⟩

/-- Every join that a free in this state leads to is with a free buddy. -/
def FreeJoins (st : State) (addr order : ℕ) : Prop :=
  ∀ c, firstGroup (pagegroupFromAddress addr) st.groups = some c → c.group.FreesOnto order addr

theorem pageFreeOrder_spec (h : SysInv F s) {addr n o : ℕ} (ho : orderOf n = .ok o) (hm : (addr, n) ∈ s.live) :
    FreeJoins s.st addr o ∧ ∃ st, pageFreeOrder s.st addr o = .ok st ∧
      SysInv F ⟨st, s.live.erase (addr, n)⟩ := by
  obtain ⟨o', ho', g, hg, hblock⟩ := h.live _ hm
  obtain rfl : o' = o := by rw [ho, Except.ok.injEq] at ho'; exact ho'.symm
  change g.IsBlock o' addr at hblock
  have hk := orderOf_lt ho
  have hsize := blockSize_pos o'
  have harea := (h.core g hg).1.isBlock_area hblock
  cases hf : firstGroup (pagegroupFromAddress addr) s.st.groups with
  | none =>
    have := firstGroup_none hf g hg
    simp only [pagegroupFromAddress, Bool.and_eq_false_iff, decide_eq_false_iff_not] at this
    omega
  | some c =>
    obtain ⟨hc, hp, -⟩ := firstGroup_some hf
    have hcm : c.group ∈ s.st.groups := hc ▸ c.mem_group
    obtain rfl : c.group = g := by
      simp only [pagegroupFromAddress, Bool.and_eq_true, decide_eq_true_eq] at hp
      exact h.group_unique hcm hg hp ⟨harea.1, by omega⟩
    have hlive : ∀ x, depth (liveBlocks s.live) x =
        depth ((addr, blockSize o') :: liveBlocks (s.live.erase (addr, n))) x := by
      intro x
      have hperm := (perm_cons_erase hm).map fun b : ℕ × ℕ => (b.1, liveSize b.2)
      rw [map_cons, liveSize_eq ho] at hperm
      exact depth_perm hperm x
    obtain ⟨hjoin, g', hfree, hcore, hlone, hs, hd⟩ := freeInGroup_spec (h.core _ hg).1
      (h.core _ hg).2 hk hblock fun x => by
        have := h.depth_group_le hc x
        rw [hlive, depth_cons] at this
        rw [depth_cons]
        omega
    refine ⟨fun c' hc' => ?_, ⟨{ c with group := g' }.groups, word (s.st.freecount + 1 <<< o')⟩,
      ?_, h.update hc hcore hlone hs ?_ ?_ ?_⟩
    · rw [hf, Option.some.injEq] at hc'
      exact hc' ▸ hjoin
    · simp only [pageFreeOrder, hf, hfree, bind, Except.bind, pure, Except.pure]
    · intro x
      rw [hd, hlive, depth_cons, depth_cons]
      omega
    · exact fun b hb => .inl (mem_of_mem_erase hb)
    have hpages : freePages { c with group := g' }.groups = freePages s.st.groups + 2 ^ o' := by
      refine freePages_eq (n := addr) fun x => ?_
      rw [depth_cursor, depth_cons, ← hc, depth_cursor]
      simp only [hd, depth_cons]
      omega
    have hle := h.freePages_le
    have hpow : 2 ^ o' ≤ 2 ^ 7 := Nat.pow_le_pow_right (by norm_num) (by
      rw [PAGE_NSIZES] at hk; omega)
    rw [hpages, h.count, word, Nat.shiftLeft_eq, Nat.one_mul]
    omega

theorem pageFreeN_spec {a n : ℕ} (h : SysInv F s) (hm : (a, n) ∈ s.live) :
    (∀ o, orderOf n = .ok o → FreeJoins s.st a o) ∧ ∃ st, pageFreeN s.st a n = .ok st ∧
      SysInv F ⟨st, s.live.erase (a, n)⟩ := by
  obtain ⟨o, ho, -⟩ := h.live _ hm
  obtain ⟨hj, st, hst, hinv⟩ := pageFreeOrder_spec h ho hm
  refine ⟨fun o' ho' => ?_, st, ?_, hinv⟩
  · rw [ho, Except.ok.injEq] at ho'
    exact ho' ▸ hj
  · simp only [pageFreeN, ho, bind, Except.bind]
    exact hst

/-- The joins that reclaiming the slabs leads to, one slab after the other. -/
def ReclaimJoins : List (ℕ × ℕ) → State → Prop
  | [], _ => True
  | b :: slabs, st => (∀ o, orderOf b.2 = .ok o → FreeJoins st b.1 o) ∧
      ∀ st', pageFreeN st b.1 b.2 = .ok st' → ReclaimJoins slabs st'

theorem reclaim_spec (slabs : List (ℕ × ℕ)) : ∀ {s : Sys}, SysInv F s → slabs.Nodup → slabs ⊆ s.live →
    ReclaimJoins slabs s.st ∧ ∃ st, reclaim slabs s.st = .ok st ∧ SysInv F ⟨st, s.live.diff slabs⟩ := by
  induction slabs with
  | nil => exact fun h _ _ => ⟨trivial, _, rfl, by simpa using h⟩
  | cons b slabs ih =>
    intro s h hn hsub
    rw [nodup_cons] at hn
    obtain ⟨hj, st, hst, hinv⟩ := pageFreeN_spec (a := b.1) (n := b.2) h (hsub mem_cons_self)
    obtain ⟨hj', st', hst', hinv'⟩ := ih hinv hn.2 fun x hx =>
      (mem_erase_of_ne (by rintro rfl; exact hn.1 hx)).2 (hsub (mem_cons_of_mem _ hx))
    refine ⟨⟨hj, fun st1 h1 => ?_⟩, st', ?_, by rw [diff_cons]; exact hinv'⟩
    · rw [hst, Except.ok.injEq] at h1
      exact h1 ▸ hj'
    · rw [reclaim, foldlM_cons, hst]
      exact hst'

/-! ### Allocating -/

theorem splitSearch_spec (h : SysInv F s) (order : ℕ) (norders : List ℕ)
    (hn : ∀ n ∈ norders, order ≤ n ∧ n < PAGE_NSIZES) :
    splitSearch order s.st.groups norders = .ok none ∨
    ∃ (c : Cursor) (g' : Pagegroup), splitSearch order s.st.groups norders = .ok (some { c with group := g' }) ∧
      c.groups = s.st.groups ∧ g'.Core ∧ SameFrame c.group g' ∧
      (∀ x, depth g'.freeBlocks x = depth c.group.freeBlocks x) ∧ g'.freelist order ≠ [] ∧
      g'.LoneTail order := by
  induction norders with
  | nil => exact .inl rfl
  | cons n norders ih =>
    cases hf : firstGroup (hasFree n) s.st.groups with
    | none =>
      simp only [splitSearch, hf]
      exact ih fun m hm => hn m (mem_cons_of_mem _ hm)
    | some c =>
      right
      obtain ⟨hc, hp, -⟩ := firstGroup_some hf
      have hcm : c.group ∈ s.st.groups := hc ▸ c.mem_group
      obtain ⟨hle, hlt⟩ := hn n mem_cons_self
      have he : order + (n - order) = n := by omega
      have hne : c.group.freelist (order + (n - order)) ≠ [] := by
        rw [he]
        simpa [hasFree] using hp
      obtain ⟨g', h1, h2, h3, h4, h5, h6⟩ := splitDown_spec order (n - order) (by omega)
        (h.core _ hcm).1 (fun x => by have := h.depth_group_le hc x; omega) hne
        ((h.core _ hcm).2.tail _)
      refine ⟨c, g', ?_, hc, h2, h3, h4, h5, h6⟩
      have hfree : hasFree order g' = true := by simpa [hasFree] using h5
      simp only [splitSearch, hf, h1, hfree, bind, Except.bind, if_true, pure, Except.pure]

/-- Taking the head of a free list from a group that has been split as far as needed. -/
theorem SysInv.take {n o : ℕ} (h : SysInv F s) (ho : orderOf n = .ok o)
    (hc : c.groups = s.st.groups) (hcore : g'.Core) (hs : SameFrame c.group g')
    (hd : ∀ x, depth g'.freeBlocks x = depth c.group.freeBlocks x) (hne : g'.freelist o ≠ [])
    (ht : g'.LoneTail o) :
    ∃ g1 addr rest, g'.freelist o = addr :: rest ∧ flipPair (g'.setFree o rest) o addr = .ok g1 ∧
      SysInv F ⟨⟨{ c with group := g1 }.groups, wordSub s.st.freecount (1 <<< o)⟩,
        (addr, n) :: s.live⟩ := by
  have hk := orderOf_lt ho
  obtain ⟨g1, addr, rest, hl, hflip, hcore1, hlone1, hs1, hblock, hd1⟩ := take_spec hcore hk hne ht
  have hss := hs.trans hs1
  refine ⟨g1, addr, rest, hl, hflip, h.update hc hcore1 hlone1 hss ?_ ?_ ?_⟩
  · intro x
    rw [← hd, hd1, liveBlocks, map_cons, depth_cons, depth_cons, liveSize_eq ho, ← liveBlocks]
    simp only
    omega
  · intro b hb
    rcases mem_cons.1 hb with rfl | hb
    · exact .inr ⟨o, ho, hs.isBlock.1 hblock⟩
    · exact .inl hb
  have hpages : freePages s.st.groups = freePages { c with group := g1 }.groups + 2 ^ o := by
    refine freePages_eq (n := addr) fun x => ?_
    rw [depth_cons, ← hc, depth_cursor, depth_cursor, ← hd, hd1, depth_cons]
    simp only
    omega
  have hle := h.freePages_le
  rw [hpages] at hle
  rw [wordSub, h.count, hpages, Nat.shiftLeft_eq, Nat.one_mul]
  generalize 2 ^ o = m at hle ⊢
  omega

theorem pageAllocOrder_spec {slabs : List (ℕ × ℕ)} {n o : ℕ} (h : SysInv F s)
    (ho : orderOf n = .ok o) (hn : slabs.Nodup) (hsub : slabs ⊆ s.live) :
    ∃ addr st, pageAllocOrder s.st slabs o = .ok (addr, st) ∧ SysInv F ⟨st, liveAfter s.live slabs n addr⟩ := by
  cases hf : firstGroup (hasFree o) s.st.groups with
  | some c =>
    obtain ⟨hc, hp, -⟩ := firstGroup_some hf
    have hcm : c.group ∈ s.st.groups := hc ▸ c.mem_group
    obtain ⟨g1, addr, rest, hl, hflip, hinv⟩ := h.take ho hc (h.core _ hcm).1 (SameFrame.refl _)
      (fun _ => rfl) (by simpa [hasFree] using hp) ((h.core _ hcm).2.tail _)
    refine ⟨some addr, _, ?_, hinv⟩
    simp only [pageAllocOrder, hf, pure, Except.pure, bind, Except.bind, hl, hflip]
  | none =>
    have hrange : ∀ m ∈ List.range' (o + 1) (PAGE_NSIZES - (o + 1)), o ≤ m ∧ m < PAGE_NSIZES := by
      intro m hm
      rw [mem_range'_1] at hm
      omega
    rcases splitSearch_spec h o _ hrange with hsearch | ⟨c, g', hsearch, hc, h1, h2, h3, h4, h5⟩
    · obtain ⟨-, st, hst, hinv⟩ := reclaim_spec slabs h hn hsub
      refine ⟨none, st, ?_, hinv⟩
      simp only [pageAllocOrder, hf, hsearch, bind, Except.bind, hst, pure, Except.pure]
    obtain ⟨g1, addr, rest, hl, hflip, hinv⟩ := h.take ho hc h1 h2 h3 h4 h5
    refine ⟨some addr, _, ?_, hinv⟩
    simp only [pageAllocOrder, hf, hsearch, bind, Except.bind, hl, hflip, pure, Except.pure]

end Weenix.Page
