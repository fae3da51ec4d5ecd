import Weenix.Lib.Cover
import Weenix.Spec.Page

/-! One page group: what holds of its free lists and pair bits between two calls. A pair bit
is the parity of how many of the two buddies are on the free list of their order. -/

namespace Weenix.Page

open Cover List

def blockSize (order : ℕ) : ℕ := 2 ^ order * PAGE_SIZE

namespace Pagegroup

variable {g g' : Pagegroup} {k i j a : ℕ}

def npages (g : Pagegroup) : ℕ := (g.endaddr - g.baseaddr) / PAGE_SIZE

def blockAddr (g : Pagegroup) (k i : ℕ) : ℕ := g.baseaddr + i * blockSize k

/-- The free blocks, as intervals of addresses. -/
def freeBlocks (g : Pagegroup) : List (ℕ × ℕ) :=
  (List.range PAGE_NSIZES).flatMap fun k => (g.freelist k).map fun a => (a, blockSize k)

/-- How many of the two buddies of pair `j` are on the free list of order `k`. -/
def pairCount (g : Pagegroup) (k j : ℕ) : ℕ :=
  (g.freelist k).count (g.blockAddr k (2 * j)) + (g.freelist k).count (g.blockAddr k (2 * j + 1))

/-- What never changes after the group is created. The usable area is a whole number of
largest blocks, and the used bits of the maps do not overlap. -/
structure Frame (g : Pagegroup) : Prop where
  base : PAGE_SIZE ∣ g.baseaddr
  stop : g.endaddr = g.baseaddr + g.npages * PAGE_SIZE
  lt : g.endaddr < 2 ^ 32
  whole : 2 ^ (PAGE_NSIZES - 1) ∣ g.npages
  maps : ∀ k k', 1 ≤ k → k < k' → k' < PAGE_NSIZES →
    8 * g.map k' + g.npages / 2 ^ k' ≤ 8 * g.map k

/-- `addr` is a block of order `k` that lies in the group. -/
def IsBlock (g : Pagegroup) (k a : ℕ) : Prop :=
  ∃ i, a = g.blockAddr k i ∧ (i + 1) * 2 ^ k ≤ g.npages

structure Core (g : Pagegroup) : Prop where
  frame : g.Frame
  placed : ∀ k < PAGE_NSIZES, ∀ a ∈ g.freelist k, g.IsBlock k a
  bits : ∀ k < PAGE_NSIZES - 1, ∀ j, (j + 1) * 2 ^ (k + 1) ≤ g.npages →
    g.bitCheck (k + 1) j = decide (g.pairCount k j % 2 = 1)

/-- No two buddies below the largest order are both free. -/
def Lone (g : Pagegroup) : Prop := ∀ k < PAGE_NSIZES - 1, ∀ j, g.pairCount k j ≤ 1

/-- The parts of a group that no operation touches. -/
structure SameFrame (g g' : Pagegroup) : Prop where
  base : g'.baseaddr = g.baseaddr
  stop : g'.endaddr = g.endaddr
  map : g'.map = g.map

theorem SameFrame.refl (g : Pagegroup) : SameFrame g g := ⟨rfl, rfl, rfl⟩

theorem SameFrame.trans {a b c : Pagegroup} (h : SameFrame a b) (h' : SameFrame b c) : SameFrame a c :=
  ⟨h'.base.trans h.base, h'.stop.trans h.stop, h'.map.trans h.map⟩

theorem SameFrame.npages (h : SameFrame g g') : g'.npages = g.npages := by
  rw [Pagegroup.npages, h.base, h.stop, Pagegroup.npages]

theorem SameFrame.blockAddr (h : SameFrame g g') (k i : ℕ) : g'.blockAddr k i = g.blockAddr k i := by
  rw [Pagegroup.blockAddr, h.base, Pagegroup.blockAddr]

theorem SameFrame.isBlock (h : SameFrame g g') : g'.IsBlock k a ↔ g.IsBlock k a := by
  simp only [IsBlock, h.blockAddr, h.npages]

theorem SameFrame.frame (h : SameFrame g g') (hf : g.Frame) : g'.Frame := by
  obtain ⟨h1, h2, h3, h4, h5⟩ := hf
  constructor
  · rw [h.base]; exact h1
  · rw [h.base, h.stop, h.npages]; exact h2
  · rw [h.stop]; exact h3
  · rw [h.npages]; exact h4
  · rw [h.npages, h.map]; exact h5

/-! ### Field lemmas -/

@[simp] theorem setFree_same (l : List ℕ) : (g.setFree k l).freelist k = l := by
  simp [setFree]

theorem setFree_other (l : List ℕ) (h : j ≠ k) : (g.setFree k l).freelist j = g.freelist j := by
  simp [setFree, h]

theorem sameFrame_setFree (l : List ℕ) : SameFrame g (g.setFree k l) := ⟨rfl, rfl, rfl⟩

theorem sameFrame_insertHead : SameFrame g (g.insertHead k a) := ⟨rfl, rfl, rfl⟩

theorem sameFrame_bitFlip : SameFrame g (g.bitFlip k i) := ⟨rfl, rfl, rfl⟩

@[simp] theorem bitFlip_freelist : (g.bitFlip k i).freelist = g.freelist := rfl

@[simp] theorem insertHead_same : (g.insertHead k a).freelist k = a :: g.freelist k := by
  simp [insertHead]

theorem insertHead_other (h : j ≠ k) : (g.insertHead k a).freelist j = g.freelist j :=
  setFree_other _ h

/-- Taking the head off a list and putting it back. -/
theorem insertHead_setFree {l : List ℕ} (h : g.freelist k = a :: l) : (g.setFree k l).insertHead k a = g := by
  simp [insertHead, setFree, ← h]

theorem blockSize_pos (k : ℕ) : 0 < blockSize k := by
  simp [blockSize, PAGE_SIZE]

theorem blockSize_succ (k : ℕ) : blockSize (k + 1) = blockSize k + blockSize k := by
  simp only [blockSize, pow_succ]; ring

theorem blockAddr_inj (g : Pagegroup) {k i j : ℕ} (h : g.blockAddr k i = g.blockAddr k j) : i = j := by
  have := blockSize_pos k
  simp only [blockAddr, Nat.add_left_cancel_iff] at h
  exact Nat.eq_of_mul_eq_mul_right this h

theorem blockAddr_double (g : Pagegroup) (k i : ℕ) : g.blockAddr k (2 * i) = g.blockAddr (k + 1) i := by
  simp only [blockAddr, blockSize_succ]; ring

theorem blockAddr_double_succ (g : Pagegroup) (k i : ℕ) :
    g.blockAddr k (2 * i + 1) = g.blockAddr (k + 1) i + blockSize k := by
  simp only [blockAddr, blockSize_succ]; ring

/-! ### Free blocks as intervals -/

theorem freeBlocks_insertHead (hk : k < PAGE_NSIZES) (a : ℕ) :
    (g.insertHead k a).freeBlocks.Perm ((a, blockSize k) :: g.freeBlocks) := by
  obtain ⟨l, r, hl, hn⟩ : ∃ l r, List.range PAGE_NSIZES = l ++ k :: r ∧ k ∉ l ++ r := by
    obtain ⟨l, r, h⟩ := append_of_mem (mem_range.2 hk)
    have hd : (l ++ k :: r).Nodup := h ▸ nodup_range
    exact ⟨l, r, h, (nodup_middle.1 hd).notMem⟩
  have hne : ∀ x ∈ l ++ r, (g.insertHead k a).freelist x = g.freelist x := fun x hx =>
    insertHead_other fun h => hn (h ▸ hx)
  have hf : ∀ m : List ℕ, (∀ x ∈ m, x ∈ l ++ r) →
      m.flatMap (fun k' => ((g.insertHead k a).freelist k').map fun b => (b, blockSize k')) =
        m.flatMap (fun k' => (g.freelist k').map fun b => (b, blockSize k')) := fun m hm =>
    flatMap_congr fun x hx => by rw [hne x (hm x hx)]
  simp only [freeBlocks, hl, flatMap_append, flatMap_cons, insertHead_same,
    map_cons, cons_append]
  rw [hf l (by simp +contextual), hf r (by simp +contextual)]
  exact perm_middle

theorem freeBlocks_setFree {l : List ℕ} (hk : k < PAGE_NSIZES) (h : g.freelist k = a :: l) :
    g.freeBlocks.Perm ((a, blockSize k) :: (g.setFree k l).freeBlocks) := by
  have := freeBlocks_insertHead (g := g.setFree k l) hk a
  rwa [insertHead_setFree h] at this

theorem mem_freeBlocks {b : ℕ × ℕ} :
    b ∈ g.freeBlocks ↔ ∃ k < PAGE_NSIZES, b.1 ∈ g.freelist k ∧ b.2 = blockSize k := by
  simp only [freeBlocks, mem_flatMap, mem_range, mem_map]
  constructor
  · rintro ⟨k, hk, a, ha, rfl⟩
    exact ⟨k, hk, ha, rfl⟩
  · rintro ⟨k, hk, ha, hs⟩
    exact ⟨k, hk, b.1, ha, by rw [← hs]⟩

theorem blockSize_inj {k k' : ℕ} (h : blockSize k = blockSize k') : k = k' := by
  have hp : 0 < PAGE_SIZE := by simp [PAGE_SIZE]
  exact Nat.pow_right_injective le_rfl (Nat.eq_of_mul_eq_mul_right hp h)

section
variable (hd : ∀ x, depth g.freeBlocks x ≤ 1) (hk : k < PAGE_NSIZES)
include hd hk

/-- A node is on at most one free list. -/
theorem order_unique {k' : ℕ} (hk' : k' < PAGE_NSIZES) (ha : a ∈ g.freelist k) (ha' : a ∈ g.freelist k') : k = k' := by
  have hp := pairwise_of_depth_le hd
  have h : ((a, blockSize k) : ℕ × ℕ) = (a, blockSize k') :=
    eq_of_covers hp (mem_freeBlocks.2 ⟨k, hk, ha, rfl⟩) (mem_freeBlocks.2 ⟨k', hk', ha', rfl⟩)
      (x := a) ⟨le_rfl, Nat.lt_add_of_pos_right (blockSize_pos k)⟩
      ⟨le_rfl, Nat.lt_add_of_pos_right (blockSize_pos k')⟩
  exact blockSize_inj (Prod.ext_iff.1 h).2

/-- A node is on a free list at most once. -/
theorem count_le_one (a : ℕ) : (g.freelist k).count a ≤ 1 := by
  have h1 : (g.freelist k).count a ≤ g.freeBlocks.count (a, blockSize k) := by
    obtain ⟨l, r, hl⟩ := append_of_mem (mem_range.2 hk)
    rw [freeBlocks, hl, flatMap_append, flatMap_cons, count_append,
      count_append]
    have hinj : Function.Injective fun b : ℕ => (b, blockSize k) := fun b c h =>
      (Prod.ext_iff.1 h).1
    have := count_map_of_injective (g.freelist k) _ hinj a
    omega
  have h2 : g.freeBlocks.count (a, blockSize k) ≤ depth g.freeBlocks a := by
    refine countP_mono_left fun b _ hb => ?_
    obtain rfl := by simpa using hb
    have := blockSize_pos k
    exact decide_eq_true ⟨le_rfl, Nat.lt_add_of_pos_right this⟩
  exact h1.trans (h2.trans (hd a))

theorem nodup_freelist : (g.freelist k).Nodup :=
  nodup_iff_count_le_one.2 (count_le_one hd hk)

end

end Pagegroup

end Weenix.Page
