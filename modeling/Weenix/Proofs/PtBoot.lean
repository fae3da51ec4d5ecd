import Weenix.Lib.Exec
import Weenix.Proofs.PtWalk

/-! The memory that `pt_init` hands to the page allocator. The address of its start is the
last table filled plus a quarter of a page, which `page_add_range` rounds down to that table. -/

namespace Weenix.Pt

open Exec
open Weenix.Page (PAGE_SHIFT PAGE_SIZE word wordSub pageAlignDown)

def Given (start stop page : ℕ) : Prop :=
  page % PAGE_SIZE = 0 ∧ pageAlignDown start ≤ page ∧ page < pageAlignDown stop

def InImage (kernelEnd page : ℕ) : Prop := kernelStart ≤ page ∧ page < kernelEnd

/-- The two pages of the directory, which lies behind the image. -/
def InDirectory (kernelEnd page : ℕ) : Prop := kernelEnd ≤ page ∧ page < kernelEnd + 2 * PAGE_SIZE

namespace Boot

variable {b b' : Boot} {finalPage physmax pagetable vaddr paddr table : ℕ}

/-- A filled table is one that the directory refers to. -/
theorem refersTo_of_fill {pt pdflags ptflags vstart pstart : ℕ} (hp : present (pdflags % PAGE_SIZE) = true)
    (h : b.ptFillPage finalPage pt pdflags ptflags vstart pstart = .ok b') : b'.pagedir.RefersTo pt := by
  unfold ptFillPage at h
  split_ifs at h with hk
  obtain ⟨b1, -, h⟩ := ok_of_bind h
  obtain ⟨entries, -, h⟩ := ok_of_bind h
  obtain ⟨⟨page, b2⟩, -, h⟩ := ok_of_bind h
  cases h
  refine ⟨vaddrToPdindex vstart, vaddrToPdindex_lt vstart, ?_, ?_⟩
  · simp [Pagedir.setEntry, present_or, hp]
  · simp [Pagedir.setEntry]

/-- The loop ends with the first table behind which the physical memory does, and this table is
in the directory. The addresses are those after `k` rounds. -/
theorem fillTables_spec (fuel : ℕ) {k : ℕ}
    (h : fillTables finalPage physmax fuel b (word (pagetable + k * PAGE_SIZE)) vaddr
      (word (KERNEL_PHYS_BASE + k * PT_VADDR_SIZE)) = .ok (b', table)) :
    b'.pagedir.RefersTo table ∧ ∃ n, k < n ∧ table = word (pagetable + n * PAGE_SIZE) ∧
      physmax ≤ word (KERNEL_PHYS_BASE + n * PT_VADDR_SIZE) ∧
      ∀ j, k < j → j < n → word (KERNEL_PHYS_BASE + j * PT_VADDR_SIZE) < physmax := by
  induction fuel generalizing b vaddr k with
  | zero => cases h
  | succ fuel ih =>
    have hnext (base size : ℕ) : word (word (base + k * size) + size) = word (base + (k + 1) * size) := by
      simp only [word, Nat.mod_add_mod, Nat.succ_mul, Nat.add_assoc]
    rw [fillTables] at h
    simp only [hnext] at h
    obtain ⟨b1, hfill, h⟩ := ok_of_bind h
    split_ifs at h with hp
    · obtain ⟨hrefers, n, hn, htable, hstop, hgo⟩ := ih h
      refine ⟨hrefers, n, by omega, htable, hstop, fun j hj hjn => ?_⟩
      obtain rfl | hj := Nat.eq_or_lt_of_le hj
      · exact hp
      · exact hgo j hj hjn
    · cases h
      exact ⟨refersTo_of_fill (by decide) hfill, k + 1, by omega, rfl, not_lt.1 hp, by omega⟩

/-- The number of tables that map physical memory behind the first four megabytes of the kernel:
one at least. -/
def tables (physmax : ℕ) : ℕ :=
  max 1 ((physmax - KERNEL_PHYS_BASE + PT_VADDR_SIZE - 1) / PT_VADDR_SIZE)

/-- A loop that ends does so before the physical address wraps around. -/
theorem rounds_eq {n : ℕ} (hn : 0 < n) (hstop : physmax ≤ word (KERNEL_PHYS_BASE + n * PT_VADDR_SIZE))
    (hgo : ∀ j, 0 < j → j < n → word (KERNEL_PHYS_BASE + j * PT_VADDR_SIZE) < physmax) :
    n = tables physmax := by
  simp only [word, KERNEL_PHYS_BASE, PT_VADDR_SIZE, PT_ENTRY_COUNT, PAGE_SIZE, PAGE_SHIFT] at hstop hgo
  have hlt : n < 1024 := by
    by_contra hge
    have hlast := hgo 1023 (by omega) (by omega)
    omega
  have hbefore : n = 1 ∨ 0x100000 + (n - 1) * 0x400000 < physmax := by
    obtain h1 | h1 := Nat.eq_or_lt_of_le (Nat.succ_le_of_lt hn)
    · exact .inl h1.symm
    · have hprev := hgo (n - 1) (by omega) (by omega)
      omega
  simp only [tables, KERNEL_PHYS_BASE, PT_VADDR_SIZE, PT_ENTRY_COUNT, PAGE_SIZE, PAGE_SHIFT]
  omega

/-- The range ends with the memory and starts with the last table filled. -/
theorem ptInit_range {fuel kernelEnd start stop : ℕ}
    (h : ptInit fuel b kernelEnd physmax = .ok (b', start, stop)) :
    stop = word (physmax + (kernelStart - KERNEL_PHYS_BASE)) ∧
      pageAlignDown start = word (kernelEnd + (4 + tables physmax) * PAGE_SIZE) ∧
      b'.pagedir.RefersTo (pageAlignDown start) := by
  unfold ptInit at h
  split_ifs at h with hal
  obtain ⟨b1, -, h⟩ := ok_of_bind h
  obtain ⟨b2, -, h⟩ := ok_of_bind h
  obtain ⟨b3, -, h⟩ := ok_of_bind h
  obtain ⟨b4, -, h⟩ := ok_of_bind h
  obtain ⟨⟨b5, table⟩, hloop, h⟩ := ok_of_bind h
  simp only [pure, Except.pure, Except.ok.injEq, Prod.mk.injEq] at h
  obtain ⟨rfl, rfl, rfl⟩ := h
  have hfirst : word (word (word (kernelEnd + 2 * PAGE_SIZE) + PAGE_SIZE) + PAGE_SIZE) =
      word (kernelEnd + 4 * PAGE_SIZE + 0 * PAGE_SIZE) := by
    simp only [word, PAGE_SIZE, PAGE_SHIFT]
    omega
  rw [hfirst] at hloop
  obtain ⟨hrefers, n, hn, htable, hstop, hgo⟩ := fillTables_spec fuel (k := 0) hloop
  rw [rounds_eq hn hstop hgo, Nat.add_assoc, ← Nat.add_mul] at htable
  -- a page of 4096 bytes starts at the table, so the 1024 bytes added do not leave it
  have hstart : pageAlignDown (word (table + PT_ENTRY_COUNT)) = table := by
    simp only [htable, word, pageAlignDown, PT_ENTRY_COUNT, PAGE_SIZE, PAGE_SHIFT] at hal ⊢
    omega
  have hstop : wordSub (word (physmax + kernelStart)) KERNEL_PHYS_BASE =
      word (physmax + (kernelStart - KERNEL_PHYS_BASE)) := by
    simp only [word, wordSub, kernelStart, KERNEL_PHYS_BASE]
    omega
  rw [hstart]
  exact ⟨hstop, htable, hrefers⟩

theorem hand_over_iff {fuel kernelEnd start stop : ℕ}
    (h : ptInit fuel b kernelEnd physmax = .ok (b', start, stop)) :
    (∀ page, Given start stop page →
        ¬ InImage kernelEnd page ∧ ¬ InDirectory kernelEnd page ∧ ¬ b'.pagedir.RefersTo page) ↔
      pageAlignDown (word (physmax + (kernelStart - KERNEL_PHYS_BASE))) ≤
        word (kernelEnd + (4 + tables physmax) * PAGE_SIZE) := by
  obtain ⟨hstop, hstart, hrefers⟩ := ptInit_range h
  rw [← hstart, ← hstop]
  constructor
  · intro hsafe
    by_contra hlt
    have hal : pageAlignDown start % PAGE_SIZE = 0 := Nat.mul_mod_left _ _
    exact (hsafe _ ⟨hal, le_rfl, not_le.1 hlt⟩).2.2 hrefers
  · intro hle page hpage
    exact absurd (hpage.2.1.trans_lt hpage.2.2) (not_lt.2 hle)

/-- With eight megabytes of memory the range starts with the table of the third four. -/
theorem last_table_handed_over : ∃ b' start stop,
    ptInit 2 bootLoader 0xc0080000 0x800000 = .ok (b', start, stop) ∧
      Given start stop 0xc0086000 ∧ b'.pagedir.RefersTo 0xc0086000 := by
  have hrun : ((ptInit 2 bootLoader 0xc0080000 0x800000).toOption.map fun r =>
      (r.2, r.1.pagedir.virtual 770, present (r.1.pagedir.physical 770))) =
      some ((0xc0086400, 0xc0700000), 0xc0086000, true) := by decide +kernel
  cases h : ptInit 2 bootLoader 0xc0080000 0x800000 with
  | error e => simp [h, Except.toOption] at hrun
  | ok r =>
    obtain ⟨b', start, stop⟩ := r
    simp only [h, Except.toOption, Option.map_some, Option.some.injEq, Prod.mk.injEq] at hrun
    obtain ⟨⟨rfl, rfl⟩, hv, hp⟩ := hrun
    exact ⟨b', _, _, rfl, ⟨by decide, by decide, by decide⟩, 770, by decide, hp, hv⟩

/-- With a megabyte and a half nothing is left to hand over. -/
theorem hand_over_iff_none_left : ∃ b' start stop,
    ptInit 1 bootLoader 0xc0080000 0x180000 = .ok (b', start, stop) ∧
      ∀ page, Given start stop page →
        ¬ InImage 0xc0080000 page ∧ ¬ InDirectory 0xc0080000 page ∧ ¬ b'.pagedir.RefersTo page := by
  cases h : ptInit 1 bootLoader 0xc0080000 0x180000 with
  | error e =>
    have hok : (ptInit 1 bootLoader 0xc0080000 0x180000).toOption.isSome = true := by decide +kernel
    simp [h, Except.toOption] at hok
  | ok r => exact ⟨r.1, r.2.1, r.2.2, rfl, (hand_over_iff h).2 (by decide)⟩

end Boot

end Weenix.Pt
