import Weenix.Spec.ElfSegments

/-! Where a program is loaded. The sums of addresses and sizes wrap, the first page of the zeros
of a segment is mapped whether it is free or not, and the arguments end at the lowest address
of the program while the stack ends at its page. -/

namespace Weenix.Elf

open Cover List Option Page

variable {pht : List Phdr} {seg : Phdr} {map map' : Vmmap} {memoff : ℤ} {i page : ℕ}

def Phdr.Maps (seg : Phdr) (memoff : ℤ) (page : ℕ) : Prop :=
  ∃ addr, seg.addr memoff = some addr ∧ (Covers page (seg.filePages addr) ∨ Covers page (seg.zeroPages addr))

def Phdr.FirstZero (seg : Phdr) (memoff : ℤ) (page : ℕ) : Prop :=
  ∃ addr, seg.addr memoff = some addr ∧ 0 < (seg.zeroPages addr).2 ∧ page = (seg.zeroPages addr).1

theorem vmmapIsRangeEmpty_iff {lopage npages : ℕ} :
    vmmapIsRangeEmpty map lopage npages = true ↔ ∀ page, Covers page (lopage, npages) → map page = none := by
  simp [vmmapIsRangeEmpty, Covers]

theorem mapSegment_ok (h : mapSegment map memoff i seg = some map') : seg.filesz ≤ seg.memsz ∧
    (∀ page, seg.Maps memoff page → map' page = some i) ∧
    ∀ page, map page ≠ none → ¬ seg.FirstZero memoff page → map' page = map page := by
  obtain ⟨addr, haddr, h⟩ := bind_eq_some_iff.1 h
  simp only [ite_none_left_eq_some, Bool.not_eq_true', Bool.not_eq_false, Option.some.injEq] at h
  obtain ⟨hhead, hfile, hzero, rfl⟩ := h
  rw [vmmapIsRangeEmpty_iff] at hfile
  refine ⟨by omega, ?_, fun page hpage hfirst => ?_⟩
  · rintro page ⟨addr', haddr', hcover⟩
    obtain rfl := Option.some.inj (haddr.symm.trans haddr')
    simp only [vmmapMap]
    split_ifs with h1 h2
    · rfl
    · rfl
    · exact absurd hcover (by tauto)
  have hnot : ¬ Covers page (seg.filePages addr) := fun hc => hpage (hfile page hc)
  simp only [vmmapMap, if_neg hnot]
  split_ifs with hc
  · -- the test leaves out the first page only
    rw [Covers] at hc
    have hne : page ≠ (seg.zeroPages addr).1 := fun he => hfirst ⟨addr, haddr, by omega, he⟩
    have hempty := vmmapIsRangeEmpty_iff.1 (Bool.of_not_eq_false fun h0 => hzero ⟨by omega, h0⟩) page
      ⟨by omega, by dsimp only; omega⟩
    rw [vmmapMap, if_neg hnot] at hempty
    exact absurd hempty hpage
  · rfl

theorem mapSegments_sizes (h : mapSegments memoff pht i map = some map') :
    ∀ seg ∈ pht, seg.load → seg.filesz ≤ seg.memsz := by
  induction pht generalizing i map with
  | nil => exact fun _ hseg => (nomatch hseg)
  | cons seg1 pht ih =>
    obtain ⟨map1, h1, h2⟩ := bind_eq_some_iff.1 h
    refine forall_mem_cons.2 ⟨fun hload => ?_, ih h2⟩
    rw [if_pos hload] at h1
    exact (mapSegment_ok h1).1

/-- A page that is mapped stays as it is, unless the zeros of a segment begin there. -/
theorem mapSegments_same (h : mapSegments memoff pht i map = some map') (hpage : map page ≠ none)
    (hfirst : ∀ seg ∈ pht, seg.load → ¬ seg.FirstZero memoff page) : map' page = map page := by
  induction pht generalizing i map with
  | nil => exact congrFun (Option.some.inj h.symm) page
  | cons seg1 pht ih =>
    obtain ⟨map1, h1, h2⟩ := bind_eq_some_iff.1 h
    have hsame : map1 page = map page := by
      split_ifs at h1 with hload
      · exact (mapSegment_ok h1).2.2 page hpage (hfirst seg1 mem_cons_self hload)
      · rw [Option.some.inj h1]
    rw [← hsame] at hpage ⊢
    exact ih h2 hpage fun seg hseg => hfirst seg (mem_cons_of_mem _ hseg)

/-- No segment has the first page of its zeros among the pages of an earlier one. -/
def Apart (memoff : ℤ) (pht : List Phdr) : Prop :=
  pht.Pairwise fun seg seg' => seg.load → seg'.load → ∀ page, seg'.FirstZero memoff page → ¬ seg.Maps memoff page

theorem mapSegments_kept (h : mapSegments memoff pht i map = some map') (ha : Apart memoff pht) {k : ℕ}
    (hk : pht[k]? = some seg) (hload : seg.load) (hmaps : seg.Maps memoff page) : map' page = some (i + k) := by
  induction pht generalizing i map k with
  | nil => cases hk
  | cons seg1 pht ih =>
    obtain ⟨map1, h1, h2⟩ := bind_eq_some_iff.1 h
    obtain ⟨hhead, htail⟩ := pairwise_cons.1 ha
    cases k with
    | zero =>
      cases hk
      rw [if_pos hload] at h1
      have hself := (mapSegment_ok h1).2.1 page hmaps
      rw [mapSegments_same h2 (by simp [hself]) fun seg' hseg' hload' hfirst =>
        hhead seg' hseg' hload hload' page hfirst hmaps, hself, Nat.add_zero]
    | succ k =>
      rw [ih h2 htail hk, Nat.add_right_comm, Nat.add_assoc]

theorem mapProgsegs_ok (h : mapProgsegs pht memoff = some map) :
    mapSegments memoff pht 0 (fun _ => none) = some map := by
  unfold mapProgsegs at h
  split_ifs at h
  exact h

/-- No page of a segment is mapped for another one later, just if no segment has the first page
of its zeros among the pages of an earlier one. -/
theorem mapProgsegs_kept_iff (h : mapProgsegs pht memoff = some map) :
    (∀ i seg, pht[i]? = some seg → seg.load → ∀ page, seg.Maps memoff page → map page = some i) ↔
      Apart memoff pht := by
  constructor
  · intro hkept
    refine pairwise_iff_getElem.2 fun i j hi hj hij hload hload' page hfirst hmaps => ?_
    obtain ⟨addr, haddr, hpos, rfl⟩ := hfirst
    have hi := hkept i _ (getElem?_eq_getElem hi) hload _ hmaps
    have hj := hkept j _ (getElem?_eq_getElem hj) hload' _ ⟨addr, haddr, .inr ⟨le_rfl, by omega⟩⟩
    exact hij.ne (Option.some.inj (hi.symm.trans hj))
  · intro ha i seg hi hload page hmaps
    rw [mapSegments_kept (mapProgsegs_ok h) ha hi hload hmaps, Nat.zero_add]

/-- A segment of one page, and one of 16 zeros in the same page. -/
theorem mapProgsegs_overlaid : ∃ map, mapProgsegs [⟨true, 0, 0x1000, 0x1000, 0x1000, 0x1000, by decide⟩,
      ⟨true, 0x800, 0x1800, 0, 16, 0x1000, by decide⟩] 0 = some map ∧
    Phdr.Maps ⟨true, 0, 0x1000, 0x1000, 0x1000, 0x1000, by decide⟩ 0 1 ∧ map 1 = some 1 :=
  ⟨_, rfl, ⟨_, rfl, .inl (by decide)⟩, by decide⟩

/-- A segment of one page, and one of a page of the file and a page of zeros behind it. -/
theorem mapProgsegs_kept_two : ∃ map, mapProgsegs [⟨true, 0, 0x1000, 0x1000, 0x1000, 0x1000, by decide⟩,
      ⟨true, 0, 0x2000, 16, 0x2000, 0x1000, by decide⟩] 0 = some map ∧
    map 1 = some 0 ∧ map 2 = some 1 ∧ map 3 = some 1 := by
  have hapart : Apart 0 [⟨true, 0, 0x1000, 0x1000, 0x1000, 0x1000, by decide⟩,
      ⟨true, 0, 0x2000, 16, 0x2000, 0x1000, by decide⟩] := by
    refine pairwise_pair.2 fun _ _ page => ?_
    rintro ⟨_, ⟨⟩, -, rfl⟩ ⟨_, ⟨⟩, h | h⟩
    · exact absurd h (by decide)
    · exact absurd h (by decide)
  have hkept := (mapProgsegs_kept_iff rfl).2 hapart
  exact ⟨_, rfl, hkept 0 _ rfl rfl 1 ⟨_, rfl, .inl (by decide)⟩,
    hkept 1 _ rfl rfl 2 ⟨_, rfl, .inl (by decide)⟩, hkept 1 _ rfl rfl 3 ⟨_, rfl, .inr (by decide)⟩⟩

/-! ### Addresses -/

/-- The pages of a segment and the bounds of the program are what the sizes say. -/
structure Exact (pht : List Phdr) (seg : Phdr) : Prop where
  nowrap : seg.vaddr + seg.memsz < 2 ^ 32
  pages : ∀ page, seg.Maps 0 page ↔ ∃ b, seg.vaddr ≤ b ∧ b < seg.vaddr + seg.memsz ∧ b / PAGE_SIZE = page
  low : (calcProgbounds pht).1 ≤ seg.vaddr
  high : seg.vaddr + seg.memsz ≤ (calcProgbounds pht).2

theorem addr_zero (seg : Phdr) : seg.addr 0 = some seg.vaddr := by
  have hlt : seg.vaddr < 2 ^ 32 := seg.words _ (by simp)
  simpa [Phdr.addr, word] using hlt

theorem maps_zero :
    seg.Maps 0 page ↔ Covers page (seg.filePages seg.vaddr) ∨ Covers page (seg.zeroPages seg.vaddr) := by
  simp [Phdr.Maps, addr_zero]

/-- The bounds that the loop starts with, and those of each segment, lie within the result. -/
theorem calcProgbounds_foldl (l : List Phdr) (cur : ℕ × ℕ) :
    let r := l.foldl (fun cur seg => (min cur.1 seg.vaddr, max cur.2 (word (seg.vaddr + seg.memsz)))) cur
    r.1 ≤ cur.1 ∧ cur.2 ≤ r.2 ∧ ∀ seg ∈ l, r.1 ≤ seg.vaddr ∧ word (seg.vaddr + seg.memsz) ≤ r.2 := by
  induction l generalizing cur with
  | nil => exact ⟨le_rfl, le_rfl, fun _ hseg => (nomatch hseg)⟩
  | cons seg1 l ih =>
    obtain ⟨h1, h2, h3⟩ := ih (min cur.1 seg1.vaddr, max cur.2 (word (seg1.vaddr + seg1.memsz)))
    refine ⟨h1.trans (min_le_left _ _), (le_max_left _ _).trans h2, forall_mem_cons.2 ⟨?_, h3⟩⟩
    exact ⟨h1.trans (min_le_right _ _), (le_max_right _ _).trans h2⟩

theorem calcProgbounds_le (hseg : seg ∈ pht) (hload : seg.load) :
    (calcProgbounds pht).1 ≤ seg.vaddr ∧ word (seg.vaddr + seg.memsz) ≤ (calcProgbounds pht).2 :=
  (calcProgbounds_foldl _ _).2.2 seg (mem_filter.2 ⟨hseg, hload⟩)

theorem pageAlignUp_eq {x : ℕ} (h0 : 0 < x) (h : x < 2 ^ 32) :
    pageAlignUp x = if x ≤ 2 ^ 32 - 4096 then ((x - 1) / 4096 + 1) * 4096 else 0 := by
  have hsub : wordSub x 1 = x - 1 := by
    simp only [wordSub]
    omega
  simp only [pageAlignUp, hsub, word, pageAlignDown, PAGE_SIZE, PAGE_SHIFT]
  split_ifs
  · omega
  · omega

/-- In the last page of the address space the end of the zeros wraps. -/
theorem maps_iff (hlt : seg.vaddr + seg.memsz < 2 ^ 32) (hle : seg.filesz ≤ seg.memsz) : seg.Maps 0 page ↔
    0 < seg.filesz ∧ seg.vaddr / 4096 ≤ page ∧ page * 4096 < seg.vaddr + seg.filesz ∨
    seg.filesz < seg.memsz ∧ (seg.vaddr + seg.filesz) / 4096 ≤ page ∧
      if seg.vaddr + seg.memsz ≤ 2 ^ 32 - 4096 then page * 4096 < seg.vaddr + seg.memsz
      else 4096 ≤ seg.vaddr + seg.filesz ∧ page < 2 ^ 32 := by
  rw [maps_zero]
  refine or_congr ?_ ?_
  · simp only [Phdr.filePages, Covers, addrToPn, word, PAGE_SIZE, PAGE_SHIFT, wordSub]
    split_ifs
    · omega
    · omega
  simp only [Phdr.zeroPages, Covers, addrToPn, word, Nat.mod_eq_of_lt hlt, PAGE_SIZE, PAGE_SHIFT]
  split_ifs with hsize hend
  · rw [pageAlignUp_eq (by omega) hlt, if_pos hend, wordSub]
    omega
  · rw [pageAlignUp_eq (by omega) hlt, if_neg hend, wordSub]
    omega
  · omega
  · omega

theorem bytes_iff (v m : ℕ) : (∃ b, v ≤ b ∧ b < v + m ∧ b / PAGE_SIZE = page) ↔
    v / 4096 ≤ page ∧ page * 4096 < v + m ∧ 0 < m := by
  simp only [PAGE_SIZE, PAGE_SHIFT]
  constructor
  · rintro ⟨b, h1, h2, rfl⟩
    omega
  · rintro ⟨h1, h2, h3⟩
    exact ⟨max v (page * 4096), le_max_left _ _, by omega, by omega⟩

theorem exact_iff (hseg : seg ∈ pht) (hload : seg.load) (hle : seg.filesz ≤ seg.memsz) : Exact pht seg ↔
    seg.vaddr + seg.memsz < 2 ^ 32 ∧ (seg.filesz < seg.memsz → seg.vaddr + seg.memsz ≤ 2 ^ 32 - PAGE_SIZE) := by
  obtain ⟨hlow, hhigh⟩ := calcProgbounds_le hseg hload
  simp only [PAGE_SIZE, PAGE_SHIFT]
  constructor
  · intro h
    have hlt := h.nowrap
    refine ⟨hlt, fun hsize => ?_⟩
    by_contra hgt
    -- there are pages mapped that do not exist, or none at all
    have hbeyond := h.pages (2 ^ 20)
    have hlast := h.pages (2 ^ 20 - 1)
    rw [maps_iff hlt hle, bytes_iff, if_neg (by omega)] at hbeyond hlast
    omega
  · rintro ⟨hlt, hend⟩
    refine ⟨hlt, fun page => ?_, hlow, by rwa [word, Nat.mod_eq_of_lt hlt] at hhigh⟩
    rw [maps_iff hlt hle, bytes_iff]
    split_ifs
    · omega
    · omega

/-- The addresses of an accepted program are what they seem just if no segment reaches the end of
the address space, nor its last page if it has zeros. -/
theorem mapProgsegs_exact_iff (h : mapProgsegs pht 0 = some map) : (∀ seg ∈ pht, seg.load → Exact pht seg) ↔
    ∀ seg ∈ pht, seg.load → seg.vaddr + seg.memsz < 2 ^ 32 ∧
      (seg.filesz < seg.memsz → seg.vaddr + seg.memsz ≤ 2 ^ 32 - PAGE_SIZE) :=
  forall₃_congr fun _ hseg hload => exact_iff hseg hload (mapSegments_sizes (mapProgsegs_ok h) _ hseg hload)

theorem mapProgsegs_exact_one : Exact [⟨true, 0, 0x1000, 16, 0x2000, 0x1000, by decide⟩]
    ⟨true, 0, 0x1000, 16, 0x2000, 0x1000, by decide⟩ :=
  (mapProgsegs_exact_iff rfl).2 (by simp [PAGE_SIZE, PAGE_SHIFT]) _ mem_cons_self rfl

/-- A segment that ends with the address space. -/
theorem mapProgsegs_wraps : ∃ map,
    mapProgsegs [⟨true, 0, 0xfffff000, 0x1000, 0x1000, 0x1000, by decide⟩] 0 = some map ∧
    ¬ Exact [⟨true, 0, 0xfffff000, 0x1000, 0x1000, 0x1000, by decide⟩]
      ⟨true, 0, 0xfffff000, 0x1000, 0x1000, 0x1000, by decide⟩ :=
  ⟨_, rfl, fun h => absurd h.nowrap (by decide)⟩

/-! ### The stack -/

/-- The arguments lie on the stack, and in no page of the program. -/
def OnStack (pht : List Phdr) (stack args : ℕ × ℕ) : Prop :=
  ∀ b, Covers b args → Covers (addrToPn b) stack ∧ ∀ seg ∈ pht, seg.load → ¬ seg.Maps 0 (addrToPn b)

/-- Zeros that wrap around end before the page of `low` or begin behind that of `high`, or there
are none, since their end wraps once more. -/
def Phdr.Clears (seg : Phdr) (low high : ℕ) : Prop :=
  2 ^ 32 ≤ seg.vaddr + seg.filesz → seg.filesz < seg.memsz →
    seg.vaddr + seg.memsz ≤ 2 ^ 32 + pageAlignDown low ∨
    2 ^ 32 + pageAlignDown high ≤ seg.vaddr + seg.filesz ∨
    2 ^ 33 - PAGE_SIZE < seg.vaddr + seg.memsz ∧ seg.vaddr + seg.filesz < 2 ^ 32 + PAGE_SIZE

theorem zeroPages_wrapped (hwrap : 2 ^ 32 ≤ seg.vaddr + seg.filesz) (hlt : seg.filesz < seg.memsz) :
    Covers page (seg.zeroPages seg.vaddr) ↔ (seg.vaddr + seg.filesz - 2 ^ 32) / 4096 ≤ page ∧
      if seg.vaddr + seg.memsz ≤ 2 ^ 33 - 4096 then page * 4096 < seg.vaddr + seg.memsz - 2 ^ 32
      else 4096 ≤ seg.vaddr + seg.filesz - 2 ^ 32 ∧ page < 2 ^ 32 := by
  have hv : seg.vaddr < 2 ^ 32 := seg.words _ (by simp)
  have hm : seg.memsz < 2 ^ 32 := seg.words _ (by simp)
  have hend : word (seg.vaddr + seg.memsz) = seg.vaddr + seg.memsz - 2 ^ 32 := by
    simp only [word]
    omega
  simp only [Phdr.zeroPages, Covers, addrToPn, if_pos hlt, hend, PAGE_SIZE, PAGE_SHIFT]
  rw [pageAlignUp_eq (by omega) (by omega)]
  simp only [word, wordSub]
  split_ifs
  · omega
  · omega
  · omega
  · omega

/-- Zeros that have wrapped clear the pages between two addresses just if none of these is theirs. -/
theorem clears_iff {low high : ℕ} (hlh : low / 4096 < high / 4096) (hhigh : high < 2 ^ 32) :
    seg.Clears low high ↔ (2 ^ 32 ≤ seg.vaddr + seg.filesz →
      ∀ page, low / 4096 ≤ page → page < high / 4096 → ¬ Covers page (seg.zeroPages seg.vaddr)) := by
  simp only [Phdr.Clears, pageAlignDown, PAGE_SIZE, PAGE_SHIFT]
  refine forall_congr' fun hwrap => ⟨fun h page h1 h2 hc => ?_, fun h hlt => ?_⟩
  · by_cases hlt : seg.filesz < seg.memsz
    · rw [zeroPages_wrapped hwrap hlt] at hc
      split_ifs at hc
      · omega
      · omega
    · simp only [Phdr.zeroPages, if_neg hlt, Covers] at hc
      omega
  · have hpage := h (max (low / 4096) ((seg.vaddr + seg.filesz - 2 ^ 32) / 4096)) (le_max_left _ _)
    rw [zeroPages_wrapped hwrap hlt] at hpage
    split_ifs at hpage
    · omega
    · omega

/-- The arguments, if there are any, lie on the stack just if there is room for it below the
program, the program starts with a page or less than a word behind it, as the rounding of the
arguments allows, and no zeros that have wrapped are in their pages. -/
theorem loadStack_onStack_iff {argv envp : List CString} {auxv : List Auxv} {phtsize arglow argsize : ℕ}
    {stack : ℕ × ℕ} (h : loadStack pht argv envp auxv phtsize = some (stack, arglow, argsize)) :
    OnStack pht stack (arglow, argsize) ↔ argsize = 0 ∨
      DEFAULT_STACK_SIZE / PAGE_SIZE < addrToPn (calcProgbounds pht).1 ∧
      (calcProgbounds pht).1 % PAGE_SIZE ≤ ((calcProgbounds pht).1 - argsize) % 4 ∧
      ∀ seg ∈ pht, seg.load → seg.Clears ((calcProgbounds pht).1 - argsize) (calcProgbounds pht).1 := by
  obtain ⟨map, -, h⟩ := bind_eq_some_iff.1 h
  simp only [ite_none_left_eq_some, Option.some.injEq, Prod.mk.injEq, not_le] at h
  obtain ⟨hsize, rfl, hlow, hargs⟩ := h
  have hlt : (calcProgbounds pht).1 < 2 ^ 32 := (calcProgbounds_foldl _ _).1.trans_lt (by norm_num)
  have hseg : ∀ seg ∈ pht, seg.load → (calcProgbounds pht).1 ≤ seg.vaddr := fun _ hseg hload =>
    (calcProgbounds_le hseg hload).1
  generalize (calcProgbounds pht).1 = low at hlow hlt hseg ⊢
  simp only [OnStack, Covers, addrToPn, DEFAULT_STACK_SIZE, PAGE_SIZE, PAGE_SHIFT, wordSub] at hsize hlow ⊢
  constructor
  · intro h
    refine or_iff_not_imp_left.2 fun hne => ?_
    have hfirst := (h arglow (by omega)).1
    have hroom : 14 < low / 4096 := by omega
    have hlast := (h (arglow + argsize - 1) (by omega)).1
    refine ⟨by omega, by omega, fun seg hmem hload =>
      (clears_iff (by omega) hlt).2 fun _ page h1 h2 hc => ?_⟩
    refine (h (max arglow (page * 4096)) (by omega)).2 seg hmem hload (maps_zero.2 (.inr ?_))
    have hpage : max arglow (page * 4096) / 2 ^ 12 = page := by omega
    rwa [hpage]
  · rintro (rfl | ⟨hroom, hend, hclear⟩) b hb
    · omega
    refine ⟨by omega, fun seg hmem hload hmaps => ?_⟩
    have hle := hseg seg hmem hload
    rcases maps_zero.1 hmaps with hc | hc
    · simp only [Covers, Phdr.filePages, addrToPn, PAGE_SIZE, PAGE_SHIFT] at hc
      omega
    by_cases hover : 2 ^ 32 ≤ seg.vaddr + seg.filesz
    · exact (clears_iff (by omega) hlt).1 (hclear seg hmem hload) hover _ (by omega) (by omega) hc
    have := hc.1
    simp only [Phdr.zeroPages, addrToPn, word, PAGE_SIZE, PAGE_SHIFT] at this
    omega

theorem loadStack_aligned :
    loadStack [⟨true, 0, 0x8048000, 16, 16, 0x1000, by decide⟩] [] [] [] 0 =
      some ((0x8039, 15), 0x8047fe0, 32) ∧
    OnStack [⟨true, 0, 0x8048000, 16, 16, 0x1000, by decide⟩] (0x8039, 15) (0x8047fe0, 32) :=
  ⟨rfl, (@loadStack_onStack_iff _ [] [] [] 0 _ _ _ rfl).2
    (.inr ⟨by decide, by decide, by simp [Phdr.Clears]⟩)⟩

/-- A program that starts inside a page: the arguments end there, above the stack. -/
theorem loadStack_inside : loadStack [⟨true, 0x94, 0x8048094, 16, 16, 0x1000, by decide⟩] [] [] [] 0 =
    some ((0x8039, 15), 0x8048074, 32) ∧
    ¬ OnStack [⟨true, 0x94, 0x8048094, 16, 16, 0x1000, by decide⟩] (0x8039, 15) (0x8048074, 32) :=
  ⟨rfl, fun h => absurd (h 0x8048074 (by decide)).1 (by decide)⟩

end Weenix.Elf
