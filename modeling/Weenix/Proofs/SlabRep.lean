import Weenix.Lib.Cover
import Weenix.Spec.Slab

/-! What the memory of the slab allocator holds. A view lists the allocators, the slabs
of each and the free objects of each slab; memory shows a view when following the
pointers gives just these lists. Every record of a slab lies in its block but outside
the objects, and every allocator but the first is an object of the first, so a store to
one of them leaves all others alone. -/

namespace Weenix.Slab

open Memory Page Cover

/-- Slabs are named by `s_addr`, objects by their index in the slab. -/
structure View where
  allocs : List ℕ
  objsize : ℕ → ℕ
  order : ℕ → ℕ
  nobjs : ℕ → ℕ
  slabs : ℕ → List ℕ
  free : ℕ → List ℕ

namespace View

variable (V : View) (a s i : ℕ)

def stride : ℕ := V.objsize a + slabBufctlSizeof
def obj : ℕ := s + i * V.stride a
def hdr : ℕ := s + V.nobjs a * V.stride a
def block : ℕ × ℕ := (s, 2 ^ V.order a * PAGE_SIZE)

def User (b : ℕ) : Prop :=
  V.obj a s i + redzoneSizeof ≤ b ∧ b < V.obj a s i + V.objsize a - redzoneSizeof

def Book (b : ℕ) : Prop := Covers b (V.block a s) ∧ ∀ i < V.nobjs a, ¬ V.User a s i b

def setFree (l : List ℕ) : View := { V with free := Function.update V.free s l }

end View

@[simp] theorem View.setFree_same (V : View) (s : ℕ) (l : List ℕ) : (V.setFree s l).free s = l :=
  Function.update_self _ _ _

theorem View.setFree_of_ne (V : View) {s t : ℕ} (l : List ℕ) (h : t ≠ s) : (V.setFree s l).free t = V.free t :=
  Function.update_of_ne h _ _

/-- A slab of this order has room for its objects and its header. -/
structure Fits (objsize order nobjs : ℕ) : Prop where
  size : 2 * redzoneSizeof ≤ objsize
  pos : 0 < nobjs
  room : nobjs * (objsize + slabBufctlSizeof) + slabSizeof ≤ 2 ^ order * PAGE_SIZE
  order : order < PAGE_NSIZES

structure SlabRep (m : Mem) (V : View) (a s : ℕ) : Prop where
  inuse : read32 m (sInuse (V.hdr a s)) + (V.free s).length = V.nobjs a
  addr : read32 m (sAddr (V.hdr a s)) = s
  free : IsChain (fun obj => read32 m (obj + V.objsize a)) (read32 m (sFree (V.hdr a s)))
    ((V.free s).map (V.obj a s))
  used : ∀ i < V.nobjs a, i ∉ V.free s → read32 m (V.obj a s i + V.objsize a) = V.hdr a s
  flag : ∀ i < V.nobjs a, m (sbFree (V.obj a s i + V.objsize a)) = if i ∈ V.free s then 1 else 0
  zones : ∀ i < V.nobjs a, read32 m (V.obj a s i) = SLAB_REDZONE ∧
    read32 m (V.obj a s i + V.objsize a - redzoneSizeof) = SLAB_REDZONE
  nodup : (V.free s).Nodup
  lt : ∀ i ∈ V.free s, i < V.nobjs a

structure AllocRep (m : Mem) (V : View) (a : ℕ) : Prop where
  objsize : read32 m (saObjsize a) = V.objsize a
  order : read32 m (saOrder a) = V.order a
  nobjs : read32 m (saSlabNobjs a) = V.nobjs a
  slabs : IsChain (fun slab => read32 m (sNext slab)) (read32 m (saSlabs a))
    ((V.slabs a).map (V.hdr a))

/-- The static part of a view: where everything lies. -/
structure Placed (saa : ℕ) (V : View) : Prop where
  fits : ∀ a ∈ V.allocs, Fits (V.objsize a) (V.order a) (V.nobjs a)
  static : saa ∈ V.allocs ∧ 0 < saa ∧ saa + slabAllocatorSizeof ≤ 2 ^ 32
  size : V.objsize saa = slabAllocatorSizeof + 2 * redzoneSizeof
  nodup : V.allocs.Nodup
  nodupSlabs : ∀ a ∈ V.allocs, (V.slabs a).Nodup
  bound : ∀ a ∈ V.allocs, ∀ s ∈ V.slabs a, 0 < s ∧ s + (V.block a s).2 ≤ 2 ^ 32
  apart : ∀ a ∈ V.allocs, ∀ s ∈ V.slabs a, Cover.Disjoint (saa, slabAllocatorSizeof) (V.block a s)
  sep : ∀ a ∈ V.allocs, ∀ s ∈ V.slabs a, ∀ a' ∈ V.allocs, ∀ s' ∈ V.slabs a',
    (a, s) ≠ (a', s') → Cover.Disjoint (V.block a s) (V.block a' s')
  home : ∀ a ∈ V.allocs, a ≠ saa → ∃ s ∈ V.slabs saa, ∃ i < V.nobjs saa, i ∉ V.free s ∧
    a = V.obj saa s i + redzoneSizeof

structure Rep (saa : ℕ) (m : Mem) (head : ℕ) (V : View) : Prop where
  placed : Placed saa V
  chain : IsChain (fun a => read32 m (saNext a)) head V.allocs
  alloc : ∀ a ∈ V.allocs, AllocRep m V a
  slab : ∀ a ∈ V.allocs, ∀ s ∈ V.slabs a, SlabRep m V a s

variable {saa head : ℕ} {m m' : Mem} {V : View} {a a' s s' i j b : ℕ}

/-! ### Layout -/

theorem View.obj_le (V : View) (a s : ℕ) (h : i < j) : V.obj a s i + V.stride a ≤ V.obj a s j := by
  have := Nat.mul_le_mul_right (V.stride a) (show i + 1 ≤ j from h)
  rw [Nat.add_mul, Nat.one_mul] at this
  simp only [View.obj]
  omega

theorem View.obj_le_hdr (V : View) (a s : ℕ) (h : i < V.nobjs a) : V.obj a s i + V.stride a ≤ V.hdr a s :=
  V.obj_le a s h

theorem View.obj_inj (V : View) (a s : ℕ) (h : V.obj a s i = V.obj a s j) : i = j := by
  have hpos : 0 < V.stride a := by simp [View.stride, slabBufctlSizeof]
  rcases Nat.lt_trichotomy i j with hlt | heq | hgt
  · have := V.obj_le a s hlt
    omega
  · exact heq
  · have := V.obj_le a s hgt
    omega

/-- The objects of an allocator of the view fit its slabs. -/
abbrev View.Fit (V : View) (a : ℕ) : Prop := Fits (V.objsize a) (V.order a) (V.nobjs a)

theorem View.hdr_end (hf : V.Fit a) (s : ℕ) : V.hdr a s + slabSizeof ≤ s + (V.block a s).2 := by
  have := hf.room
  simp only [View.hdr, View.block, View.stride]
  omega

/-- A byte of an object slot that is not between the red zones. -/
theorem View.book_slot (hf : V.Fit a) (hi : i < V.nobjs a)
    (h : V.obj a s i ≤ b ∧ b < V.obj a s i + V.stride a) (hn : ¬ V.User a s i b) : V.Book a s b := by
  have hend := View.hdr_end hf s
  have hhdr := V.obj_le_hdr a s hi
  have hstart : s ≤ V.obj a s i := Nat.le_add_right _ _
  refine ⟨⟨hstart.trans h.1, ?_⟩, fun j _ hu => ?_⟩
  · simp only [View.block] at hend ⊢
    omega
  rcases Nat.lt_trichotomy i j with hlt | rfl | hgt
  · have := V.obj_le a s hlt
    simp only [View.User] at hu
    omega
  · exact hn hu
  have := V.obj_le a s hgt
  simp only [View.User, View.stride] at hu this
  omega

theorem View.book_hdr (hf : V.Fit a) (h : V.hdr a s ≤ b ∧ b < V.hdr a s + slabSizeof) : V.Book a s b := by
  have hend := View.hdr_end hf s
  have hstart : s ≤ V.hdr a s := Nat.le_add_right _ _
  refine ⟨⟨hstart.trans h.1, ?_⟩, fun i hi hu => ?_⟩
  · simp only [View.block] at hend ⊢
    omega
  have := V.obj_le_hdr a s hi
  simp only [View.User, View.stride] at hu this
  omega

/-- The bytes of an object lie in its block. -/
theorem View.user_block (hf : V.Fit a) (hi : i < V.nobjs a) (h : V.User a s i b) : Covers b (V.block a s) := by
  have hend := View.hdr_end hf s
  have hhdr := V.obj_le_hdr a s hi
  have hstart : s ≤ V.obj a s i := Nat.le_add_right _ _
  simp only [View.User, View.stride, View.block, Covers] at *
  omega

/-! ### Records do not overlap -/

def InStruct (a b : ℕ) : Prop := a ≤ b ∧ b < a + slabAllocatorSizeof

section
variable (h : Placed saa V) (ha : a ∈ V.allocs)
include h ha

theorem Placed.struct_home (hb : InStruct a b) : (a = saa ∧ Covers b (saa, slabAllocatorSizeof)) ∨
    ∃ s ∈ V.slabs saa, ∃ i < V.nobjs saa, i ∉ V.free s ∧ a = V.obj saa s i + redzoneSizeof ∧
      V.User saa s i b := by
  by_cases hsaa : a = saa
  · exact .inl ⟨hsaa, hsaa ▸ hb⟩
  obtain ⟨s, hs, i, hi, hfree, he⟩ := h.home a ha hsaa
  refine .inr ⟨s, hs, i, hi, hfree, he, ?_⟩
  have hsize := h.size
  simp only [InStruct, View.User, slabAllocatorSizeof, redzoneSizeof] at *
  omega

/-- An allocator record is not part of the bookkeeping of a slab. -/
theorem Placed.struct_not_book (hb : InStruct a b)
    (ha' : a' ∈ V.allocs) (hs' : s' ∈ V.slabs a') : ¬ V.Book a' s' b := by
  intro hbook
  rcases h.struct_home ha hb with ⟨-, hsaa⟩ | ⟨s, hs, i, hi, -, -, hu⟩
  · exact h.apart a' ha' s' hs' b ⟨hsaa, hbook.1⟩
  by_cases he : (saa, s) = (a', s')
  · cases he
    exact hbook.2 i hi hu
  · refine h.sep saa h.static.1 s hs a' ha' s' hs' he b ⟨?_, hbook.1⟩
    exact View.user_block (h.fits saa h.static.1) hi hu

theorem Placed.struct_disjoint (ha' : a' ∈ V.allocs) (hne : a ≠ a') (hb : InStruct a b) : ¬ InStruct a' b := by
  intro hb'
  have hfits := h.fits saa h.static.1
  rcases h.struct_home ha hb with ⟨h1, hsaa⟩ | ⟨s, hs, i, hi, -, he, hu⟩
  · rcases h.struct_home ha' hb' with ⟨h2, -⟩ | ⟨s', hs', i', hi', -, he', hu'⟩
    · exact hne (h1.trans h2.symm)
    · exact h.apart saa h.static.1 s' hs' b ⟨hsaa, View.user_block hfits hi' hu'⟩
  rcases h.struct_home ha' hb' with ⟨-, hsaa'⟩ | ⟨s', hs', i', hi', -, he', hu'⟩
  · exact h.apart saa h.static.1 s hs b ⟨hsaa', View.user_block hfits hi hu⟩
  by_cases hss : (saa, s) = (saa, s')
  · cases hss
    have hii : i ≠ i' := fun hii => hne (by rw [he, he', hii])
    simp only [View.User] at hu hu'
    rcases Nat.lt_or_gt_of_ne hii with hlt | hgt
    · have := V.obj_le saa s hlt
      simp only [View.stride] at this
      omega
    have := V.obj_le saa s hgt
    simp only [View.stride] at this
    omega
  · exact h.sep saa h.static.1 s hs saa h.static.1 s' hs' hss b
      ⟨View.user_block hfits hi hu, View.user_block hfits hi' hu'⟩

end

/-! ### Stores elsewhere -/

/-- What a slab shows depends on its bookkeeping bytes only, those of its link apart. -/
theorem SlabRep.congr (h : SlabRep m V a s) (hf : V.Fit a)
    (hm : ∀ b, V.Book a s b → (b < V.hdr a s ∨ V.hdr a s + 4 ≤ b) → m' b = m b) : SlabRep m' V a s := by
  have hhdr : ∀ o, 4 ≤ o → o + 4 ≤ slabSizeof →
      read32 m' (V.hdr a s + o) = read32 m (V.hdr a s + o) := fun o h1 h2 =>
    read32_congr fun b h3 h4 => hm b (View.book_hdr hf (by omega)) (by omega)
  have hsize := hf.size
  have hslot : ∀ i < V.nobjs a, ∀ b, V.obj a s i ≤ b → b < V.obj a s i + V.stride a →
      ¬ V.User a s i b → m' b = m b := fun i hi b h1 h2 hu =>
    hm b (View.book_slot hf hi ⟨h1, h2⟩ hu) (.inl (h2.trans_le (V.obj_le_hdr a s hi)))
  simp only [View.stride, slabBufctlSizeof, View.User] at hslot
  have hctl : ∀ i < V.nobjs a, read32 m' (V.obj a s i + V.objsize a) =
      read32 m (V.obj a s i + V.objsize a) := fun i hi =>
    read32_congr fun b h1 h2 => hslot i hi b (by omega) (by omega) (by omega)
  refine ⟨?_, ?_, ?_, fun i hi hn => ?_, fun i hi => ?_, fun i hi => ?_, h.nodup, h.lt⟩
  · rw [sInuse, hhdr 4 le_rfl (by decide)]
    exact h.inuse
  · rw [sAddr, hhdr 12 (by decide) (by decide)]
    exact h.addr
  · rw [sFree, hhdr 8 (by decide) (by decide)]
    refine h.free.congr fun x hx => ?_
    obtain ⟨i, hi, rfl⟩ := List.mem_map.1 hx
    exact hctl i (h.lt i hi)
  · rw [hctl i hi]
    exact h.used i hi hn
  · rw [← h.flag i hi, sbFree]
    exact hslot i hi _ (by omega) (by omega) (by omega)
  obtain ⟨h1, h2⟩ := h.zones i hi
  simp only [redzoneSizeof] at h2 hsize hslot ⊢
  exact ⟨(read32_congr fun b _ _ => hslot i hi b (by omega) (by omega) (by omega)).trans h1,
    (read32_congr fun b _ _ => hslot i hi b (by omega) (by omega) (by omega)).trans h2⟩

theorem read32_hdr (hf : V.Fit a)
    (hm : ∀ b, V.Book a s b → m' b = m b) : read32 m' (V.hdr a s) = read32 m (V.hdr a s) :=
  read32_congr fun b h1 h2 => hm b (View.book_hdr hf (by simp only [slabSizeof]; omega))

theorem read32_struct (hm : ∀ b, InStruct a b → m' b = m b) {o : ℕ}
    (ho : o + 4 ≤ slabAllocatorSizeof) : read32 m' (a + o) = read32 m (a + o) :=
  read32_congr fun b h1 h2 => hm b ⟨by omega, by omega⟩

theorem AllocRep.congr (h : AllocRep m V a) (hm : ∀ b, InStruct a b → m' b = m b)
    (hnext : ∀ s ∈ V.slabs a, read32 m' (V.hdr a s) = read32 m (V.hdr a s)) : AllocRep m' V a := by
  refine ⟨?_, ?_, ?_, ?_⟩
  · exact (read32_struct hm (by decide)).trans h.objsize
  · exact (read32_struct hm (by decide)).trans h.order
  · exact (read32_struct hm (by decide)).trans h.nobjs
  rw [saSlabs, read32_struct hm (by decide)]
  refine h.slabs.congr fun x hx => ?_
  obtain ⟨s, hs, rfl⟩ := List.mem_map.1 hx
  exact hnext s hs

/-- A store that spares every record leaves the view as it is. -/
theorem Rep.congr (h : Rep saa m head V) (hstruct : ∀ a ∈ V.allocs, ∀ b, InStruct a b → m' b = m b)
    (hbook : ∀ a ∈ V.allocs, ∀ s ∈ V.slabs a, ∀ b, V.Book a s b → m' b = m b) : Rep saa m' head V := by
  refine ⟨h.placed, h.chain.congr fun a ha => ?_, fun a ha => ?_, fun a ha s hs => ?_⟩
  · exact read32_struct (o := 0) (hstruct a ha) (by decide)
  · exact (h.alloc a ha).congr (hstruct a ha) fun s hs =>
      read32_hdr (h.placed.fits a ha) (hbook a ha s hs)
  · exact (h.slab a ha s hs).congr (h.placed.fits a ha) fun b hb _ => hbook a ha s hs b hb

section
variable (h : Placed saa V) (ha : a ∈ V.allocs) (hs : s ∈ V.slabs a) (ha' : a' ∈ V.allocs)
  (hs' : s' ∈ V.slabs a') (hne : (a', s') ≠ (a, s))
include h ha hs ha' hs' hne

theorem Placed.slab_ne : s' ≠ s := by
  rintro rfl
  have hpos : ∀ a, 0 < (V.block a s').2 := fun a => by simp [View.block, PAGE_SIZE]
  have h1 := hpos a
  have h2 := hpos a'
  exact h.sep a' ha' s' hs' a ha s' hs hne s' ⟨⟨le_rfl, by simp only [View.block] at *; omega⟩,
    ⟨le_rfl, by simp only [View.block] at *; omega⟩⟩

theorem Placed.book_disjoint (hb : V.Book a' s' b) : ¬ V.Book a s b :=
  fun hb' => h.sep a' ha' s' hs' a ha s hs hne b ⟨hb.1, hb'.1⟩

end

/-- A slab reads the same in a view with the same layout and the same free list of it. -/
theorem SlabRep.transfer {V' : View} (h : SlabRep m V a s) (ho : V'.objsize a = V.objsize a)
    (hn : V'.nobjs a = V.nobjs a) (hfree : V'.free s = V.free s) : SlabRep m V' a s := by
  have hhdr : V'.hdr a s = V.hdr a s := by simp only [View.hdr, View.stride, ho, hn]
  have hobj : V'.obj a s = V.obj a s := by
    funext i
    simp only [View.obj, View.stride, ho]
  obtain ⟨h1, h2, h3, h4, h5, h6, h7, h8⟩ := h
  rw [← hhdr, ← hobj, ← hfree, ← hn, ← ho] at *
  exact ⟨h1, h2, h3, h4, h5, h6, h7, h8⟩

/-- A store to the bookkeeping of one slab that changes its free list. -/
theorem Rep.update_slab (h : Rep saa m head V) (ha : a ∈ V.allocs) (hs : s ∈ V.slabs a)
    {l : List ℕ} (hout : ∀ b, ¬ V.Book a s b → m' b = m b)
    (hnext : read32 m' (V.hdr a s) = read32 m (V.hdr a s))
    (hslab : SlabRep m' (V.setFree s l) a s) (hhome : a = saa → l ⊆ V.free s) :
    Rep saa m' head (V.setFree s l) := by
  have hp := h.placed
  have hstruct : ∀ x ∈ V.allocs, ∀ b, InStruct x b → m' b = m b := fun x hx b hb =>
    hout b (hp.struct_not_book hx hb ha hs)
  have hother : ∀ x ∈ V.allocs, ∀ t ∈ V.slabs x, (x, t) ≠ (a, s) →
      ∀ b, V.Book x t b → m' b = m b := fun x hx t ht hne b hb =>
    hout b (hp.book_disjoint ha hs hx ht hne hb)
  refine ⟨⟨hp.fits, hp.static, hp.size, hp.nodup, hp.nodupSlabs, hp.bound, hp.apart, hp.sep,
    fun x hx hne => ?_⟩, h.chain.congr fun x hx => ?_, fun x hx => ?_, fun x hx t ht => ?_⟩
  · obtain ⟨t, ht, i, hi, hfree, he⟩ := hp.home x hx hne
    refine ⟨t, ht, i, hi, ?_, he⟩
    by_cases hts : t = s
    · subst hts
      rw [View.setFree_same]
      by_cases hsaa : a = saa
      · exact fun hil => hfree (hhome hsaa hil)
      · exact absurd rfl (hp.slab_ne ha hs hp.static.1 ht fun he => hsaa (Prod.mk.inj he).1.symm)
    · rw [V.setFree_of_ne l hts]
      exact hfree
  · exact read32_struct (o := 0) (hstruct x hx) (by decide)
  · have := (h.alloc x hx).congr (hstruct x hx) fun t ht => ?_
    · exact ⟨this.objsize, this.order, this.nobjs, this.slabs⟩
    by_cases he : (x, t) = (a, s)
    · cases he
      exact hnext
    · exact read32_hdr (hp.fits x hx) (hother x hx t ht he)
  · by_cases he : (x, t) = (a, s)
    · cases he
      exact hslab
    · exact ((h.slab x hx t ht).congr (hp.fits x hx) fun b hb _ =>
        hother x hx t ht he b hb).transfer rfl rfl (V.setFree_of_ne l (hp.slab_ne ha hs hx ht he))

end Weenix.Slab
