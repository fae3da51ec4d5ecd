import Weenix.Proofs.SlabAlloc

/-! Making an allocator: the size of its slabs, and the record, which for every allocator
but the first is an object of the first one. -/

namespace Weenix.Slab

open Memory Page Cover Function List View

variable {saa head : ℕ} {m m' : Mem} {V V' : View} {st : State} {a s i p x b : ℕ}

/-! ### The size of a slab -/

theorem pageSize_shift {k : ℕ} (hk : k < PAGE_NSIZES) :
    PAGE_SIZE <<< k = 2 ^ k * PAGE_SIZE ∧ 2 ^ k * PAGE_SIZE ≤ 2 ^ 19 := by
  have h1 : 2 ^ k ≤ 2 ^ 7 := Nat.pow_le_pow_right (by norm_num) (by
    rw [PAGE_NSIZES] at hk
    omega)
  refine ⟨by rw [Nat.shiftLeft_eq, Nat.mul_comm], ?_⟩
  simp only [PAGE_SIZE, PAGE_SHIFT] at *
  omega

theorem toInt_pageSize {k : ℕ} (hk : k < PAGE_NSIZES) : toInt (PAGE_SIZE <<< k) = (2 ^ k * PAGE_SIZE : ℕ) := by
  obtain ⟨h1, h2⟩ := pageSize_shift hk
  rw [h1, toInt_of_lt (by omega)]

theorem slabSize_one {objsize : ℕ} (h : objsize + 24 < 2 ^ 31) :
    toInt (slabSize objsize 1) = (objsize + 24 : ℕ) := by
  have : slabSize objsize 1 = objsize + 24 := by
    simp only [slabSize, slabBufctlSizeof, slabSizeof, word]
    omega
  rw [this, toInt_of_lt h]

/-- Once a single object fits, the number of objects is what fits. -/
theorem slabNobjs_eq {objsize k : ℕ} (h : objsize + 24 < 2 ^ 31) (hk : k < PAGE_NSIZES)
    (hfit : objsize + 24 ≤ 2 ^ k * PAGE_SIZE) :
    slabNobjs objsize k = ((2 ^ k * PAGE_SIZE - 16) / (objsize + 8) : ℕ) := by
  obtain ⟨h1, h2⟩ := pageSize_shift hk
  have hsub : wordSub (PAGE_SIZE <<< k) slabSizeof = 2 ^ k * PAGE_SIZE - 16 := by
    rw [h1, wordSub, slabSizeof]
    omega
  have hword : word (objsize + slabBufctlSizeof) = objsize + 8 :=
    Nat.mod_eq_of_lt (by simp only [slabBufctlSizeof]; omega)
  rw [slabNobjs, hsub, hword, toInt_of_lt]
  exact (Nat.div_le_self _ _).trans_lt (by omega)

theorem foldl_betterOrder (objsize minorder : ℕ) (orders : List ℕ)
    (ho : ∀ k ∈ orders, minorder ≤ k ∧ k < PAGE_NSIZES) (best : ℕ × ℤ)
    (hb : minorder ≤ best.1 ∧ best.1 < PAGE_NSIZES) : minorder ≤ (orders.foldl (betterOrder objsize) best).1 ∧
      (orders.foldl (betterOrder objsize) best).1 < PAGE_NSIZES := by
  induction orders generalizing best with
  | nil => exact hb
  | cons k orders ih =>
    refine ih (fun k' hk' => ho k' (mem_cons_of_mem _ hk')) _ ?_
    unfold betterOrder
    split_ifs
    · exact ho k mem_cons_self
    · exact hb

theorem calcSlabSize_spec {objsize order : ℕ} {z : ℤ} (h : objsize + 24 < 2 ^ 31)
    (hmin : 2 * redzoneSizeof ≤ objsize) (hok : calcSlabSize objsize = .ok (order, z)) :
    ∃ nobjs : ℕ, z = nobjs ∧ Fits objsize order nobjs := by
  unfold calcSlabSize at hok
  cases hfind : (List.range PAGE_NSIZES).find? fun order =>
      decide (toInt (slabSize objsize 1) ≤ toInt (PAGE_SIZE <<< order)) with
  | none =>
    rw [hfind] at hok
    cases hok
  | some minorder =>
    have hlt := mem_range.1 (mem_of_find?_eq_some hfind)
    have hfit := List.find?_some hfind
    rw [decide_eq_true_eq, slabSize_one h, toInt_pageSize hlt, Nat.cast_le] at hfit
    obtain ⟨h1, h2⟩ := foldl_betterOrder objsize minorder
      (List.range' (minorder + 1) (SLAB_MAX_ORDER - (minorder + 1))) (fun k hk => by
        rw [mem_range'_1] at hk
        simp only [SLAB_MAX_ORDER, PAGE_NSIZES] at *
        omega) (minorder, slabWaste objsize minorder) ⟨le_rfl, hlt⟩
    rw [hfind] at hok
    obtain ⟨hk, hz⟩ := Prod.mk.inj (Except.ok.inj hok)
    rw [hk] at h1 h2 hz
    have hfit' : objsize + 24 ≤ 2 ^ order * PAGE_SIZE :=
      hfit.trans (Nat.mul_le_mul_right _ (Nat.pow_le_pow_right (by norm_num) h1))
    refine ⟨(2 ^ order * PAGE_SIZE - 16) / (objsize + 8), ?_, hmin, ?_, ?_, h2⟩
    · rw [← hz, slabNobjs_eq h h2 hfit']
    · exact Nat.div_pos (by omega) (by omega)
    have := Nat.div_mul_le_self (2 ^ order * PAGE_SIZE - 16) (objsize + 8)
    simp only [slabBufctlSizeof, slabSizeof]
    omega

/-! ### The record -/

/-- The record at `a` describes an allocator without slabs. -/
structure Inited (st st' : State) (a objsize order nobjs : ℕ) : Prop where
  out : ∀ b, ¬ InStruct a b → st'.mem b = st.mem b
  pages : st'.pages = st.pages
  head : st'.slabAllocators = a
  next : read32 st'.mem (saNext a) = st.slabAllocators
  objsize : read32 st'.mem (saObjsize a) = objsize
  slabs : read32 st'.mem (saSlabs a) = 0
  order : read32 st'.mem (saOrder a) = order
  nobjs : read32 st'.mem (saSlabNobjs a) = nobjs

theorem Fits.lt {objsize order nobjs : ℕ} (h : Fits objsize order nobjs) :
    objsize < 2 ^ 32 ∧ order < 2 ^ 32 ∧ nobjs < 2 ^ 32 := by
  obtain ⟨-, h2⟩ := pageSize_shift h.order
  have h1 := h.room
  have h3 := h.pos
  have h4 := h.order
  have h5 : nobjs ≤ nobjs * (objsize + slabBufctlSizeof) :=
    Nat.le_mul_of_pos_right _ (by simp [slabBufctlSizeof])
  have h6 : objsize + slabBufctlSizeof ≤ nobjs * (objsize + slabBufctlSizeof) :=
    Nat.le_mul_of_pos_left _ h3
  rw [PAGE_NSIZES] at h4
  omega

/-- The sizes for which `_calc_slab_size` does not panic, as long as an object with its
red zones, its bufctl and a slab header fits a signed int. -/
structure Creatable (size : ℕ) : Prop where
  int : size + 2 * redzoneSizeof + slabBufctlSizeof + slabSizeof < 2 ^ 31
  found : ∃ r, calcSlabSize (size + 2 * redzoneSizeof) = .ok r

theorem allocatorInit_spec (st : State) (a name : ℕ) {size : ℕ} (h : Creatable size)
    (hhead : st.slabAllocators < 2 ^ 32) : ∃ st' order nobjs, allocatorInit st a name size = .ok st' ∧
      Fits (size + 2 * redzoneSizeof) order nobjs ∧ Inited st st' a (size + 2 * redzoneSizeof) order nobjs := by
  obtain ⟨hint, ⟨k, z⟩, hc⟩ := h
  simp only [slabBufctlSizeof, slabSizeof] at hint
  have hsize : word (size + 2 * redzoneSizeof) = size + 2 * redzoneSizeof :=
    Nat.mod_eq_of_lt (by omega)
  obtain ⟨n, rfl, hf⟩ := calcSlabSize_spec (by omega) (Nat.le_add_left _ _) hc
  obtain ⟨l1, l2, l3⟩ := hf.lt
  have hn : ((n : ℤ) % 2 ^ 32).toNat = n := by omega
  refine ⟨_, k, n, by
    simp only [allocatorInit, hsize, hc, bind, Except.bind, pure, Except.pure, hn]
    rfl, hf, ?_⟩
  refine ⟨fun b hb => ?_, rfl, rfl, ?_, ?_, ?_, ?_, ?_⟩
  · simp only [InStruct, slabAllocatorSizeof] at hb
    simp (disch := omega) only [saNext, saObjsize, saSlabs, saOrder, saSlabNobjs, saName, write32_of_out]
  all_goals
    simp (disch := omega) only [saNext, saObjsize, saSlabs, saOrder, saSlabNobjs, saName,
      read32_write32_of_out, read32_write32]

/-! ### The view with another allocator -/

def View.addAlloc (V : View) (p o k n : ℕ) : View :=
  { V with
    allocs := p :: V.allocs
    objsize := update V.objsize p o
    order := update V.order p k
    nobjs := update V.nobjs p n
    slabs := update V.slabs p [] }

section
variable (o k n : ℕ)

theorem View.addAlloc_other (V : View) (h : x ≠ p) : (V.addAlloc p o k n).objsize x = V.objsize x ∧
    (V.addAlloc p o k n).order x = V.order x ∧ (V.addAlloc p o k n).nobjs x = V.nobjs x ∧
    (V.addAlloc p o k n).slabs x = V.slabs x := by
  simp [View.addAlloc, h]

/-- The layout of the other allocators is unchanged. -/
theorem View.addAlloc_layout (V : View) (h : x ≠ p) (s : ℕ) : (V.addAlloc p o k n).block x s = V.block x s ∧
    (V.addAlloc p o k n).hdr x s = V.hdr x s ∧ ∀ i, (V.addAlloc p o k n).obj x s i = V.obj x s i := by
  obtain ⟨h1, h2, h3, -⟩ := V.addAlloc_other o k n h
  refine ⟨?_, ?_, fun i => ?_⟩
  · simp only [View.block, h2]
  · simp only [View.hdr, View.stride, h1, h3]
  · simp only [View.obj, View.stride, h1]

theorem View.mem_addAlloc {o k n : ℕ} {t : ℕ} (ht : t ∈ (V.addAlloc p o k n).slabs x) :
    x ≠ p ∧ t ∈ V.slabs x := by
  have hne : x ≠ p := by
    rintro rfl
    simp [View.addAlloc] at ht
  exact ⟨hne, by rwa [(V.addAlloc_other o k n hne).2.2.2] at ht⟩

theorem Placed.addAlloc {o k n : ℕ} (h : Placed saa V) (hs : s ∈ V.slabs saa) (hi : i < V.nobjs saa)
    (hfree : i ∉ V.free s) (hp : p = V.obj saa s i + redzoneSizeof) (hnew : p ∉ V.allocs)
    (hf : Fits o k n) : Placed saa (V.addAlloc p o k n) := by
  have hsaa : saa ≠ p := fun he => hnew (he ▸ h.static.1)
  have hold : ∀ x ∈ (V.addAlloc p o k n).allocs, x ≠ p → x ∈ V.allocs :=
    fun x hx hne => (mem_cons.1 hx).resolve_left hne
  obtain ⟨e1, e2, e3, e4⟩ := V.addAlloc_other o k n hsaa
  refine ⟨fun x hx => ?_, ⟨mem_cons_of_mem _ h.static.1, h.static.2⟩, by rw [e1]; exact h.size,
    nodup_cons.2 ⟨hnew, h.nodup⟩, fun x hx => ?_, fun x hx t ht => ?_, fun x hx t ht => ?_,
    fun x hx t ht x' hx' t' ht' hne => ?_, fun x hx hne => ?_⟩
  · by_cases hxp : x = p
    · subst hxp
      simpa only [View.addAlloc, update_self] using hf
    obtain ⟨f1, f2, f3, -⟩ := V.addAlloc_other o k n hxp
    rw [f1, f2, f3]
    exact h.fits x (hold x hx hxp)
  · by_cases hxp : x = p
    · subst hxp
      simp only [View.addAlloc, update_self]
      exact nodup_nil
    · rw [(V.addAlloc_other o k n hxp).2.2.2]
      exact h.nodupSlabs x (hold x hx hxp)
  · obtain ⟨hxp, ht'⟩ := mem_addAlloc ht
    rw [(V.addAlloc_layout o k n hxp t).1]
    exact h.bound x (hold x hx hxp) t ht'
  · obtain ⟨hxp, ht'⟩ := mem_addAlloc ht
    rw [(V.addAlloc_layout o k n hxp t).1]
    exact h.apart x (hold x hx hxp) t ht'
  · obtain ⟨hxp, hu⟩ := mem_addAlloc ht
    obtain ⟨hxp', hu'⟩ := mem_addAlloc ht'
    rw [(V.addAlloc_layout o k n hxp t).1, (V.addAlloc_layout o k n hxp' t').1]
    exact h.sep x (hold x hx hxp) t hu x' (hold x' hx' hxp') t' hu' hne
  · rw [e3, e4]
    by_cases hxp : x = p
    · exact ⟨s, hs, i, hi, hfree, by rw [(V.addAlloc_layout o k n hsaa s).2.2 i, hxp, hp]⟩
    obtain ⟨t, ht, j, hj, hn, he⟩ := h.home x (hold x hx hxp) hne
    exact ⟨t, ht, j, hj, hn, by rw [(V.addAlloc_layout o k n hsaa t).2.2 j, he]⟩

theorem Rep.addAlloc {st' : State} {o k n : ℕ} (h : Rep saa st.mem st.slabAllocators V)
    (hs : s ∈ V.slabs saa) (hi : i < V.nobjs saa) (hfree : i ∉ V.free s)
    (hp : p = V.obj saa s i + redzoneSizeof) (hnew : p ∉ V.allocs) (hf : Fits o k n)
    (hinit : Inited st st' p o k n) : Rep saa st'.mem st'.slabAllocators (V.addAlloc p o k n) := by
  have hpl := h.placed.addAlloc hs hi hfree hp hnew hf
  have hpm : p ∈ (V.addAlloc p o k n).allocs := mem_cons_self
  have hne : ∀ x ∈ V.allocs, x ≠ p := fun x hx he => hnew (he ▸ hx)
  have huser : ∀ b, InStruct p b → V.User saa s i b := by
    intro b hb
    have hsize := h.placed.size
    simp only [InStruct, View.User, slabAllocatorSizeof, redzoneSizeof] at *
    omega
  have hstruct : ∀ x ∈ V.allocs, ∀ b, InStruct x b → st'.mem b = st.mem b := fun x hx b hb =>
    hinit.out b (hpl.struct_disjoint (mem_cons_of_mem _ hx) hpm (hne x hx) hb)
  have hbook : ∀ x ∈ V.allocs, ∀ t ∈ V.slabs x, ∀ b, V.Book x t b → st'.mem b = st.mem b := by
    refine fun x hx t ht b hb => hinit.out b fun hsb => ?_
    by_cases he : (saa, s) = (x, t)
    · cases he
      exact hb.2 i hi (huser b hsb)
    · refine h.placed.sep saa h.placed.static.1 s hs x hx t ht he b ⟨?_, hb.1⟩
      exact user_block (h.placed.fits saa h.placed.static.1) hi (huser b hsb)
  have hrep := h.congr hstruct hbook
  refine ⟨hpl, ?_, fun x hx => ?_, fun x hx t ht => ?_⟩
  · refine ⟨hinit.head, ?_, ?_⟩
    · simp only [hp, redzoneSizeof]
      omega
    refine (?_ : IsChain _ (read32 st'.mem (saNext p)) _)
    rw [hinit.next]
    exact hrep.chain
  · by_cases hxp : x = p
    · subst hxp
      refine ⟨?_, ?_, ?_, ?_⟩
      · simpa only [View.addAlloc, update_self] using hinit.objsize
      · simpa only [View.addAlloc, update_self] using hinit.order
      · simpa only [View.addAlloc, update_self] using hinit.nobjs
      rw [show (V.addAlloc x o k n).slabs x = [] from update_self _ _ _]
      exact hinit.slabs
    have hr := hrep.alloc x ((mem_cons.1 hx).resolve_left hxp)
    obtain ⟨e1, e2, e3, e4⟩ := V.addAlloc_other o k n hxp
    refine ⟨e1 ▸ hr.objsize, e2 ▸ hr.order, e3 ▸ hr.nobjs, ?_⟩
    have hhdr : (V.addAlloc p o k n).hdr x = V.hdr x := by
      funext t
      exact (V.addAlloc_layout o k n hxp t).2.1
    rw [e4, hhdr]
    exact hr.slabs
  · obtain ⟨hxp, ht'⟩ := mem_addAlloc ht
    obtain ⟨e1, -, e3, -⟩ := V.addAlloc_other o k n hxp
    exact (hrep.slab x ((mem_cons.1 hx).resolve_left hxp) t ht').transfer e1 e3 rfl

theorem used_addAlloc {o k n : ℕ} (hnew : p ∉ V.allocs) :
    ∀ x q, Used (V.addAlloc p o k n) x q ↔ Used V x q := by
  intro x q
  constructor
  · rintro ⟨hx, t, ht, j, hj, hn, he⟩
    obtain ⟨hxp, ht'⟩ := mem_addAlloc ht
    rw [(V.addAlloc_other o k n hxp).2.2.1] at hj
    rw [(V.addAlloc_layout o k n hxp t).2.2 j] at he
    exact ⟨(mem_cons.1 hx).resolve_left hxp, t, ht', j, hj, hn, he⟩
  · rintro ⟨hx, t, ht, j, hj, hn, he⟩
    have hxp : x ≠ p := fun hxp => hnew (hxp ▸ hx)
    refine ⟨mem_cons_of_mem _ hx, t, ?_, j, ?_, hn, ?_⟩
    · rwa [(V.addAlloc_other o k n hxp).2.2.2]
    · rwa [(V.addAlloc_other o k n hxp).2.2.1]
    · rwa [(V.addAlloc_layout o k n hxp t).2.2 j]

theorem Held.addAlloc {o k n : ℕ} (h : Held st.pages V) (hnew : p ∉ V.allocs) :
    Held st.pages (V.addAlloc p o k n) := by
  refine ⟨h.nodup, fun b => (h.mem b).trans ⟨?_, ?_⟩⟩
  · rintro ⟨x, hx, t, ht, rfl⟩
    have hxp : x ≠ p := fun hxp => hnew (hxp ▸ hx)
    refine ⟨x, mem_cons_of_mem _ hx, t, ?_, ?_⟩
    · rwa [(V.addAlloc_other o k n hxp).2.2.2]
    · rw [(V.addAlloc_other o k n hxp).2.1]
  · rintro ⟨x, hx, t, ht, rfl⟩
    obtain ⟨hxp, ht'⟩ := mem_addAlloc ht
    refine ⟨x, (mem_cons.1 hx).resolve_left hxp, t, ht', ?_⟩
    rw [(V.addAlloc_other o k n hxp).2.1]

end

/-! ### Creating an allocator -/

/-- An allocator for objects of the given size has been made of a newly taken object. -/
structure Made (saa : ℕ) (V V' : View) (p size : ℕ) : Prop where
  allocs : V'.allocs = p :: V.allocs
  objsize : V'.objsize p = size + 2 * redzoneSizeof
  other : ∀ x ∈ V.allocs, V'.objsize x = V.objsize x
  fresh : ¬ Used V saa p
  pos : p ≠ 0
  used : ∀ x q, Used V' x q ↔ (x, q) = (saa, p) ∨ Used V x q

theorem Rep.head_lt {head : ℕ} {m : Mem} (h : Rep saa m head V) : head < 2 ^ 32 := by
  have hchain := h.chain
  cases hl : V.allocs with
  | nil =>
    rw [hl] at hchain
    exact lt_of_eq_of_lt hchain (Nat.two_pow_pos 32)
  | cons x l =>
    rw [hl] at hchain
    obtain ⟨rfl, -⟩ := hchain
    obtain ⟨hsaa, -, hend⟩ := h.placed.static
    by_cases he : head = saa
    · simp only [slabAllocatorSizeof] at hend
      omega
    obtain ⟨s, hs, i, hi, -, hp⟩ := h.placed.home head (hl ▸ mem_cons_self) he
    have hbound := (h.placed.bound saa hsaa s hs).2
    have hslot := slot_covers (V := V) (s := s) (h.placed.fits saa hsaa) hi
      (b := V.obj saa s i + redzoneSizeof) (by simp only [redzoneSizeof]; omega)
    simp only [Covers, View.block] at hslot hbound
    omega

theorem slabAllocatorCreate_spec {n size : ℕ} {page : Option ℕ} (name : ℕ) (junk : Mem)
    (h : Good saa st V) (hn : V.allocs.length ≤ n) (hsize : Creatable size)
    (hpage : ∀ addr, page = some addr → Unused saa V saa addr) :
    ∃ p st' V', slabAllocatorCreate n saa st name size page junk = .ok (p, st') ∧
      Good saa st' V' ∧ V.Grown V' page ∧ ((p = 0 ∧ page = none ∧ Kept V V') ∨ Made saa V V' p size) := by
  have hsaa := h.rep.placed.static.1
  obtain ⟨p, st1, V1, h1, hgood, hgrown, hcase⟩ := slabObjAlloc_spec junk h hsaa hn hpage
  rcases hcase with ⟨rfl, hkept⟩ | htook
  · refine ⟨0, st1, V1, ?_, hgood, hgrown, .inl ⟨rfl, hkept⟩⟩
    simp only [slabAllocatorCreate, h1, bind, Except.bind, if_true, pure, Except.pure]
  obtain ⟨s, hs, i, hi, hfree, hp⟩ := htook.home
  have hpl := hgood.rep.placed
  have hnew : p ∉ V1.allocs := by
    intro hm
    by_cases he : p = saa
    · refine hpl.apart saa hpl.static.1 s hs p ⟨⟨he.ge, ?_⟩, ?_⟩
      · simp only [he, slabAllocatorSizeof]
        omega
      refine slot_covers (hpl.fits saa hpl.static.1) hi ?_
      simp only [hp, redzoneSizeof]
      omega
    · refine htook.fresh ?_
      have hm' : p ∈ V.allocs := htook.same.allocs ▸ hm
      exact ⟨hsaa, h.rep.placed.home p hm' he⟩
  obtain ⟨st', o, c, hok, hf, hinit⟩ := allocatorInit_spec st1 p name hsize hgood.rep.head_lt
  have hrep := hgood.rep.addAlloc hs hi hfree hp hnew hf hinit
  refine ⟨p, st', _, ?_, ⟨hrep, ?_⟩, fun x t ht => hgrown x t (mem_addAlloc ht).2, .inr ⟨?_, ?_, fun x hx => ?_, htook.fresh,
    htook.pos, fun x q => ?_⟩⟩
  · simp only [slabAllocatorCreate, h1, bind, Except.bind, if_neg htook.pos, hok, pure,
      Except.pure]
  · rw [hinit.pages]
    exact hgood.held.addAlloc hnew
  · rw [← htook.same.allocs]
    rfl
  · simp only [View.addAlloc, update_self]
  · rw [← htook.same.objsize]
    exact (V1.addAlloc_other _ o c fun he => hnew (by rw [htook.same.allocs]; exact he ▸ hx)).1
  · rw [used_addAlloc hnew]
    exact htook.used x q

end Weenix.Slab
