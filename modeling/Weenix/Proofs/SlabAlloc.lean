import Weenix.Proofs.SlabReclaim

/-! Allocating an object. The walk over the slabs ends at one with a free object, at the
latest after a slab has been made; when there is no memory for one, the empty slabs have
been given back and the used objects are as before. -/

namespace Weenix.Slab

open Memory Page Cover Function List View

variable {saa : ℕ} {m : Mem} {V V' : View} {st : State} {a a' s s' i j p x : ℕ}

/-! ### Used objects -/

/-- `p` is the address, behind the red zone, of an object of `a` that is in use. -/
def Used (V : View) (a p : ℕ) : Prop :=
  a ∈ V.allocs ∧ ∃ s ∈ V.slabs a, ∃ i < V.nobjs a, i ∉ V.free s ∧ p = V.obj a s i + redzoneSizeof

/-- The parts of a view that only making an allocator changes. -/
structure SameAllocs (V V' : View) : Prop where
  allocs : V'.allocs = V.allocs
  objsize : V'.objsize = V.objsize
  order : V'.order = V.order
  nobjs : V'.nobjs = V.nobjs

theorem Reclaimed.same (h : Reclaimed V V') : SameAllocs V V' :=
  ⟨h.allocs, h.objsize, h.order, h.nobjs⟩

theorem SameAllocs.obj (h : SameAllocs V V') : V'.obj = V.obj := by
  funext a s i
  simp only [View.obj, View.stride, h.objsize]

section
variable (h : Placed saa V) (ha : a ∈ V.allocs)
include h ha

theorem Placed.obj_covers (hi : i < V.nobjs a) : Covers (V.obj a s i) (V.block a s) :=
  slot_covers (h.fits a ha) hi ⟨le_rfl, by omega⟩

theorem Placed.obj_unique (hs : s ∈ V.slabs a)
    (hi : i < V.nobjs a) (ha' : a' ∈ V.allocs) (hs' : s' ∈ V.slabs a') (hj : j < V.nobjs a')
    (he : V.obj a s i = V.obj a' s' j) : a = a' ∧ s = s' ∧ i = j := by
  by_cases hss : (a, s) = (a', s')
  · cases hss
    exact ⟨rfl, rfl, V.obj_inj a s he⟩
  · exact absurd ⟨h.obj_covers ha hi, he ▸ h.obj_covers ha' hj⟩ (h.sep a ha s hs a' ha' s' hs' hss _)

/-- Taking a free object makes it used and changes nothing else. -/
theorem used_take (hs : s ∈ V.slabs a)
    (hi : i < V.nobjs a) {l : List ℕ} (hfree : V.free s = i :: l) (hil : i ∉ l) :
    ¬ Used V a (V.obj a s i + redzoneSizeof) ∧
    ∀ x p, Used (V.setFree s l) x p ↔ (x, p) = (a, V.obj a s i + redzoneSizeof) ∨ Used V x p := by
  constructor
  · rintro ⟨-, t, ht, j, hj, hn, he⟩
    obtain ⟨-, rfl, rfl⟩ := h.obj_unique ha hs hi ha ht hj (Nat.add_right_cancel he)
    exact hn (hfree ▸ mem_cons_self)
  intro x p
  constructor
  · rintro ⟨hx, t, ht, j, hj, hn, rfl⟩
    by_cases hts : t = s
    · subst hts
      obtain rfl : x = a := by
        by_contra hne
        exact h.slab_ne ha hs hx ht (fun he => hne (Prod.mk.inj he).1) rfl
      rw [setFree_same] at hn
      by_cases hji : j = i
      · exact .inl (by rw [hji]; rfl)
      refine .inr ⟨hx, t, ht, j, hj, ?_, rfl⟩
      rw [hfree, mem_cons, not_or]
      exact ⟨hji, hn⟩
    · rw [V.setFree_of_ne l hts] at hn
      exact .inr ⟨hx, t, ht, j, hj, hn, rfl⟩
  · rintro (he | ⟨hx, t, ht, j, hj, hn, rfl⟩)
    · cases he
      exact ⟨ha, s, hs, i, hi, by rwa [setFree_same], rfl⟩
    refine ⟨hx, t, ht, j, hj, ?_, rfl⟩
    by_cases hts : t = s
    · subst hts
      rw [setFree_same]
      exact fun hjl => hn (hfree ▸ mem_cons_of_mem _ hjl)
    · rwa [V.setFree_of_ne l hts]

end

/-- Giving an object back is the converse. -/
theorem used_free (h : Placed saa (V.setFree s (i :: V.free s))) (ha : a ∈ V.allocs)
    (hs : s ∈ V.slabs a) (hi : i < V.nobjs a) (hfree : i ∉ V.free s) :
    ∀ x p, Used (V.setFree s (i :: V.free s)) x p ↔ (x, p) ≠ (a, V.obj a s i + redzoneSizeof) ∧ Used V x p := by
  intro x p
  obtain ⟨hfresh, hused⟩ := used_take h ha hs hi (setFree_same _ _ _) hfree
  have hback : (V.setFree s (i :: V.free s)).setFree s (V.free s) = V := by simp [View.setFree]
  rw [hback] at hused
  constructor
  · intro hu
    refine ⟨fun he => hfresh ?_, (hused x p).2 (.inr hu)⟩
    cases he
    exact hu
  · rintro ⟨hne, hu⟩
    exact ((hused x p).1 hu).resolve_left hne

theorem used_reclaimed (h : Reclaimed V V') : ∀ x p, Used V' x p ↔ Used V x p := by
  intro x p
  constructor
  · rintro ⟨hx, t, ht, j, hj, hn, he⟩
    rw [h.nobjs] at hj
    rw [h.free] at hn
    rw [h.same.obj] at he
    exact ⟨h.allocs ▸ hx, t, (h.sub x).subset ht, j, hj, hn, he⟩
  · rintro ⟨hx, t, ht, j, hj, hn, he⟩
    refine ⟨h.allocs.symm ▸ hx, t, ?_, j, h.nobjs.symm ▸ hj, h.free.symm ▸ hn, h.same.obj.symm ▸ he⟩
    by_contra hgone
    exact hn (h.gone x hx t ht hgone j hj)

/-- All objects of a new slab are free. -/
theorem used_addSlab (hu : Unused saa V a s) : ∀ x p, Used (V.addSlab a s) x p ↔ Used V x p := by
  intro x p
  constructor
  · rintro ⟨hx, t, ht, j, hj, hn, rfl⟩
    rcases mem_addSlab.1 ht with he | ht
    · cases he
      refine absurd (mem_range.2 hj) ?_
      simpa only [View.addSlab, update_self] using hn
    · refine ⟨hx, t, ht, j, hj, ?_, rfl⟩
      simpa only [View.addSlab, update_of_ne (hu.ne hx ht)] using hn
  · rintro ⟨hx, t, ht, j, hj, hn, rfl⟩
    refine ⟨hx, t, mem_addSlab.2 (.inr ht), j, hj, ?_, rfl⟩
    simpa only [View.addSlab, update_of_ne (hu.ne hx ht)] using hn

/-! ### Finding a slab -/

theorem findSlab_spec (h : Good saa st V) (ha : a ∈ V.allocs) (kept rest : List ℕ) {fuel : ℕ}
    (hslabs : V.slabs a = kept ++ rest) (hfuel : rest.length < fuel) :
    ∃ slab, findSlab st.mem a fuel (firstOf (V.hdr a) rest) = .ok slab ∧
      ((slab = 0 ∧ ∀ t ∈ rest, V.free t = []) ∨
        ∃ t ∈ rest, slab = V.hdr a t ∧ V.free t ≠ []) := by
  have hnobjs := (h.rep.alloc a ha).nobjs
  induction rest generalizing kept fuel with
  | nil =>
    obtain _ | fuel := fuel
    · omega
    exact ⟨0, by simp [findSlab, firstOf], .inl ⟨rfl, by simp⟩⟩
  | cons t rest ih =>
    obtain _ | fuel := fuel
    · omega
    have ht : t ∈ V.slabs a := View.At.mem ⟨ha, hslabs⟩
    have hr := (h.rep.slab a ha t ht).inuse
    have hchain := (h.rep.alloc a ha).slabs
    rw [hslabs, map_append, map_cons] at hchain
    have hnext : read32 st.mem (sNext (V.hdr a t)) = firstOf (V.hdr a) rest :=
      isChain_first hchain.drop
    have hne : V.hdr a t ≠ 0 := hchain.ne_zero (mem_append_right _ mem_cons_self)
    by_cases hfull : read32 st.mem (sInuse (V.hdr a t)) = V.nobjs a
    · obtain ⟨slab, h1, h2⟩ := ih (kept ++ [t]) (by rw [hslabs, append_assoc]; rfl)
        (Nat.lt_of_succ_lt_succ hfuel)
      refine ⟨slab, ?_, ?_⟩
      · rw [findSlab, firstOf_cons, if_pos ⟨hne, hfull.trans hnobjs.symm⟩, hnext]
        exact h1
      · have hnil : V.free t = [] := length_eq_zero_iff.1 (by omega)
        simpa [hnil] using h2
    · refine ⟨V.hdr a t, ?_, .inr ⟨t, mem_cons_self, rfl, fun he => hfull ?_⟩⟩
      · rw [findSlab, firstOf_cons, if_neg fun hn => hfull (hn.2.trans hnobjs)]
      rw [he, length_nil, Nat.add_zero] at hr
      exact hr

/-- The search from the head of the list, with the fuel that the loop gives it. -/
theorem findSlab_head (h : Good saa st V) (ha : a ∈ V.allocs) :
    ∃ slab, findSlab st.mem a (st.pages.length + 1) (read32 st.mem (saSlabs a)) = .ok slab ∧
      ((slab = 0 ∧ ∀ t ∈ V.slabs a, V.free t = []) ∨
        ∃ t ∈ V.slabs a, slab = V.hdr a t ∧ V.free t ≠ []) := by
  rw [isChain_first (h.rep.alloc a ha).slabs]
  exact findSlab_spec h ha [] _ rfl (Nat.lt_succ_of_le (h.held.length_le h.rep.placed ha))

/-! ### The allocation loop -/

/-- An object has been taken: it was free and is the only one newly in use. -/
structure Took (V V' : View) (a p : ℕ) : Prop where
  same : SameAllocs V V'
  fresh : ¬ Used V a p
  pos : p ≠ 0
  used : ∀ x q, Used V' x q ↔ (x, q) = (a, p) ∨ Used V x q
  home : ∃ s ∈ V'.slabs a, ∃ i < V'.nobjs a, i ∉ V'.free s ∧ p = V'.obj a s i + redzoneSizeof

/-- Each slab was there before, or is the block handed out. -/
def View.Grown (V V' : View) (page : Option ℕ) : Prop := ∀ x, ∀ t ∈ V'.slabs x, t ∈ V.slabs x ∨ page = some t

/-- Nothing has been taken. -/
structure Kept (V V' : View) : Prop where
  same : SameAllocs V V'
  used : ∀ x q, Used V' x q ↔ Used V x q

section
variable (h : Good saa st V) (ha : a ∈ V.allocs) (hs : s ∈ V.slabs a) (hfree : V.free s ≠ [])
include h ha hs hfree

theorem Good.takeObj :
    ∃ p st' V', takeObj st a (V.hdr a s) = .ok (p, st') ∧ Good saa st' V' ∧ V'.slabs = V.slabs ∧ Took V V' a p := by
  obtain ⟨i, l, he⟩ := exists_cons_of_ne_nil hfree
  have hr := h.rep.slab a ha s hs
  have hi : i < V.nobjs a := hr.lt i (he ▸ mem_cons_self)
  have hil := (nodup_cons.1 (he ▸ hr.nodup)).1
  obtain ⟨h1, h2⟩ := takeObj_spec h.rep ha hs he
  obtain ⟨h3, h4⟩ := used_take h.rep.placed ha hs hi he hil
  refine ⟨_, _, _, h1, ⟨h2, h.held.nodup, h.held.mem⟩, rfl, ⟨rfl, rfl, rfl, rfl⟩, h3, ?_, h4, ?_⟩
  · simp only [redzoneSizeof]
    omega
  · exact ⟨s, hs, i, hi, by rwa [setFree_same], rfl⟩

/-- The condition under which the loop leaves with the slab it has found. -/
theorem Good.has_free : V.hdr a s ≠ 0 ∧
      toInt (read32 st.mem (sInuse (V.hdr a s))) < toInt (read32 st.mem (saSlabNobjs a)) := by
  have hr := (h.rep.slab a ha s hs).inuse
  have hn := h.rep.nobjs_lt ha
  have hpos := length_pos_iff.2 hfree
  refine ⟨(h.rep.alloc a ha).slabs.ne_zero (mem_map.2 ⟨s, hs, rfl⟩), ?_⟩
  rw [(h.rep.alloc a ha).nobjs, toInt_of_lt (by omega), toInt_of_lt (by omega)]
  omega

end

theorem Held.addSlab (h : Held st.pages V) (ha : a ∈ V.allocs) (hu : Unused saa V a s) :
    Held ((s, 2 ^ V.order a) :: st.pages) (V.addSlab a s) := by
  refine ⟨nodup_cons.2 ⟨fun hm => ?_, h.nodup⟩, fun b => ?_⟩
  · obtain ⟨x, hx, t, ht, he⟩ := (h.mem _).1 hm
    exact hu.ne hx ht (Prod.mk.inj he).1.symm
  rw [mem_cons, h.mem]
  constructor
  · rintro (rfl | ⟨x, hx, t, ht, rfl⟩)
    · exact ⟨a, ha, s, mem_addSlab.2 (.inl rfl), rfl⟩
    · exact ⟨x, hx, t, mem_addSlab.2 (.inr ht), rfl⟩
  rintro ⟨x, hx, t, ht, rfl⟩
  rcases mem_addSlab.1 ht with he | ht
  · cases he
    exact .inl rfl
  · exact .inr ⟨x, hx, t, ht, rfl⟩

/-- One iteration that finds a slab. -/
theorem allocLoop_found (n fuel : ℕ) (page : Option ℕ) (junk : Mem) (h : Good saa st V)
    (ha : a ∈ V.allocs) (hfree : ∃ s ∈ V.slabs a, V.free s ≠ []) :
    ∃ p st' V', allocLoop n a page junk (fuel + 1) st = .ok (p, st') ∧ Good saa st' V' ∧
      V'.slabs = V.slabs ∧ Took V V' a p := by
  obtain ⟨slab, h1, ⟨-, hnone⟩ | ⟨t, ht, rfl, hne⟩⟩ := findSlab_head h ha
  · obtain ⟨s, hs, hne⟩ := hfree
    exact absurd (hnone s hs) hne
  obtain ⟨p, st', V', h3, h4⟩ := h.takeObj ha ht hne
  refine ⟨p, st', V', ?_, h4⟩
  simp only [allocLoop, h1, bind, Except.bind, if_pos (h.has_free ha ht hne)]
  exact h3

theorem slabObjAlloc_spec {n : ℕ} {page : Option ℕ} (junk : Mem) (h : Good saa st V)
    (ha : a ∈ V.allocs) (hn : V.allocs.length ≤ n) (hpage : ∀ addr, page = some addr → Unused saa V a addr) :
    ∃ p st' V', slabObjAlloc n st a page junk = .ok (p, st') ∧ Good saa st' V' ∧ V.Grown V' page ∧
      ((p = 0 ∧ page = none ∧ Kept V V') ∨ Took V V' a p) := by
  by_cases hfree : ∃ s ∈ V.slabs a, V.free s ≠ []
  · obtain ⟨p, st', V', h1, h2, hslabs, h3⟩ := allocLoop_found n 1 page junk h ha hfree
    exact ⟨p, st', V', h1, h2, fun _ _ ht => .inl (hslabs ▸ ht), .inr h3⟩
  obtain ⟨slab, h1, ⟨rfl, -⟩ | ⟨t, ht, -, hne⟩⟩ := findSlab_head h ha
  swap
  · exact absurd ⟨t, ht, hne⟩ hfree
  have horder := (h.rep.alloc a ha).order
  cases page with
  | none =>
    obtain ⟨freed, st', V', h3, h4, h5, -⟩ := slabAllocatorsReclaim_spec h junk 0 hn
    refine ⟨0, st', V', ?_, h4, fun x _ ht => .inl ((h5.sub x).subset ht), .inl ⟨rfl, rfl, h5.same, used_reclaimed h5⟩⟩
    simp only [slabObjAlloc, allocLoop, h1, bind, Except.bind, ne_eq, not_true_eq_false,
      false_and, if_false, slabAllocatorGrow, pageAllocN, h3, pure, Except.pure, if_true,
      Bool.false_eq_true]
  | some addr =>
    have hu := hpage addr rfl
    have hrep := h.rep.grow junk ha hu
    have hgood : Good saa ⟨layOut a (fill st.mem junk addr (2 ^ V.order a * PAGE_SIZE)) addr,
        st.slabAllocators, (addr, 2 ^ V.order a) :: st.pages⟩ (V.addSlab a addr) :=
      ⟨hrep, h.held.addSlab ha hu⟩
    obtain ⟨p, st', V', h3, h4, hslabs, h5⟩ := allocLoop_found n 0 (some addr) junk hgood ha
      ⟨addr, mem_addSlab.2 (.inl rfl), by
        have := (h.rep.placed.fits a ha).pos
        simp only [View.addSlab, update_self, ne_eq, range_eq_nil]
        omega⟩
    have hused := used_addSlab hu
    refine ⟨p, st', V', ?_, h4, fun x t ht => ?_, .inr ⟨⟨h5.same.allocs, h5.same.objsize, h5.same.order,
      h5.same.nobjs⟩, fun hp => h5.fresh ((hused a p).2 hp), h5.pos, fun x q => ?_, h5.home⟩⟩
    · have hne : addr ≠ 0 := Nat.pos_iff_ne_zero.1 hu.pos
      rw [slabObjAlloc, allocLoop]
      simp only [h1, bind, Except.bind, ne_eq, not_true_eq_false, false_and, if_false,
        slabAllocatorGrow, pageAllocN, horder, Nat.one_shiftLeft, pure, Except.pure, if_neg hne,
        if_true]
      exact h3
    · rcases mem_addSlab.1 (hslabs ▸ ht) with he | ht
      · exact .inr (congrArg some (Prod.mk.inj he).2.symm)
      · exact .inl ht
    · rw [h5.used, hused]

end Weenix.Slab
