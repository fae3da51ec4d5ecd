import Weenix.Proofs.SlabRep

/-! Taking an object from a slab and putting it back. Both change one buffer control and
the header of the slab, and with them the free list the slab shows. -/

namespace Weenix.Slab

open Memory Page Cover List View

variable {saa head : ℕ} {m m' : Mem} {V : View} {a s i j b : ℕ}

/-! ### Where the words of a slab lie -/

theorem View.slots (V : View) (a s i j : ℕ) :
    i = j ∧ V.obj a s i = V.obj a s j ∨ V.obj a s i + V.objsize a + 8 ≤ V.obj a s j ∨
      V.obj a s j + V.objsize a + 8 ≤ V.obj a s i := by
  rcases Nat.lt_trichotomy i j with hlt | rfl | hgt
  · exact .inr (.inl (V.obj_le a s hlt))
  · exact .inl ⟨rfl, rfl⟩
  · exact .inr (.inr (V.obj_le a s hgt))

theorem View.slot_hdr (V : View) (a s : ℕ) (h : i < V.nobjs a) : V.obj a s i + V.objsize a + 8 ≤ V.hdr a s :=
  V.obj_le_hdr a s h

theorem View.out_hdr (hf : V.Fit a) (h : ¬ V.Book a s b) : b < V.hdr a s ∨ V.hdr a s + 16 ≤ b := by
  by_contra hn
  exact h (book_hdr hf (by simp only [slabSizeof]; omega))

theorem View.out_ctl (hf : V.Fit a) (hi : i < V.nobjs a) (h : ¬ V.Book a s b) :
    b < V.obj a s i + V.objsize a ∨ V.obj a s i + V.objsize a + 8 ≤ b := by
  by_contra hn
  refine h (book_slot hf hi ?_ ?_)
  · simp only [View.stride, slabBufctlSizeof]
    omega
  · simp only [View.User]
    omega

section
variable (h : Rep saa m head V) (ha : a ∈ V.allocs)
include h ha

/-- The record of the allocator lies apart from the header and from the buffer controls. -/
theorem Rep.record_apart (hs : s ∈ V.slabs a) (hi : i < V.nobjs a) : (a + 24 ≤ V.hdr a s ∨ V.hdr a s + 16 ≤ a) ∧
      (a + 24 ≤ V.obj a s i + V.objsize a ∨ V.obj a s i + V.objsize a + 8 ≤ a) := by
  have hf := h.placed.fits a ha
  have hout : ∀ b, a ≤ b → b < a + 24 → ¬ V.Book a s b := fun b h1 h2 =>
    h.placed.struct_not_book ha ⟨h1, h2⟩ ha hs
  constructor
  · by_contra hn
    have := out_hdr hf (hout (max a (V.hdr a s)) (by omega) (by omega))
    omega
  · by_contra hn
    have := out_ctl hf hi (hout (max a (V.obj a s i + V.objsize a)) (by omega) (by omega))
    omega

theorem Rep.nobjs_lt : V.nobjs a < 2 ^ 19 := by
  have hf := h.placed.fits a ha
  have h1 := Nat.le_mul_of_pos_right (V.nobjs a) (show 0 < V.objsize a + slabBufctlSizeof by
    simp [slabBufctlSizeof])
  have h2 : 2 ^ V.order a ≤ 2 ^ 7 := Nat.pow_le_pow_right (by norm_num) (by
    have := hf.order
    rw [PAGE_NSIZES] at this
    omega)
  have h4 := hf.room
  simp only [PAGE_SIZE, PAGE_SHIFT, slabSizeof] at *
  omega

theorem Rep.hdr_lt (hs : s ∈ V.slabs a) : V.hdr a s + 16 ≤ 2 ^ 32 :=
  (hdr_end (h.placed.fits a ha) s).trans (h.placed.bound a ha s hs).2

end

/-! ### Stores to one buffer control and the header -/

/-- The bytes of the header of a slab and of the buffer control of one of its objects. -/
def View.Spares (V : View) (a s i : ℕ) (m m' : Mem) : Prop :=
  ∀ b, (b < V.hdr a s ∨ V.hdr a s + 16 ≤ b) →
    (b < V.obj a s i + V.objsize a ∨ V.obj a s i + V.objsize a + 8 ≤ b) → m' b = m b

theorem View.Spares.book (h : V.Spares a s i m m') (hf : V.Fit a) (hi : i < V.nobjs a) (hb : ¬ V.Book a s b) :
    m' b = m b :=
  h b (out_hdr hf hb) (out_ctl hf hi hb)

theorem View.Spares.ctl (h : V.Spares a s i m m') (hj : j < V.nobjs a) (hne : j ≠ i) :
    read32 m' (V.obj a s j + V.objsize a) = read32 m (V.obj a s j + V.objsize a) := by
  have h1 := V.slots a s i j
  have h2 := V.slot_hdr a s hj
  exact read32_congr fun b _ _ => h b (by omega) (by omega)

/-- The slab shows the free list that its header and the one buffer control now spell. -/
theorem SlabRep.store {l : List ℕ} (hr : SlabRep m V a s) (hf : V.Fit a) (hi : i < V.nobjs a)
    (hm : V.Spares a s i m m') (haddr : read32 m' (sAddr (V.hdr a s)) = s)
    (hinuse : read32 m' (sInuse (V.hdr a s)) + l.length = V.nobjs a)
    (hchain : IsChain (fun obj => read32 m' (obj + V.objsize a)) (read32 m' (sFree (V.hdr a s)))
      (l.map (V.obj a s))) (hused : i ∉ l → read32 m' (V.obj a s i + V.objsize a) = V.hdr a s)
    (hflag : m' (sbFree (V.obj a s i + V.objsize a)) = if i ∈ l then 1 else 0)
    (hl : ∀ j, j ≠ i → (j ∈ l ↔ j ∈ V.free s)) (hnodup : l.Nodup) : SlabRep m' (V.setFree s l) a s := by
  have hsize := hf.size
  have hfree := V.setFree_same s l
  refine ⟨by rw [hfree]; exact hinuse, haddr, by rw [hfree]; exact hchain, fun j hj hn => ?_,
    fun j hj => ?_, fun j hj => ?_, by rw [hfree]; exact hnodup, fun j hj => ?_⟩
  · rw [hfree] at hn
    by_cases hji : j = i
    · subst hji
      exact hused hn
    · exact (hm.ctl hj hji).trans (hr.used j hj fun h => hn ((hl j hji).2 h))
  · rw [hfree]
    by_cases hji : j = i
    · subst hji
      exact hflag
    have h1 := V.slots a s i j
    have h2 := V.slot_hdr a s hj
    refine (hm _ ?_ ?_).trans ((hr.flag j hj).trans (if_congr (hl j hji).symm rfl rfl))
    · change V.obj a s j + V.objsize a + 4 < _ ∨ _ ≤ V.obj a s j + V.objsize a + 4
      omega
    · change V.obj a s j + V.objsize a + 4 < _ ∨ _ ≤ V.obj a s j + V.objsize a + 4
      omega
  · have h1 := V.slots a s i j
    have h2 := V.slot_hdr a s hj
    obtain ⟨hz1, hz2⟩ := hr.zones j hj
    simp only [redzoneSizeof] at hsize hz2
    have hz1' : read32 m' (V.obj a s j) = SLAB_REDZONE :=
      (read32_congr fun b _ _ => hm b (by omega) (by omega)).trans hz1
    have hz2' : read32 m' (V.obj a s j + V.objsize a - 4) = SLAB_REDZONE :=
      (read32_congr fun b _ _ => hm b (by omega) (by omega)).trans hz2
    exact ⟨hz1', hz2'⟩
  · rw [hfree] at hj
    by_cases hji : j = i
    · exact hji ▸ hi
    · exact hr.lt j ((hl j hji).1 hj)

/-! ### Taking -/

/-- The stores of `slab_obj_alloc`, with every address resolved. -/
def takeMem (V : View) (m : Mem) (a s i : ℕ) : Mem :=
  write32 (write8 (write32
    (write32 m (sFree (V.hdr a s)) (read32 m (V.obj a s i + V.objsize a)))
    (V.obj a s i + V.objsize a) (V.hdr a s)) (sbFree (V.obj a s i + V.objsize a)) 0)
    (sInuse (V.hdr a s)) (read32 m (sInuse (V.hdr a s)) + 1)

theorem takeMem_spares (V : View) (m : Mem) (a s i : ℕ) : V.Spares a s i m (takeMem V m a s i) := by
  intro b h1 h2
  simp (disch := omega) [takeMem]

theorem takeMem_rep (h : Rep saa m head V) (ha : a ∈ V.allocs) (hs : s ∈ V.slabs a) {l : List ℕ}
    (hfree : V.free s = i :: l) : Rep saa (takeMem V m a s i) head (V.setFree s l) := by
  have hr := h.slab a ha s hs
  have hf := h.placed.fits a ha
  have hi : i < V.nobjs a := hr.lt i (hfree ▸ mem_cons_self)
  have hihdr := V.slot_hdr a s hi
  have hhdr := h.hdr_lt ha hs
  have hn := h.nobjs_lt ha
  have hm := takeMem_spares V m a s i
  obtain ⟨hil, hl⟩ := nodup_cons.1 (hfree ▸ hr.nodup)
  have hinuse := hr.inuse
  rw [hfree, length_cons] at hinuse
  have hchain := hr.free
  rw [hfree, map_cons] at hchain
  refine h.update_slab ha hs (fun b hb => hm.book hf hi hb) ?_ (hr.store hf hi hm ?_ ?_ ?_ ?_ ?_ ?_ hl)
    fun _ j hj => hfree ▸ mem_cons_of_mem _ hj
  · simp (disch := omega) [takeMem]
  · simpa (disch := omega) [takeMem] using hr.addr
  · rw [takeMem, read32_write32 (by omega)]
    omega
  · have hhead : read32 (takeMem V m a s i) (sFree (V.hdr a s)) =
        read32 m (V.obj a s i + V.objsize a) := by
      simp (disch := omega) [takeMem, read32_write32 (read32_lt _ _)]
    rw [hhead]
    refine hchain.2.2.congr fun x hx => ?_
    obtain ⟨j, hj, rfl⟩ := mem_map.1 hx
    exact hm.ctl (hr.lt j (hfree ▸ mem_cons_of_mem _ hj)) fun he => hil (he ▸ hj)
  · intro _
    simp (disch := omega) [takeMem]
  · simp (disch := omega) [takeMem, hil]
  · intro j hj
    rw [hfree, mem_cons, or_iff_right hj]

theorem Rep.verifyRedzones_ok (h : Rep saa m head V) (ha : a ∈ V.allocs) (hs : s ∈ V.slabs a)
    (hi : i < V.nobjs a) : verifyRedzones m a (V.obj a s i) = .ok () := by
  have hz := (h.slab a ha s hs).zones i hi
  rw [verifyRedzones, rearRz, (h.alloc a ha).objsize]
  exact if_pos hz

theorem takeObj_spec {st : State} (h : Rep saa st.mem head V) (ha : a ∈ V.allocs)
    (hs : s ∈ V.slabs a) {l : List ℕ} (hfree : V.free s = i :: l) :
    takeObj st a (V.hdr a s) =
      .ok (V.obj a s i + redzoneSizeof, { st with mem := takeMem V st.mem a s i }) ∧
    Rep saa (takeMem V st.mem a s i) head (V.setFree s l) := by
  have hr := h.slab a ha s hs
  have hi : i < V.nobjs a := hr.lt i (hfree ▸ mem_cons_self)
  have hrep := takeMem_rep h ha hs hfree
  refine ⟨?_, hrep⟩
  have hobj : read32 st.mem (sFree (V.hdr a s)) = V.obj a s i := by
    have := hr.free
    rw [hfree, map_cons] at this
    exact this.1
  have hsize := (h.alloc a ha).objsize
  have hinuse := hr.inuse
  have hn := h.nobjs_lt ha
  have hihdr := V.slot_hdr a s hi
  obtain ⟨hhdr, hctl⟩ := h.record_apart ha hs hi
  have hzones : verifyRedzones (takeMem V st.mem a s i) a (V.obj a s i) = .ok () :=
    hrep.verifyRedzones_ok ha hs hi
  have hword : word (read32 st.mem (sInuse (V.hdr a s)) + 1) = read32 st.mem (sInuse (V.hdr a s)) + 1 := by
    rw [word]
    omega
  rw [saObjsize] at hsize
  rw [sFree] at hobj
  rw [sInuse] at hword
  -- the object size is read again after each store
  simp (disch := omega) only [takeObj, objBufctl, saObjsize, sFree, sInuse, sbFree, hobj, hsize, hword,
    read32_write32_of_out, read32_write8_of_out]
  simp only [takeMem, sFree, sInuse, sbFree] at hzones
  rw [hzones]
  rfl

/-! ### Giving back -/

/-- The stores of `slab_obj_free`, with every address resolved. -/
def freeMem (V : View) (m : Mem) (a s i : ℕ) : Mem :=
  write32 (write32 (write32 (write8 m (sbFree (V.obj a s i + V.objsize a)) 1)
    (V.obj a s i + V.objsize a) (read32 m (sFree (V.hdr a s)))) (sFree (V.hdr a s)) (V.obj a s i))
    (sInuse (V.hdr a s)) (read32 m (sInuse (V.hdr a s)) - 1)

theorem freeMem_spares (V : View) (m : Mem) (a s i : ℕ) : V.Spares a s i m (freeMem V m a s i) := by
  intro b h1 h2
  simp (disch := omega) [freeMem]

/-- A used object leaves room on the free list. -/
theorem SlabRep.inuse_pos (hr : SlabRep m V a s) (hi : i < V.nobjs a) (hfree : i ∉ V.free s) :
    0 < read32 m (sInuse (V.hdr a s)) := by
  have hsub : (i :: V.free s).Subperm (List.range (V.nobjs a)) := by
    refine (nodup_cons.2 ⟨hfree, hr.nodup⟩).subperm fun j hj => mem_range.2 ?_
    rcases mem_cons.1 hj with rfl | hj
    · exact hi
    · exact hr.lt j hj
  have hlen := hsub.length_le
  have hinuse := hr.inuse
  rw [length_range, length_cons] at hlen
  omega

theorem freeMem_rep (h : Rep saa m head V) (ha : a ∈ V.allocs) (hs : s ∈ V.slabs a)
    (hi : i < V.nobjs a) (hfree : i ∉ V.free s) (hsaa : a ≠ saa) :
    Rep saa (freeMem V m a s i) head (V.setFree s (i :: V.free s)) := by
  have hr := h.slab a ha s hs
  have hf := h.placed.fits a ha
  have hihdr := V.slot_hdr a s hi
  have hhdr := h.hdr_lt ha hs
  have hn := h.nobjs_lt ha
  have hm := freeMem_spares V m a s i
  have hpos := hr.inuse_pos hi hfree
  have hinuse := hr.inuse
  have hbound := (h.placed.bound a ha s hs).1
  have hstart : s ≤ V.obj a s i := Nat.le_add_right _ _
  refine h.update_slab ha hs (fun b hb => hm.book hf hi hb) ?_ (hr.store hf hi hm ?_ ?_ ?_ ?_ ?_ ?_ ?_)
    fun he => absurd he hsaa
  · simp (disch := omega) [freeMem]
  · simpa (disch := omega) [freeMem] using hr.addr
  · rw [freeMem, read32_write32 (by omega), length_cons]
    omega
  · have hhead : read32 (freeMem V m a s i) (sFree (V.hdr a s)) = V.obj a s i := by
      simp (disch := omega) [freeMem]
    have hself : read32 (freeMem V m a s i) (V.obj a s i + V.objsize a) =
        read32 m (sFree (V.hdr a s)) := by
      simp (disch := omega) [freeMem, read32_write32 (read32_lt _ _)]
    rw [hhead, map_cons]
    refine ⟨rfl, by omega, ?_⟩
    simp only [hself]
    refine hr.free.congr fun x hx => ?_
    obtain ⟨j, hj, rfl⟩ := mem_map.1 hx
    exact hm.ctl (hr.lt j hj) fun he => hfree (he ▸ hj)
  · exact fun hn => absurd mem_cons_self hn
  · simp (disch := omega) [freeMem]
  · intro j hj
    rw [mem_cons, or_iff_right hj]
  · exact nodup_cons.2 ⟨hfree, hr.nodup⟩

theorem slabObjFree_spec {st : State} (h : Rep saa st.mem head V) (ha : a ∈ V.allocs)
    (hs : s ∈ V.slabs a) (hi : i < V.nobjs a) (hfree : i ∉ V.free s) (hsaa : a ≠ saa) :
    slabObjFree st a (V.obj a s i + redzoneSizeof) =
      .ok { st with mem := freeMem V st.mem a s i } ∧
    Rep saa (freeMem V st.mem a s i) head (V.setFree s (i :: V.free s)) := by
  refine ⟨?_, freeMem_rep h ha hs hi hfree hsaa⟩
  have hr := h.slab a ha s hs
  have hihdr := V.slot_hdr a s hi
  have hn := h.nobjs_lt ha
  have hinuse := hr.inuse
  have hpos := hr.inuse_pos hi hfree
  have hflag := hr.flag i hi
  rw [if_neg hfree] at hflag
  have hsize := (h.alloc a ha).objsize
  have hused := hr.used i hi hfree
  obtain ⟨hhdr, hctl⟩ := h.record_apart ha hs hi
  have hword : wordSub (read32 st.mem (sInuse (V.hdr a s))) 1 = read32 st.mem (sInuse (V.hdr a s)) - 1 := by
    rw [wordSub]
    omega
  rw [saObjsize] at hsize
  rw [sInuse] at hword
  rw [sbFree] at hflag
  simp only [slabObjFree, Nat.add_sub_cancel, objBufctl, saObjsize, hsize]
  rw [h.verifyRedzones_ok ha hs hi]
  simp (disch := omega) only [bind, Except.bind, hflag, ne_eq, not_true_eq_false, if_false, hsize, hused, hword,
    read32_write32_of_out, read32_write8_of_out, pure, Except.pure, freeMem, sFree, sInuse, sbFree]

end Weenix.Slab
