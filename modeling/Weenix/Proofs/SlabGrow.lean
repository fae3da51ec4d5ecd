import Weenix.Proofs.SlabObj

/-! Making a slab out of a block of pages. The loops run over the objects in order; each
iteration touches the slot of its object only, and none touches the allocator record
from which the object size is read. -/

namespace Weenix.Slab

open Memory Page Cover Function List View

variable {saa head : ℕ} {m m' : Mem} {V : View} {a s i j k b : ℕ}

theorem View.obj_succ (V : View) (a s i : ℕ) : V.obj a s (i + 1) = V.obj a s i + V.objsize a + 8 := by
  simp only [View.obj, View.stride, slabBufctlSizeof]
  ring

theorem View.obj_zero (V : View) (a s : ℕ) : V.obj a s 0 = s := by simp [View.obj]

def View.Outside (V : View) (a s : ℕ) : Prop := ∀ b, InStruct a b → ¬ Covers b (V.block a s)

theorem View.block_covers (V : View) (a s : ℕ) : Covers s (V.block a s) :=
  ⟨le_rfl, Nat.lt_add_of_pos_right (by simp [View.block, PAGE_SIZE])⟩

theorem View.Outside.apart (ho : V.Outside a s) : a + 24 ≤ s ∨ s + (V.block a s).2 ≤ a := by
  have hpos : s < s + _ := (V.block_covers a s).2
  by_contra hn
  exact ho (max a s) ⟨le_max_left a s, show _ < a + 24 by omega⟩ ⟨le_max_right a s, show _ < s + _ by omega⟩

/-- A slot lies in the block, before the header. -/
theorem View.slot_in (hf : V.Fit a) (s : ℕ) (hi : i < V.nobjs a) :
    s ≤ V.obj a s i ∧ V.obj a s i + V.objsize a + 8 ≤ V.hdr a s ∧ V.hdr a s + 16 ≤ s + (V.block a s).2 :=
  ⟨Nat.le_add_right _ _, V.slot_hdr a s hi, hdr_end hf s⟩

theorem View.slot_covers (hf : V.Fit a) (hi : i < V.nobjs a)
    (h : V.obj a s i ≤ b ∧ b < V.obj a s i + V.objsize a + 8) : Covers b (V.block a s) := by
  have hslot := slot_in hf s hi
  exact ⟨show s ≤ b by omega, show b < s + _ by omega⟩

/-! ### A step for each slot -/

def eachSlot (F : ℕ → Mem → Mem) (i k : ℕ) (m : Mem) : Mem := (List.range' i k).foldl (fun m i => F i m) m

theorem eachSlot_succ (F : ℕ → Mem → Mem) (i k : ℕ) (m : Mem) :
    eachSlot F i (k + 1) m = eachSlot F (i + 1) k (F i m) := rfl

section
variable {F : ℕ → Mem → Mem} {lo hi : ℕ}
  (hF : ∀ i m b, (b < V.obj a s i + lo ∨ V.obj a s i + hi ≤ b) → F i m b = m b)
include hF

theorem eachSlot_out (hb : ∀ j, i ≤ j → j < i + k → b < V.obj a s j + lo ∨ V.obj a s j + hi ≤ b) :
    eachSlot F i k m b = m b := by
  induction k generalizing i m with
  | zero => rfl
  | succ k ih =>
    rw [eachSlot_succ, ih fun j h1 h2 => hb j (by omega) (by omega)]
    exact hF i m b (hb i le_rfl (by omega))

/-- The bytes of a slot are those its own step leaves. -/
theorem eachSlot_in (hhi : hi ≤ V.objsize a + 8) (h1 : i ≤ j) (h2 : j < i + k) :
    ∃ m0, ∀ b, V.obj a s j + lo ≤ b → b < V.obj a s j + hi → eachSlot F i k m b = F j m0 b := by
  induction k generalizing i m with
  | zero => omega
  | succ k ih =>
    by_cases hji : j = i
    · subst hji
      refine ⟨m, fun b hb1 hb2 => ?_⟩
      rw [eachSlot_succ]
      refine eachSlot_out hF fun i' _ _ => ?_
      have := V.slots a s j i'
      omega
    · exact ih (by omega) (by omega)

theorem eachSlot_record (hhi : hi ≤ V.objsize a + 8) (hf : V.Fit a)
    (ho : V.Outside a s) (hle : i + k ≤ V.nobjs a) {o : ℕ} (hlo : o + 4 ≤ 24) :
    read32 (eachSlot F i k m) (a + o) = read32 m (a + o) := by
  refine read32_congr fun b h1 h2 => eachSlot_out hF fun j _ hj => ?_
  have := slot_in hf s (show j < V.nobjs a by omega)
  have := ho.apart
  omega

end

/-- An iteration of the first loop; the last object has no successor. -/
def View.linkSlot (V : View) (a s i : ℕ) (m : Mem) : Mem :=
  write32 (write8 m (sbFree (V.obj a s i + V.objsize a)) 1) (V.obj a s i + V.objsize a)
    (if i + 1 < V.nobjs a then V.obj a s (i + 1) else 0)

theorem View.linkSlot_out (V : View) (a s i : ℕ) (m : Mem) (b : ℕ)
    (h : b < V.obj a s i + V.objsize a ∨ V.obj a s i + (V.objsize a + 8) ≤ b) : V.linkSlot a s i m b = m b := by
  simp (disch := omega) [linkSlot]

def View.zoneSlot (V : View) (a s i : ℕ) (m : Mem) : Mem :=
  write32 (write32 m (V.obj a s i) SLAB_REDZONE) (V.obj a s i + V.objsize a - redzoneSizeof) SLAB_REDZONE

theorem View.zoneSlot_out (hmin : 2 * redzoneSizeof ≤ V.objsize a) (i : ℕ) (m : Mem) (b : ℕ)
    (h : b < V.obj a s i + 0 ∨ V.obj a s i + V.objsize a ≤ b) : V.zoneSlot a s i m b = m b := by
  simp only [redzoneSizeof] at hmin
  simp (disch := omega) [zoneSlot, redzoneSizeof]

section
variable (hf : V.Fit a) (ho : V.Outside a s)
include hf ho

theorem linkObjs_eq (hsize : read32 m (saObjsize a) = V.objsize a) (hle : i + k < V.nobjs a) :
    linkObjs a k m (V.obj a s i) = (eachSlot (V.linkSlot a s) i k m, V.obj a s (i + k)) := by
  induction k generalizing i m with
  | zero => rfl
  | succ k ih =>
    have hslot := slot_in hf s (show i < V.nobjs a by omega)
    have hrec := ho.apart
    have hsize' : read32 (V.linkSlot a s i m) (saObjsize a) = V.objsize a := by
      rw [← hsize]
      simp (disch := omega) [View.linkSlot]
    have hstep : linkObjs a (k + 1) m (V.obj a s i) = linkObjs a k (V.linkSlot a s i m) (V.obj a s (i + 1)) := by
      rw [saObjsize] at hsize
      simp (disch := omega) [linkObjs, objBufctl, nextObj, hsize, View.linkSlot, V.obj_succ, slabBufctlSizeof,
        if_pos (show i + 1 < V.nobjs a by omega)]
    rw [hstep, ih hsize' (by omega), eachSlot_succ, Nat.add_assoc, Nat.add_comm 1]

theorem setRedzones_eq (hsize : read32 m (saObjsize a) = V.objsize a) (hle : i + k ≤ V.nobjs a) :
    setRedzones a k m (V.obj a s i) = eachSlot (V.zoneSlot a s) i k m := by
  induction k generalizing i m with
  | zero => rfl
  | succ k ih =>
    have hslot := slot_in hf s (show i < V.nobjs a by omega)
    have hrec := ho.apart
    have hmin := hf.size
    have hsize' : read32 (V.zoneSlot a s i m) (saObjsize a) = V.objsize a := by
      rw [← hsize]
      simp (disch := omega) [View.zoneSlot, redzoneSizeof]
    rw [eachSlot_succ, ← ih hsize' (by omega)]
    rw [saObjsize] at hsize
    simp (disch := omega) [setRedzones, nextObj, rearRz, hsize, View.zoneSlot, redzoneSizeof, V.obj_succ,
      slabBufctlSizeof]

end

theorem toInt_of_lt {n : ℕ} (h : n < 2 ^ 31) : toInt n = n := by
  have hmod : n % 2 ^ 32 = n := Nat.mod_eq_of_lt (by omega)
  rw [toInt, hmod, if_pos h]
  omega

/-- The objects linked and the header filled in. -/
def View.linkedMem (V : View) (m : Mem) (a s : ℕ) : Mem :=
  write32 (write32 (write32 (eachSlot (V.linkSlot a s) 0 (V.nobjs a) m) (sFree (V.hdr a s)) s) (sAddr (V.hdr a s)) s)
    (sInuse (V.hdr a s)) 0

/-- The memory before the slab is put on the list. -/
def View.zonedMem (V : View) (m : Mem) (a s : ℕ) : Mem :=
  eachSlot (V.zoneSlot a s) 0 (V.nobjs a) (V.linkedMem m a s)

section
variable (hf : V.Fit a) (ho : V.Outside a s)
  (hsize : read32 m (saObjsize a) = V.objsize a)
include hf ho

theorem View.linkedMem_record {o : ℕ} (hlo : o + 4 ≤ 24) :
    read32 (V.linkedMem m a s) (a + o) = read32 m (a + o) := by
  have hslot := slot_in hf s hf.pos
  have hrec := ho.apart
  refine Eq.trans ?_ (eachSlot_record (V.linkSlot_out a s) le_rfl hf ho (Nat.zero_add _).le hlo)
  simp (disch := omega) [linkedMem]

theorem View.zonedMem_record {o : ℕ} (hlo : o + 4 ≤ 24) :
    read32 (V.zonedMem m a s) (a + o) = read32 m (a + o) :=
  (eachSlot_record (zoneSlot_out hf.size) (Nat.le_add_right _ _) hf ho (Nat.zero_add _).le hlo).trans
    (linkedMem_record hf ho hlo)

include hsize

theorem layOut_eq (hnobjs : read32 m (saSlabNobjs a) = V.nobjs a) (hn : V.nobjs a < 2 ^ 19) :
    layOut a m s = write32 (write32 (V.zonedMem m a s) (V.hdr a s) (read32 m (saSlabs a))) (saSlabs a)
      (V.hdr a s) := by
  obtain ⟨n, hnat⟩ := Nat.exists_eq_succ_of_ne_zero hf.pos.ne'
  have hslot := slot_in hf s (show n < V.nobjs a by omega)
  have hrec := ho.apart
  have hlink := linkObjs_eq hf ho hsize (show 0 + n < V.nobjs a by omega)
  have hsize1 := eachSlot_record (m := m) (V.linkSlot_out a s) le_rfl hf ho (show 0 + n ≤ V.nobjs a by omega)
    (show 8 + 4 ≤ 24 by norm_num)
  have hzones := setRedzones_eq hf ho ((linkedMem_record hf ho (by norm_num)).trans hsize)
    (Nat.zero_add (V.nobjs a)).le
  have hlast : eachSlot (V.linkSlot a s) 0 (V.nobjs a) m = V.linkSlot a s n (eachSlot (V.linkSlot a s) 0 n m) := by
    rw [hnat, eachSlot, List.range'_concat, foldl_append, Nat.one_mul, Nat.zero_add]
    rfl
  have hhdr : V.obj a s n + V.objsize a + 8 = V.hdr a s := by
    rw [← V.obj_succ, View.hdr, View.obj, hnat]
  have hcount : ((V.nobjs a : ℤ) - 1).toNat = n := by omega
  have hslabs := zonedMem_record (m := m) hf ho (show 12 + 4 ≤ 24 by norm_num)
  rw [V.obj_zero, Nat.zero_add] at hlink
  rw [V.obj_zero, ← View.zonedMem] at hzones
  rw [saObjsize] at hsize
  rw [hsize] at hsize1
  -- the object size is read from the record after every store
  have hlinked : layOut a m s = write32 (write32 (setRedzones a (V.nobjs a) (V.linkedMem m a s) s) (V.hdr a s)
      (read32 (setRedzones a (V.nobjs a) (V.linkedMem m a s) s) (saSlabs a))) (saSlabs a) (V.hdr a s) := by
    rw [View.linkedMem, hlast, View.linkSlot, if_neg (by omega)]
    simp (disch := omega) only [layOut, hnobjs, toInt_of_lt (show V.nobjs a < 2 ^ 31 by omega), hcount, sbFree, sNext,
      Int.toNat_natCast, hlink, objBufctl, nextObj, saObjsize, hsize1, read32_write8_of_out, read32_write32_of_out,
      slabBufctlSizeof, hhdr]
  rw [hlinked, hzones, saSlabs, hslabs]

end

/-- A block that has been made into a slab, every object of it free. -/
structure Laid (V : View) (m m' : Mem) (a s : ℕ) : Prop where
  out : ∀ b, ¬ Covers b (V.block a s) → (b < saSlabs a ∨ saSlabs a + 4 ≤ b) → m' b = m b
  head : read32 m' (saSlabs a) = V.hdr a s
  next : read32 m' (V.hdr a s) = read32 m (saSlabs a)
  inuse : read32 m' (sInuse (V.hdr a s)) = 0
  addr : read32 m' (sAddr (V.hdr a s)) = s
  free : read32 m' (sFree (V.hdr a s)) = s
  ctl : ∀ j < V.nobjs a, read32 m' (V.obj a s j + V.objsize a) =
    if j + 1 < V.nobjs a then V.obj a s (j + 1) else 0
  flag : ∀ j < V.nobjs a, m' (sbFree (V.obj a s j + V.objsize a)) = 1
  zones : ∀ j < V.nobjs a, read32 m' (V.obj a s j) = SLAB_REDZONE ∧
    read32 m' (V.obj a s j + V.objsize a - redzoneSizeof) = SLAB_REDZONE

/-- Nodes that each point to the next one form a chain. -/
theorem isChain_consecutive (next node : ℕ → ℕ) {n : ℕ} (hpos : ∀ j < n, node j ≠ 0)
    (hnext : ∀ j < n, next (node j) = if j + 1 < n then node (j + 1) else 0) (k : ℕ) : ∀ i, i + k = n →
      IsChain next (if i < n then node i else 0) ((List.range' i k).map node) := by
  induction k with
  | zero =>
    intro i hi
    rw [if_neg (by omega)]
    rfl
  | succ k ih =>
    intro i hi
    rw [if_pos (by omega), List.range'_succ, map_cons]
    refine ⟨rfl, hpos i (by omega), ?_⟩
    rw [hnext i (by omega)]
    exact ih (i + 1) (by omega)

theorem Laid.rep (h : Laid V m m' a s) (hpos : 0 < V.nobjs a) (hs : 0 < s) :
    SlabRep m' (V.setFree s (List.range (V.nobjs a))) a s := by
  have hfree := V.setFree_same s (List.range (V.nobjs a))
  refine ⟨?_, h.addr, ?_, fun j hj hn => ?_, fun j (hj : j < V.nobjs a) => ?_, h.zones, ?_,
    fun j hj => ?_⟩
  · rw [hfree, length_range]
    exact (congrArg (· + V.nobjs a) h.inuse).trans (Nat.zero_add _)
  · have hhead : read32 m' (sFree (V.hdr a s)) = if 0 < V.nobjs a then V.obj a s 0 else 0 := by
      rw [if_pos hpos, View.obj, Nat.zero_mul, Nat.add_zero]
      exact h.free
    have hchain := isChain_consecutive (fun obj => read32 m' (obj + V.objsize a)) (V.obj a s)
      (fun j _ => by simp only [View.obj]; omega) h.ctl (V.nobjs a) 0 (Nat.zero_add _)
    rw [← hhead, ← range_eq_range'] at hchain
    rw [hfree]
    exact hchain
  · rw [hfree, mem_range] at hn
    exact absurd hj hn
  · rw [hfree, if_pos (mem_range.2 hj)]
    exact h.flag j hj
  · rw [hfree]
    exact nodup_range
  · rw [hfree, mem_range] at hj
    exact hj

theorem layOut_spec (hf : V.Fit a) (ho : V.Outside a s)
    (hbound : s + (V.block a s).2 ≤ 2 ^ 32) (hsize : read32 m (saObjsize a) = V.objsize a)
    (hnobjs : read32 m (saSlabNobjs a) = V.nobjs a) (hn : V.nobjs a < 2 ^ 19) :
    Laid V m (layOut a m s) a s := by
  have hslot : ∀ j < V.nobjs a, _ := fun j => slot_in hf s
  have hrec := ho.apart
  have hmin := hf.size
  have hend := hslot 0 hf.pos
  have hz : SLAB_REDZONE < 2 ^ 32 := by decide
  rw [layOut_eq hf ho hsize hnobjs hn]
  simp only [redzoneSizeof] at hmin
  -- the red zones change the objects only, and the links the buffer controls only
  have hzoned : ∀ b, (∀ j < V.nobjs a, b < V.obj a s j ∨ V.obj a s j + V.objsize a ≤ b) →
      V.zonedMem m a s b = V.linkedMem m a s b := fun b hb =>
    eachSlot_out (zoneSlot_out hf.size) fun j _ hj => hb j (by omega)
  have hhdr : ∀ o, 4 ≤ o → o + 4 ≤ 16 → read32 (V.zonedMem m a s) (V.hdr a s + o) =
      read32 (V.linkedMem m a s) (V.hdr a s + o) := fun o h1 h2 =>
    read32_congr fun b h3 h4 => hzoned b fun j hj => by
      have := hslot j hj
      omega
  have hctl : ∀ j < V.nobjs a, ∃ m0, ∀ b, V.obj a s j + V.objsize a ≤ b → b < V.obj a s j + V.objsize a + 8 →
      V.zonedMem m a s b = V.linkSlot a s j m0 b := by
    intro j hj
    obtain ⟨m0, hm0⟩ := eachSlot_in (m := m) (k := V.nobjs a) (V.linkSlot_out a s) le_rfl (Nat.zero_le j) (by omega)
    refine ⟨m0, fun b h1 h2 => ?_⟩
    have := hslot j hj
    rw [hzoned b fun i _ => by have := V.slots a s i j; omega, ← hm0 b h1 (by omega)]
    simp (disch := omega) [View.linkedMem]
  refine ⟨fun b hb hb' => ?_, ?_, ?_, ?_, ?_, ?_, fun j hj => ?_, fun j hj => ?_, fun j hj => ?_⟩
  · have hout : b < s ∨ s + (V.block a s).2 ≤ b := by
      by_contra hn
      exact hb ⟨show s ≤ b by omega, show b < s + _ by omega⟩
    rw [write32_of_out hb', write32_of_out (by omega), hzoned b fun j hj => by have := hslot j hj; omega]
    simp (disch := omega) only [View.linkedMem, sInuse, sAddr, sFree, write32_of_out]
    exact eachSlot_out (V.linkSlot_out a s) fun j _ hj => by
      have := hslot j (by omega)
      omega
  · simp (disch := omega)
  · simp (disch := omega) [read32_write32 (read32_lt _ _)]
  · simp (disch := omega) [hhdr, View.linkedMem]
  · simp (disch := omega) [hhdr, View.linkedMem]
  · simp (disch := omega) [hhdr, View.linkedMem]
  · obtain ⟨m0, hm0⟩ := hctl j hj
    have := hslot j hj
    simp (disch := omega) only [saSlabs, read32_write32_of_out]
    rw [read32_congr fun b h1 h2 => hm0 b h1 (by omega)]
    refine read32_write32 ?_
    split_ifs with hlt
    · have := hslot (j + 1) hlt
      omega
    · norm_num
  · obtain ⟨m0, hm0⟩ := hctl j hj
    have := hslot j hj
    simp (disch := omega) [hm0, View.linkSlot]
  · obtain ⟨m0, hm0⟩ : ∃ m0, ∀ b, V.obj a s j ≤ b → b < V.obj a s j + V.objsize a →
        V.zonedMem m a s b = V.zoneSlot a s j m0 b :=
      eachSlot_in (zoneSlot_out hf.size) (Nat.le_add_right _ _) (Nat.zero_le j) (by omega)
    have := hslot j hj
    simp (disch := omega) only [redzoneSizeof, saSlabs, read32_write32_of_out]
    rw [read32_congr fun b h1 h2 => hm0 b h1 (by omega), read32_congr fun b h1 h2 => hm0 b (by omega) (by omega)]
    simp (disch := omega) [View.zoneSlot, redzoneSizeof]

/-! ### The view after a slab has been added -/

/-- A block of the size of a slab of `a` that overlaps nothing the allocator uses. -/
structure Unused (saa : ℕ) (V : View) (a s : ℕ) : Prop where
  pos : 0 < s
  bound : s + (V.block a s).2 ≤ 2 ^ 32
  static : Cover.Disjoint (saa, slabAllocatorSizeof) (V.block a s)
  sep : ∀ x ∈ V.allocs, ∀ t ∈ V.slabs x, Cover.Disjoint (V.block x t) (V.block a s)

def View.addSlab (V : View) (a s : ℕ) : View :=
  { V with
    slabs := update V.slabs a (s :: V.slabs a)
    free := update V.free s (List.range (V.nobjs a)) }

theorem View.mem_addSlab {x t : ℕ} : t ∈ (V.addSlab a s).slabs x ↔ (x, t) = (a, s) ∨ t ∈ V.slabs x := by
  by_cases hx : x = a
  · subst hx
    simp [View.addSlab]
  · simp [View.addSlab, hx]

theorem Unused.ne (h : Unused saa V a s) {x t : ℕ} (hx : x ∈ V.allocs) (ht : t ∈ V.slabs x) : t ≠ s := by
  rintro rfl
  exact h.sep x hx t ht t ⟨V.block_covers x t, V.block_covers a t⟩

theorem Unused.placed (h : Unused saa V a s) (hp : Placed saa V) : Placed saa (V.addSlab a s) := by
  refine ⟨hp.fits, hp.static, hp.size, hp.nodup, fun x hx => ?_, fun x hx t ht => ?_,
    fun x hx t ht => ?_, fun x hx t ht x' hx' t' ht' hne => ?_, fun x hx hne => ?_⟩
  · by_cases hxa : x = a
    · subst hxa
      simp only [View.addSlab, update_self]
      exact nodup_cons.2 ⟨fun hs => h.ne hx hs rfl, hp.nodupSlabs x hx⟩
    · simp only [View.addSlab, update_of_ne hxa]
      exact hp.nodupSlabs x hx
  · rcases mem_addSlab.1 ht with he | ht
    · cases he
      exact ⟨h.pos, h.bound⟩
    · exact hp.bound x hx t ht
  · rcases mem_addSlab.1 ht with he | ht
    · cases he
      exact h.static
    · exact hp.apart x hx t ht
  · rcases mem_addSlab.1 ht with he | hold
    · rcases mem_addSlab.1 ht' with he' | hold'
      · exact absurd (he.trans he'.symm) hne
      cases he
      exact (h.sep x' hx' t' hold').symm
    rcases mem_addSlab.1 ht' with he' | hold'
    · cases he'
      exact h.sep x hx t hold
    · exact hp.sep x hx t hold x' hx' t' hold' hne
  · obtain ⟨t, ht, i, hi, hfree, he⟩ := hp.home x hx hne
    refine ⟨t, mem_addSlab.2 (.inr ht), i, hi, ?_, he⟩
    simp only [View.addSlab, update_of_ne (h.ne hp.static.1 ht)]
    exact hfree

/-- No record lies in the unused block. -/
theorem Unused.struct (h : Unused saa V a s) (hp : Placed saa V) {x : ℕ} (hx : x ∈ V.allocs)
    (hb : InStruct x b) : ¬ Covers b (V.block a s) := by
  intro hc
  rcases hp.struct_home hx hb with ⟨-, hsaa⟩ | ⟨t, ht, i, hi, -, -, hu⟩
  · exact h.static b ⟨hsaa, hc⟩
  · exact h.sep saa hp.static.1 t ht b ⟨user_block (hp.fits saa hp.static.1) hi hu, hc⟩

theorem Rep.grow (h : Rep saa m head V) (junk : Mem) (ha : a ∈ V.allocs) (hu : Unused saa V a s) :
    Rep saa (layOut a (fill m junk s (V.block a s).2) s) head (V.addSlab a s) := by
  have hp := h.placed
  have hfill : ∀ b, ¬ Covers b (V.block a s) → fill m junk s (V.block a s).2 b = m b := by
    intro b hb
    refine fill_of_out ?_
    simp only [Covers, View.block] at hb ⊢
    omega
  have h0 : Rep saa (fill m junk s (V.block a s).2) head V := h.congr
    (fun x hx b hb => hfill b (hu.struct hp hx hb))
    (fun x hx t ht b hb => hfill b fun hc => hu.sep x hx t ht b ⟨hb.1, hc⟩)
  have hlaid := layOut_spec (hp.fits a ha) (fun b hb => hu.struct hp ha hb) hu.bound
    (h0.alloc a ha).objsize (h0.alloc a ha).nobjs (h.nobjs_lt ha)
  generalize fill m junk s (V.block a s).2 = m0 at h0 hlaid
  generalize layOut a m0 s = m1 at hlaid ⊢
  have hsa : ∀ b, ¬ InStruct a b → b < saSlabs a ∨ saSlabs a + 4 ≤ b := by
    intro b hb
    simp only [InStruct, saSlabs, slabAllocatorSizeof] at *
    omega
  have hstruct : ∀ x ∈ V.allocs, x ≠ a → ∀ b, InStruct x b → m1 b = m0 b := fun x hx hne b hb =>
    hlaid.out b (hu.struct hp hx hb) (hsa b (hp.struct_disjoint hx ha hne hb))
  have hbook : ∀ x ∈ V.allocs, ∀ t ∈ V.slabs x, ∀ b, V.Book x t b → m1 b = m0 b :=
    fun x hx t ht b hb => hlaid.out b (fun hc => hu.sep x hx t ht b ⟨hb.1, hc⟩)
      (hsa b fun hs => hp.struct_not_book ha hs hx ht hb)
  have hrec : ∀ o, o + 4 ≤ 12 ∨ 16 ≤ o → o + 4 ≤ slabAllocatorSizeof →
      read32 m1 (a + o) = read32 m0 (a + o) := by
    intro o ho hle
    refine read32_congr fun b h1 h2 => hlaid.out b (hu.struct hp ha ⟨by omega, by omega⟩) ?_
    simp only [saSlabs]
    omega
  have hlist : ∀ x ∈ V.allocs, ∀ t ∈ V.slabs x,
      read32 m1 (V.hdr x t) = read32 m0 (V.hdr x t) := fun x hx t ht =>
    read32_hdr (hp.fits x hx) (hbook x hx t ht)
  have hr := h0.alloc a ha
  refine ⟨hu.placed hp, h0.chain.congr fun x hx => ?_, fun x hx => ?_, fun x hx t ht => ?_⟩
  · by_cases hxa : x = a
    · subst hxa
      exact hrec 0 (.inl (by norm_num)) (by decide)
    · exact read32_struct (o := 0) (hstruct x hx hxa) (by decide)
  · by_cases hxa : x = a
    · subst hxa
      refine ⟨(hrec 8 (.inl (by norm_num)) (by decide)).trans hr.objsize,
        (hrec 16 (.inr le_rfl) (by decide)).trans hr.order,
        (hrec 20 (.inr (by norm_num)) (by decide)).trans hr.nobjs, ?_⟩
      simp only [View.addSlab, update_self, map_cons]
      refine ⟨hlaid.head, ?_, ?_⟩
      · have := hu.pos
        simp only [View.hdr]
        omega
      refine (?_ : IsChain _ (read32 m1 (V.hdr x s)) _)
      rw [hlaid.next]
      refine hr.slabs.congr fun y hy => ?_
      obtain ⟨t, ht, rfl⟩ := mem_map.1 hy
      exact hlist x hx t ht
    · have := (h0.alloc x hx).congr (hstruct x hx hxa) (hlist x hx)
      refine ⟨this.objsize, this.order, this.nobjs, ?_⟩
      simp only [View.addSlab, update_of_ne hxa]
      exact this.slabs
  · rcases mem_addSlab.1 ht with he | ht
    · obtain ⟨rfl, rfl⟩ := Prod.mk.inj he
      exact (hlaid.rep (hp.fits x hx).pos hu.pos).transfer rfl rfl rfl
    · exact ((h0.slab x hx t ht).congr (hp.fits x hx) fun b hb _ => hbook x hx t ht b hb).transfer
        rfl rfl (update_of_ne (hu.ne hx ht) _ _)

end Weenix.Slab
