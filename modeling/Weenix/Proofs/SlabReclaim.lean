import Weenix.Proofs.SlabGrow

/-! Giving slabs back. The loops walk the lists of allocators and slabs; a slab without a
used object is unlinked through the pointer that leads to it, and then its block goes
back to the page allocator, whatever that writes there. -/

namespace Weenix.Slab

open Memory Page Cover Function List

variable {saa head : ℕ} {m m' : Mem} {V : View} {a a' s s' i j b : ℕ} {kept rest : List ℕ}

def View.setSlabs (V : View) (a : ℕ) (l : List ℕ) : View :=
  { V with slabs := update V.slabs a l }

/-- The address of the pointer to the first slab behind `kept`. -/
def View.prev (V : View) (a : ℕ) (kept : List ℕ) : ℕ :=
  match kept.getLast? with
  | none => saSlabs a
  | some t => sNext (V.hdr a t)

theorem SlabRep.all_free (h : SlabRep m V a s) (h0 : read32 m (sInuse (V.hdr a s)) = 0)
    (hi : i < V.nobjs a) : i ∈ V.free s := by
  by_contra hn
  have := h.inuse_pos hi hn
  omega

/-- The walk over the slabs of `a` stands at `s`. -/
structure View.At (V : View) (a : ℕ) (kept : List ℕ) (s : ℕ) (rest : List ℕ) : Prop where
  alloc : a ∈ V.allocs
  slabs : V.slabs a = kept ++ s :: rest

section
variable (hat : V.At a kept s rest)
include hat

theorem View.At.mem : s ∈ V.slabs a :=
  hat.slabs ▸ mem_append_right _ mem_cons_self

theorem View.At.nodup (hp : Placed saa V) : (s :: (kept ++ rest)).Nodup :=
  nodup_middle.1 (hat.slabs ▸ hp.nodupSlabs a hat.alloc)

/-- Without `s`, the view has all the other slabs. -/
theorem View.At.mem_setSlabs (hp : Placed saa V) {x t : ℕ} :
    t ∈ (V.setSlabs a (kept ++ rest)).slabs x ↔ t ∈ V.slabs x ∧ (x, t) ≠ (a, s) := by
  by_cases hx : x = a
  · subst hx
    have hs := (hat.nodup hp).notMem
    simp only [View.setSlabs, update_self, hat.slabs, mem_append, mem_cons, ne_eq,
      Prod.mk.injEq, true_and] at hs ⊢
    grind
  · simp [View.setSlabs, hx]

/-- The pointer to `s` is in the record of the allocator or in the header of another slab. -/
theorem View.At.prev (hp : Placed saa V) (hb : V.prev a kept ≤ b ∧ b < V.prev a kept + 4) :
    (kept = [] ∧ InStruct a b ∧ saSlabs a ≤ b ∧ b < saSlabs a + 4) ∨
    ∃ t ∈ V.slabs a, t ≠ s ∧ kept.getLast? = some t ∧ V.Book a t b ∧ V.hdr a t ≤ b ∧ b < V.hdr a t + 4 := by
  cases hk : kept.getLast? with
  | none =>
    simp only [View.prev, hk] at hb
    refine .inl ⟨List.getLast?_eq_none_iff.1 hk, ?_, hb⟩
    simp only [saSlabs, InStruct, slabAllocatorSizeof] at *
    omega
  | some t =>
    simp only [View.prev, hk, sNext] at hb
    have ht := mem_of_getLast? hk
    refine .inr ⟨t, hat.slabs ▸ mem_append_left _ ht, ?_, rfl, ?_, hb⟩
    · rintro rfl
      exact (hat.nodup hp).notMem (mem_append_left _ ht)
    · exact View.book_hdr (hp.fits a hat.alloc) (by simp only [slabSizeof]; omega)

end

theorem Placed.dropSlab (h : Placed saa V) (hat : V.At a kept s rest)
    (hall : ∀ i < V.nobjs a, i ∈ V.free s) : Placed saa (V.setSlabs a (kept ++ rest)) := by
  have hmem := fun {x t} ht => ((hat.mem_setSlabs (x := x) (t := t) h).1 ht).1
  refine ⟨h.fits, h.static, h.size, h.nodup, fun x hx => ?_, fun x hx t ht => ?_,
    fun x hx t ht => ?_, fun x hx t ht x' hx' t' ht' hne => ?_, fun x hx hne => ?_⟩
  · by_cases hxa : x = a
    · subst hxa
      simp only [View.setSlabs, update_self]
      exact (hat.nodup h).of_cons
    · simp only [View.setSlabs, update_of_ne hxa]
      exact h.nodupSlabs x hx
  · exact h.bound x hx t (hmem ht)
  · exact h.apart x hx t (hmem ht)
  · exact h.sep x hx t (hmem ht) x' hx' t' (hmem ht') hne
  · obtain ⟨t, ht, i, hi, hfree, he⟩ := h.home x hx hne
    refine ⟨t, (hat.mem_setSlabs h).2 ⟨ht, fun hts => ?_⟩, i, hi, hfree, he⟩
    cases hts
    exact hfree (hall i hi)

/-- The bytes that unlinking a slab and giving back its block may change. -/
def View.Touched (V : View) (a s : ℕ) (kept : List ℕ) (b : ℕ) : Prop :=
  (V.prev a kept ≤ b ∧ b < V.prev a kept + 4) ∨ Covers b (V.block a s)

section
variable (h : Placed saa V) (hat : V.At a kept s rest)
include h hat

/-- No record lies in a slab without a used object. -/
theorem Placed.struct_not_block (hall : ∀ i < V.nobjs a, i ∈ V.free s) {x : ℕ} (hx : x ∈ V.allocs)
    (hb : InStruct x b) : ¬ Covers b (V.block a s) := by
  intro hblock
  rcases h.struct_home hx hb with ⟨-, hsaa⟩ | ⟨t, ht, i, hi, hfree, -, hu⟩
  · exact h.apart a hat.alloc s hat.mem b ⟨hsaa, hblock⟩
  by_cases hts : (saa, t) = (a, s)
  · cases hts
    exact hfree (hall i hi)
  · exact h.sep saa h.static.1 t ht a hat.alloc s hat.mem hts b
      ⟨View.user_block (h.fits saa h.static.1) hi hu, hblock⟩

/-- They are no bytes of a record but for the pointer at the head of the list, ... -/
theorem Placed.struct_touched (hall : ∀ i < V.nobjs a, i ∈ V.free s) {x : ℕ} (hx : x ∈ V.allocs)
    (hb : InStruct x b) (ht : V.Touched a s kept b) :
    x = a ∧ kept = [] ∧ saSlabs a ≤ b ∧ b < saSlabs a + 4 := by
  rcases ht with hprev | hblock
  · rcases hat.prev h hprev with ⟨hk, hstruct, hin⟩ | ⟨t, ht, -, -, hbook, -⟩
    · refine ⟨?_, hk, hin⟩
      by_contra hne
      exact h.struct_disjoint hx hat.alloc hne hb hstruct
    · exact absurd hbook (h.struct_not_book hx hb hat.alloc ht)
  · exact absurd hblock (h.struct_not_block hat hall hx hb)

/-- ... and none of the bookkeeping of another slab but for its link. -/
theorem Placed.book_touched {x t : ℕ} (hx : x ∈ V.allocs) (ht : t ∈ V.slabs x)
    (hne : (x, t) ≠ (a, s)) (hb : V.Book x t b) (htouch : V.Touched a s kept b) :
    x = a ∧ kept.getLast? = some t ∧ V.hdr a t ≤ b ∧ b < V.hdr a t + 4 := by
  rcases htouch with hprev | hblock
  · rcases hat.prev h hprev with ⟨-, hstruct, -⟩ | ⟨u, hu, -, hk, hbu, hin⟩
    · exact absurd hb (h.struct_not_book hat.alloc hstruct hx ht)
    by_cases htu : (x, t) = (a, u)
    · cases htu
      exact ⟨rfl, hk, hin⟩
    · exact absurd hbu (h.book_disjoint hat.alloc hu hx ht htu hb)
  · exact absurd ⟨hb.1, hblock⟩ (h.sep x hx t ht a hat.alloc s hat.mem hne b)

/-- The pointer to the slab does not lie in the block of the slab. -/
theorem Placed.prev_not_block (hall : ∀ i < V.nobjs a, i ∈ V.free s)
    (hb : V.prev a kept ≤ b ∧ b < V.prev a kept + 4) : ¬ Covers b (V.block a s) := by
  rcases hat.prev h hb with ⟨-, hstruct, -⟩ | ⟨t, ht, hne, -, hbook, -⟩
  · exact h.struct_not_block hat hall hat.alloc hstruct
  exact fun hblock => h.sep a hat.alloc t ht a hat.alloc s hat.mem
    (fun he => hne (Prod.mk.inj he).2) b ⟨hbook.1, hblock⟩

end

theorem View.map_hdr_nodup (V : View) (a : ℕ) {l : List ℕ} (h : l.Nodup) : (l.map (V.hdr a)).Nodup :=
  h.map fun _ _ he => Nat.add_right_cancel he

theorem Rep.unlink (h : Rep saa m head V) (hat : V.At a kept s rest)
    (hempty : read32 m (sInuse (V.hdr a s)) = 0) (hprev : read32 m' (V.prev a kept) = read32 m (V.hdr a s))
    (hout : ∀ b, ¬ V.Touched a s kept b → m' b = m b) : Rep saa m' head (V.setSlabs a (kept ++ rest)) := by
  have hp := h.placed
  have hall : ∀ i < V.nobjs a, i ∈ V.free s := fun i hi =>
    (h.slab a hat.alloc s hat.mem).all_free hempty hi
  have hstruct : ∀ x ∈ V.allocs, ∀ o, x ≠ a ∨ kept ≠ [] ∨ o + 4 ≤ 12 ∨ 16 ≤ o →
      o + 4 ≤ slabAllocatorSizeof → read32 m' (x + o) = read32 m (x + o) := by
    intro x hx o ho hle
    refine read32_congr fun b h1 h2 => hout b fun ht => ?_
    obtain ⟨e1, e2, e3, e4⟩ := hp.struct_touched hat hall hx ⟨by omega, by omega⟩ ht
    subst e1
    simp only [saSlabs, ne_eq, not_true_eq_false, e2, false_or] at ho e3 e4
    omega
  have hnext : ∀ x ∈ V.allocs, ∀ t ∈ V.slabs x, (x, t) ≠ (a, s) →
      x ≠ a ∨ kept.getLast? ≠ some t → read32 m' (V.hdr x t) = read32 m (V.hdr x t) := by
    intro x hx t ht hne hlast
    refine read32_congr fun b h1 h2 => hout b fun htouch => ?_
    have hb : V.Book x t b := View.book_hdr (hp.fits x hx) (by simp only [slabSizeof]; omega)
    obtain ⟨e1, e2, -⟩ := hp.book_touched hat hx ht hne hb htouch
    rcases hlast with h | h
    · exact h e1
    · exact h e2
  refine ⟨hp.dropSlab hat hall, h.chain.congr fun x hx => ?_, fun x hx => ?_,
    fun x hx t ht => ?_⟩
  · exact hstruct x hx 0 (by omega) (by decide)
  · have hr := h.alloc x hx
    refine ⟨(hstruct x hx 8 (by omega) (by decide)).trans hr.objsize,
      (hstruct x hx 16 (by omega) (by decide)).trans hr.order,
      (hstruct x hx 20 (by omega) (by decide)).trans hr.nobjs, ?_⟩
    by_cases hxa : x = a
    · subst hxa
      simp only [View.setSlabs, update_self]
      have hnodup := hp.nodupSlabs x hx
      have hchain := hr.slabs
      rw [hat.slabs] at hchain hnodup
      have hhdrs := V.map_hdr_nodup x hnodup
      rw [map_append, map_cons] at hchain hhdrs
      rw [map_append]
      refine hchain.unlink hhdrs (fun y hy hlast => ?_) ?_ fun y hy => ?_
      · rw [← map_append] at hy
        obtain ⟨t, ht, rfl⟩ := mem_map.1 hy
        obtain ⟨ht', hne⟩ := (hat.mem_setSlabs hp (x := x) (t := t)).1
          (by simpa [View.setSlabs] using ht)
        refine hnext x hx t ht' hne (.inr fun ht => ?_)
        rw [List.getLast?_map, ht] at hlast
        exact hlast rfl
      · cases hk : kept.getLast? with
        | none =>
          obtain rfl := List.getLast?_eq_none_iff.1 hk
          exact hprev
        | some t =>
          have hne : kept ≠ [] := fun he => by simp [he] at hk
          rw [if_neg (by simpa using hne)]
          exact hstruct x hx 12 (.inr (.inl hne)) (by decide)
      · rw [List.getLast?_map, Option.map_eq_some_iff] at hy
        obtain ⟨t, ht, rfl⟩ := hy
        simp only [View.prev, ht] at hprev
        exact hprev
    · simp only [View.setSlabs, update_of_ne hxa]
      rw [saSlabs, hstruct x hx 12 (.inl hxa) (by decide)]
      refine hr.slabs.congr fun y hy => ?_
      obtain ⟨t, ht, rfl⟩ := mem_map.1 hy
      exact hnext x hx t ht (fun he => hxa (Prod.mk.inj he).1) (.inl hxa)
  · obtain ⟨ht', hne⟩ := (hat.mem_setSlabs hp).1 ht
    have : SlabRep m' V x t := (h.slab x hx t ht').congr (hp.fits x hx) fun b hb hb' =>
      hout b fun htouch => by
        obtain ⟨rfl, -, h1, h2⟩ := hp.book_touched hat hx ht' hne hb htouch
        omega
    exact this.transfer rfl rfl rfl

/-! ### The loops -/

/-- The blocks held are those of the slabs. -/
structure Held (pages : List (ℕ × ℕ)) (V : View) : Prop where
  nodup : pages.Nodup
  mem : ∀ b, b ∈ pages ↔ ∃ a ∈ V.allocs, ∃ s ∈ V.slabs a, b = (s, 2 ^ V.order a)

structure Good (saa : ℕ) (st : State) (V : View) : Prop where
  rep : Rep saa st.mem st.slabAllocators V
  held : Held st.pages V

/-- What giving slabs back does to a view: some slabs without a used object are gone. -/
structure Reclaimed (V V' : View) : Prop where
  allocs : V'.allocs = V.allocs
  objsize : V'.objsize = V.objsize
  order : V'.order = V.order
  nobjs : V'.nobjs = V.nobjs
  free : V'.free = V.free
  sub : ∀ a, (V'.slabs a).Sublist (V.slabs a)
  gone : ∀ a ∈ V.allocs, ∀ s ∈ V.slabs a, s ∉ V'.slabs a → ∀ i < V.nobjs a, i ∈ V.free s

theorem Reclaimed.refl (V : View) : Reclaimed V V :=
  ⟨rfl, rfl, rfl, rfl, rfl, fun _ => List.Sublist.refl _, fun _ _ _ hs hn => absurd hs hn⟩

theorem Reclaimed.trans {V1 V2 V3 : View} (h : Reclaimed V1 V2) (h' : Reclaimed V2 V3) : Reclaimed V1 V3 := by
  refine ⟨h'.allocs.trans h.allocs, h'.objsize.trans h.objsize, h'.order.trans h.order,
    h'.nobjs.trans h.nobjs, h'.free.trans h.free, fun a => (h'.sub a).trans (h.sub a),
    fun a ha s hs hn i hi => ?_⟩
  by_cases hs' : s ∈ V2.slabs a
  · have := h'.gone a (h.allocs ▸ ha) s hs' hn i (h.nobjs ▸ hi)
    rwa [h.free] at this
  · exact h.gone a ha s hs hs' i hi

def pageCount (pages : List (ℕ × ℕ)) : ℕ := (pages.map Prod.snd).sum

theorem pageCount_erase {pages : List (ℕ × ℕ)} {p : ℕ × ℕ} (h : p ∈ pages) :
    pageCount pages = p.2 + pageCount (pages.erase p) := by
  have := ((perm_cons_erase h).map Prod.snd).sum_eq
  rwa [map_cons, sum_cons] at this

theorem Held.length_le {pages : List (ℕ × ℕ)} (h : Held pages V) (hp : Placed saa V)
    (ha : a ∈ V.allocs) : (V.slabs a).length ≤ pages.length := by
  have hnodup : ((V.slabs a).map fun s => (s, 2 ^ V.order a)).Nodup :=
    (hp.nodupSlabs a ha).map fun _ _ he => (Prod.mk.inj he).1
  have hsub : ((V.slabs a).map fun s => (s, 2 ^ V.order a)) ⊆ pages := by
    intro b hb
    obtain ⟨s, hs, rfl⟩ := mem_map.1 hb
    exact (h.mem _).2 ⟨a, ha, s, hs, rfl⟩
  have := (hnodup.subperm hsub).length_le
  rwa [length_map] at this

theorem Held.dropSlab {pages : List (ℕ × ℕ)} (h : Held pages V) (hp : Placed saa V) (hat : V.At a kept s rest) :
    Held (pages.erase (s, 2 ^ V.order a)) (V.setSlabs a (kept ++ rest)) := by
  refine ⟨h.nodup.erase _, fun b => ?_⟩
  rw [h.nodup.mem_erase_iff, h.mem]
  constructor
  · rintro ⟨hne, x, hx, t, ht, rfl⟩
    refine ⟨x, hx, t, (hat.mem_setSlabs hp).2 ⟨ht, fun he => hne ?_⟩, rfl⟩
    cases he
    rfl
  · rintro ⟨x, hx, t, ht, rfl⟩
    obtain ⟨ht', hxt⟩ := (hat.mem_setSlabs hp).1 ht
    exact ⟨fun he => hp.slab_ne hat.alloc hat.mem hx ht' hxt (Prod.mk.inj he).1, x, hx, t, ht', rfl⟩

/-- Where a chain through mapped nodes begins. -/
def firstOf (f : ℕ → ℕ) : List ℕ → ℕ
  | [] => 0
  | x :: _ => f x

theorem firstOf_cons (f : ℕ → ℕ) (x : ℕ) (l : List ℕ) : firstOf f (x :: l) = f x := rfl

theorem isChain_first {next f : ℕ → ℕ} {x : ℕ} {l : List ℕ} (h : IsChain next x (l.map f)) :
    x = firstOf f l := by
  cases l with
  | nil => exact h
  | cons y l => exact h.1

/-- Unlinking one slab and giving back its block. -/
theorem Good.drop {st : State} (h : Good saa st V) (junk : Mem) (hat : V.At a kept s rest)
    (hempty : read32 st.mem (sInuse (V.hdr a s)) = 0) :
    let m := write32 st.mem (V.prev a kept) (read32 st.mem (V.hdr a s))
    read32 m (saOrder a) = V.order a ∧ read32 m (sAddr (V.hdr a s)) = s ∧
    ∃ st', pageFreeN { st with mem := m } junk s (1 <<< V.order a) = .ok st' ∧
      Good saa st' (V.setSlabs a (kept ++ rest)) ∧
      pageCount st.pages = 1 <<< V.order a + pageCount st'.pages := by
  intro m
  have hp := h.rep.placed
  have hr := h.rep.slab a hat.alloc s hat.mem
  have hall : ∀ i < V.nobjs a, i ∈ V.free s := fun i hi => hr.all_free hempty hi
  have hheld : (s, 2 ^ V.order a) ∈ st.pages := (h.held.mem _).2 ⟨a, hat.alloc, s, hat.mem, rfl⟩
  have hm : ∀ b, (b < V.prev a kept ∨ V.prev a kept + 4 ≤ b) → m b = st.mem b := fun b hb =>
    write32_of_out hb
  refine ⟨?_, ?_, ⟨fill m junk s (V.block a s).2, st.slabAllocators,
    st.pages.erase (s, 2 ^ V.order a)⟩, ?_, ⟨?_, h.held.dropSlab hp hat⟩, ?_⟩
  · refine (read32_congr fun b h1 h2 => hm b ?_).trans (h.rep.alloc a hat.alloc).order
    by_contra hn
    obtain ⟨-, -, h3, h4⟩ := hp.struct_touched hat hall hat.alloc (b := b)
      ⟨by simp only [saOrder] at h1; omega, by simp only [saOrder, slabAllocatorSizeof] at *; omega⟩
      (.inl (by omega))
    simp only [saOrder, saSlabs] at *
    omega
  · refine (read32_congr fun b h1 h2 => hm b ?_).trans hr.addr
    by_contra hn
    refine hp.prev_not_block hat hall (b := b) (by omega) (View.book_hdr (hp.fits a hat.alloc) ?_).1
    simp only [sAddr, slabSizeof] at *
    omega
  · rw [pageFreeN, Nat.one_shiftLeft, if_pos hheld]
    rfl
  · refine h.rep.unlink hat hempty ?_ fun b hb => ?_
    · refine (read32_congr fun b h1 h2 => fill_of_out ?_).trans (read32_write32 (read32_lt _ _))
      have := hp.prev_not_block hat hall ⟨h1, h2⟩
      simp only [Covers, View.block] at this ⊢
      omega
    · rw [View.Touched, not_or] at hb
      simp only [Covers, View.block] at hb
      exact (fill_of_out (by simp only [View.block]; omega)).trans (hm b (by omega))
  · rw [Nat.one_shiftLeft]
    exact pageCount_erase hheld

theorem reclaimed_setSlabs (hp : Placed saa V) (hat : V.At a kept s rest)
    (hall : ∀ i < V.nobjs a, i ∈ V.free s) : Reclaimed V (V.setSlabs a (kept ++ rest)) := by
  refine ⟨rfl, rfl, rfl, rfl, rfl, fun x => ?_, fun x hx t ht hn => ?_⟩
  · by_cases hx : x = a
    · subst hx
      simp only [View.setSlabs, update_self, hat.slabs]
      exact List.Sublist.append_left (sublist_cons_self _ _) _
    · simp only [View.setSlabs, update_of_ne hx]
      exact List.Sublist.refl _
  · by_cases he : (x, t) = (a, s)
    · cases he
      exact hall
    · exact absurd ((hat.mem_setSlabs hp).2 ⟨ht, he⟩) hn

/-- The inner loop, by induction on the slabs still to be visited; `kept` are those it has
passed and left. -/
theorem reclaimSlabs_spec {st : State} (h : Good saa st V) (junk : Mem) (target : ℤ)
    (ha : a ∈ V.allocs) (kept rest : List ℕ) {fuel : ℕ} (freed : ℕ) (hslabs : V.slabs a = kept ++ rest)
    (hfuel : rest.length < fuel) :
    ∃ met n st' V', reclaimSlabs junk target a fuel (V.prev a kept) (firstOf (V.hdr a) rest)
        freed st = .ok (met, freed + n, st') ∧
      Good saa st' V' ∧ Reclaimed V V' ∧ pageCount st.pages = n + pageCount st'.pages := by
  induction rest generalizing kept V st fuel freed with
  | nil =>
    obtain _ | fuel := fuel
    · omega
    exact ⟨false, 0, st, V, by simp [reclaimSlabs, firstOf], h, Reclaimed.refl V, (Nat.zero_add _).symm⟩
  | cons s rest ih =>
    obtain _ | fuel := fuel
    · omega
    rw [length_cons, Nat.add_lt_add_iff_right] at hfuel
    have hat : V.At a kept s rest := ⟨ha, hslabs⟩
    have hchain := (h.rep.alloc a ha).slabs
    rw [hslabs, map_append, map_cons] at hchain
    have hnext : read32 st.mem (V.hdr a s) = firstOf (V.hdr a) rest := isChain_first hchain.drop
    have hne : V.hdr a s ≠ 0 := hchain.ne_zero (mem_append_right _ mem_cons_self)
    simp only [reclaimSlabs, firstOf_cons, if_neg hne, sNext, hnext]
    by_cases hempty : read32 st.mem (sInuse (V.hdr a s)) = 0
    · obtain ⟨h1, h2, st1, h3, hgood, hcount⟩ := h.drop junk hat hempty
      have hrec := reclaimed_setSlabs h.rep.placed hat fun i hi =>
        (h.rep.slab a ha s hat.mem).all_free hempty hi
      rw [hnext] at h1 h2 h3
      simp only [if_pos hempty, h1, h2, h3, bind, Except.bind]
      by_cases htarget : 0 < target ∧ target ≤ (freed + 1 <<< V.order a : ℕ)
      · refine ⟨true, 1 <<< V.order a, st1, _, ?_, hgood, hrec, hcount⟩
        simp only [if_pos htarget, pure, Except.pure]
      obtain ⟨met, n, st', V', h4, h5, h6, h7⟩ := ih hgood ha kept (freed + 1 <<< V.order a)
        (by simp [View.setSlabs]) hfuel
      refine ⟨met, 1 <<< V.order a + n, st', V', ?_, h5, hrec.trans h6, by omega⟩
      rw [if_neg htarget, ← Nat.add_assoc]
      exact h4
    · simp only [if_neg hempty]
      by_cases htarget : 0 < target ∧ target ≤ freed
      · exact ⟨true, 0, st, V, if_pos htarget, h, Reclaimed.refl V, (Nat.zero_add _).symm⟩
      obtain ⟨met, n, st', V', h4, h5⟩ := ih h ha (kept ++ [s]) freed
        (by rw [hslabs, append_assoc]; rfl) hfuel
      refine ⟨met, n, st', V', ?_, h5⟩
      have hprev : V.prev a (kept ++ [s]) = V.hdr a s := by simp [View.prev, sNext]
      rw [if_neg htarget, ← hprev]
      exact h4

theorem reclaimAllocators_spec {st : State} (h : Good saa st V) (junk : Mem) (target : ℤ)
    (done todo : List ℕ) {fuel : ℕ} (freed : ℕ) (hallocs : V.allocs = done ++ todo)
    (hfuel : todo.length < fuel) :
    ∃ n st' V', reclaimAllocators junk target fuel (firstOf id todo) freed st =
        .ok (freed + n, st') ∧
      Good saa st' V' ∧ Reclaimed V V' ∧ pageCount st.pages = n + pageCount st'.pages := by
  induction todo generalizing done V st fuel freed with
  | nil =>
    obtain _ | fuel := fuel
    · omega
    exact ⟨0, st, V, by simp [reclaimAllocators, firstOf], h, Reclaimed.refl V, (Nat.zero_add _).symm⟩
  | cons a todo ih =>
    obtain _ | fuel := fuel
    · omega
    rw [length_cons, Nat.add_lt_add_iff_right] at hfuel
    have ha : a ∈ V.allocs := hallocs ▸ mem_append_right _ mem_cons_self
    have hne : a ≠ 0 := h.rep.chain.ne_zero ha
    obtain ⟨met, n, st1, V1, h1, hgood, hrec, hcount⟩ := reclaimSlabs_spec h junk target ha [] _ freed
      rfl (Nat.lt_succ_of_le (h.held.length_le h.rep.placed ha))
    have hprev : V.prev a [] = saSlabs a := rfl
    rw [hprev, ← isChain_first (h.rep.alloc a ha).slabs] at h1
    simp only [reclaimAllocators, firstOf_cons, id, if_neg hne, h1, bind, Except.bind]
    cases met with
    | true => exact ⟨n, st1, V1, rfl, hgood, hrec, hcount⟩
    | false =>
      have hchain := hgood.rep.chain
      rw [hrec.allocs, hallocs] at hchain
      have hnext : read32 st1.mem (saNext a) = firstOf id todo :=
        isChain_first (by rw [map_id]; exact hchain.drop)
      obtain ⟨n', st', V', h4, h5, h6, h7⟩ := ih hgood (done ++ [a]) (freed + n)
        (by rw [hrec.allocs, hallocs, append_assoc]; rfl) hfuel
      refine ⟨n + n', st', V', ?_, h5, hrec.trans h6, by omega⟩
      simp only [Bool.false_eq_true, if_false, hnext]
      rw [← Nat.add_assoc]
      exact h4

theorem slabAllocatorsReclaim_spec {st : State} {n : ℕ} (h : Good saa st V) (junk : Mem)
    (target : ℤ) (hn : V.allocs.length ≤ n) :
    ∃ freed st' V', slabAllocatorsReclaim n junk target st = .ok (freed, st') ∧
      Good saa st' V' ∧ Reclaimed V V' ∧ pageCount st.pages = freed + pageCount st'.pages := by
  obtain ⟨freed, st', V', h1, h2⟩ := reclaimAllocators_spec h junk target [] V.allocs 0 rfl
    (Nat.lt_succ_of_le hn)
  have hhead : st.slabAllocators = firstOf id V.allocs :=
    isChain_first (by rw [map_id]; exact h.rep.chain)
  rw [Nat.zero_add, ← hhead] at h1
  exact ⟨freed, st', V', h1, h2⟩

end Weenix.Slab
