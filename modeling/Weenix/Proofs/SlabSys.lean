import Weenix.Lib.Run
import Weenix.Proofs.SlabInit

/-! Runs of the slab allocator. Between the calls the rest of the kernel may store to the
objects it holds and to all memory that is not the allocator's, the page allocator may
hand out any block apart from those held, and the objects handed out are just the used
objects of the view that memory shows. -/

namespace Weenix.Slab

open Memory Page Cover Runs List View

/-- The block handed out for a slab of `a` is apart from the blocks held and from the
static record. -/
structure PageOk (saa : ℕ) (st : State) (a addr : ℕ) : Prop where
  pos : 0 < addr
  bound : addr + 2 ^ read32 st.mem (saOrder a) * PAGE_SIZE ≤ 2 ^ 32
  static : Cover.Disjoint (saa, slabAllocatorSizeof)
    (addr, 2 ^ read32 st.mem (saOrder a) * PAGE_SIZE)
  held : ∀ b ∈ st.pages, Cover.Disjoint (b.1, b.2 * PAGE_SIZE)
    (addr, 2 ^ read32 st.mem (saOrder a) * PAGE_SIZE)

/-- The byte lies in a live object of a created allocator. -/
def Sys.Client (s : Sys) (b : ℕ) : Prop :=
  ∃ a size p, (a, size) ∈ s.allocs ∧ (a, p) ∈ s.live ∧ p ≤ b ∧ b < p + size

def Sys.Guarded (saa : ℕ) (s : Sys) (b : ℕ) : Prop :=
  Covers b (saa, slabAllocatorSizeof) ∨ ∃ p ∈ s.st.pages, Covers b (p.1, p.2 * PAGE_SIZE)

def Allowed (saa : ℕ) (s : Sys) : Op → Prop
  | .create _ size page _ => Creatable size ∧ ∀ addr, page = some addr → PageOk saa s.st saa addr
  | .alloc a page _ => a ∈ s.allocs.map Prod.fst ∧ ∀ addr, page = some addr → PageOk saa s.st a addr
  | .free a obj => a ∈ s.allocs.map Prod.fst ∧ (a, obj) ∈ s.live
  | .reclaim _ _ => True
  | .store mem => ∀ b, s.Guarded saa b → ¬ s.Client b → mem b = s.st.mem b

def AllowedStep (saa : ℕ) (s : Sys) (op : Op) (s' : Sys) : Prop :=
  Allowed saa s op ∧ step saa s op = .ok s'

structure SysInv (saa : ℕ) (s : Sys) (V : View) : Prop where
  good : Good saa s.st V
  allocs : V.allocs = s.allocs.map Prod.fst ++ [saa]
  sizes : ∀ c ∈ s.allocs, V.objsize c.1 = c.2 + 2 * redzoneSizeof
  nodup : s.live.Nodup
  live : ∀ a p, (a, p) ∈ s.live ↔ Used V a p

variable {saa : ℕ} {s s' : Sys} {V V' : View} {a p b : ℕ}

namespace SysInv

theorem length_le (h : SysInv saa s V) : V.allocs.length ≤ s.allocs.length + 1 := by
  rw [h.allocs, length_append, length_map, length_singleton]

theorem mem_allocs (h : SysInv saa s V) (ha : a ∈ s.allocs.map Prod.fst) : a ∈ V.allocs := by
  rw [h.allocs]
  exact mem_append_left _ ha

theorem ne_static (h : SysInv saa s V) (ha : a ∈ s.allocs.map Prod.fst) : a ≠ saa := by
  have hnodup := h.good.rep.placed.nodup
  rw [h.allocs, nodup_append] at hnodup
  exact hnodup.2.2 a ha saa (mem_singleton_self _)

theorem unused (h : SysInv saa s V) (ha : a ∈ V.allocs) {addr : ℕ} (hok : PageOk saa s.st a addr) :
    Unused saa V a addr := by
  have horder := (h.good.rep.alloc a ha).order
  refine ⟨hok.pos, ?_, ?_, fun x hx t ht => ?_⟩
  · rw [View.block, ← horder]
    exact hok.bound
  · rw [View.block, ← horder]
    exact hok.static
  have := hok.held (t, 2 ^ V.order x) ((h.good.held.mem _).2 ⟨x, hx, t, ht, rfl⟩)
  rw [horder] at this
  exact this

/-! ### One call -/

section
variable (h : SysInv saa s V)
include h

theorem take {st' : State} (hgood : Good saa st' V') (hsame : SameAllocs V V')
    (hfresh : ¬ Used V a p) (hpos : p ≠ 0) (hused : ∀ x q, Used V' x q ↔ (x, q) = (a, p) ∨ Used V x q) :
    SysInv saa (s.handOut a p st') V' := by
  rw [Sys.handOut, if_neg hpos]
  refine ⟨hgood, hsame.allocs.trans h.allocs, fun c hc => ?_, ?_, fun x q => ?_⟩
  · rw [hsame.objsize]
    exact h.sizes c hc
  · exact nodup_cons.2 ⟨fun hm => hfresh ((h.live a p).1 hm), h.nodup⟩
  · rw [mem_cons, hused, h.live]

theorem keep {st' : State} (hgood : Good saa st' V') (hkept : Kept V V') :
    SysInv saa { s with st := st' } V' := by
  refine ⟨hgood, hkept.same.allocs.trans h.allocs, fun c hc => ?_, h.nodup, fun x q => ?_⟩
  · rw [hkept.same.objsize]
    exact h.sizes c hc
  · rw [hkept.used, h.live]

theorem create (name : ℕ) {size : ℕ} {page : Option ℕ} (junk : Mem)
    (hsize : Creatable size) (hpage : ∀ addr, page = some addr → PageOk saa s.st saa addr) :
    ∃ s' V', step saa s (.create name size page junk) = .ok s' ∧ SysInv saa s' V' ∧ V.Grown V' page ∧
      (page ≠ none → ∃ p, s'.allocs = (p, size) :: s.allocs ∧ s'.live = (saa, p) :: s.live) := by
  obtain ⟨p, st', V', h1, hgood, hgrown, hcase⟩ := slabAllocatorCreate_spec name junk h.good h.length_le
    hsize fun addr he => h.unused h.good.rep.placed.static.1 (hpage addr he)
  rcases hcase with ⟨rfl, hnone, hkept⟩ | hmade
  · refine ⟨{ s with st := st' }, V', ?_, h.keep hgood hkept, hgrown, fun hpage => absurd hnone hpage⟩
    simp only [step, h1, bind, Except.bind, if_true, pure, Except.pure]
  refine ⟨{ (s.handOut saa p st') with allocs := (p, size) :: s.allocs }, V', ?_, ?_, hgrown,
    fun _ => ⟨p, rfl, by rw [Sys.handOut, if_neg hmade.pos]⟩⟩
  · simp only [step, h1, bind, Except.bind, if_neg hmade.pos, pure, Except.pure]
  rw [Sys.handOut, if_neg hmade.pos]
  refine ⟨hgood, ?_, fun c hc => ?_, ?_, fun x q => ?_⟩
  · rw [hmade.allocs, h.allocs]
    rfl
  · rcases mem_cons.1 hc with rfl | hc
    · exact hmade.objsize
    rw [hmade.other c.1 (h.mem_allocs (mem_map_of_mem hc))]
    exact h.sizes c hc
  · exact nodup_cons.2 ⟨fun hm => hmade.fresh ((h.live saa p).1 hm), h.nodup⟩
  · rw [mem_cons, hmade.used, h.live]

theorem alloc {page : Option ℕ} (junk : Mem)
    (ha : a ∈ s.allocs.map Prod.fst) (hpage : ∀ addr, page = some addr → PageOk saa s.st a addr) :
    ∃ s' V', step saa s (.alloc a page junk) = .ok s' ∧ SysInv saa s' V' ∧ V.Grown V' page ∧ s'.allocs = s.allocs ∧
      (page ≠ none → ∃ p, s'.live = (a, p) :: s.live) := by
  have hav := h.mem_allocs ha
  obtain ⟨p, st', V', h1, hgood, hgrown, hcase⟩ := slabObjAlloc_spec junk h.good hav h.length_le
    fun addr he => h.unused hav (hpage addr he)
  refine ⟨s.handOut a p st', V', by simp only [step, h1, bind, Except.bind, pure, Except.pure], ?_⟩
  rcases hcase with ⟨rfl, hnone, hkept⟩ | htook
  · exact ⟨h.keep hgood hkept, hgrown, rfl, fun hpage => absurd hnone hpage⟩
  · refine ⟨h.take hgood htook.same htook.fresh htook.pos htook.used, hgrown, ?_⟩
    rw [Sys.handOut, if_neg htook.pos]
    exact ⟨rfl, fun _ => ⟨p, rfl⟩⟩

theorem free (ha : a ∈ s.allocs.map Prod.fst) (hp : (a, p) ∈ s.live) :
    ∃ s' V', step saa s (.free a p) = .ok s' ∧ SysInv saa s' V' ∧ s'.allocs = s.allocs ∧
      s'.live = s.live.erase (a, p) := by
  obtain ⟨hav, t, ht, i, hi, hfree, rfl⟩ := (h.live a p).1 hp
  obtain ⟨h1, hrep⟩ := slabObjFree_spec h.good.rep hav ht hi hfree (h.ne_static ha)
  refine ⟨{ s with
      st := { s.st with mem := freeMem V s.st.mem a t i }
      live := s.live.erase (a, V.obj a t i + redzoneSizeof) }, V.setFree t (i :: V.free t), ?_, ?_, rfl, rfl⟩
  · simp only [step, h1, bind, Except.bind, pure, Except.pure]
  refine ⟨⟨hrep, h.good.held.nodup, h.good.held.mem⟩, h.allocs, h.sizes, h.nodup.erase _,
    fun x q => ?_⟩
  rw [h.nodup.mem_erase_iff, used_free hrep.placed hav ht hi hfree, h.live]

theorem reclaim (target : ℤ) (junk : Mem) :
    ∃ st' V', step saa s (.reclaim target junk) = .ok { s with st := st' } ∧
      SysInv saa { s with st := st' } V' := by
  obtain ⟨freed, st', V', h1, hgood, hrec, -⟩ :=
    slabAllocatorsReclaim_spec h.good junk target h.length_le
  refine ⟨st', V', ?_, h.keep hgood ⟨hrec.same, used_reclaimed hrec⟩⟩
  simp only [step, h1, bind, Except.bind, pure, Except.pure]

/-- What a client holds lies between the red zones of an object of a created allocator. -/
theorem client (hb : s.Client b) :
    ∃ x ∈ V.allocs, x ≠ saa ∧ ∃ t ∈ V.slabs x, ∃ i < V.nobjs x, V.User x t i b := by
  obtain ⟨x, size, p, hx, hp, hle, hlt⟩ := hb
  obtain ⟨hxv, t, ht, i, hi, -, rfl⟩ := (h.live x p).1 hp
  have hsize := h.sizes _ hx
  refine ⟨x, hxv, h.ne_static (mem_map_of_mem hx), t, ht, i, hi, hle, ?_⟩
  simp only [redzoneSizeof] at hsize hlt ⊢
  omega

theorem store {mem : Mem} (hmem : ∀ b, s.Guarded saa b → ¬ s.Client b → mem b = s.st.mem b) :
    SysInv saa { s with st := { s.st with mem := mem } } V := by
  have hpl := h.good.rep.placed
  have hblock : ∀ x ∈ V.allocs, ∀ t ∈ V.slabs x, ∀ b, Covers b (V.block x t) → s.Guarded saa b :=
    fun x hx t ht b hb => .inr ⟨(t, 2 ^ V.order x), (h.good.held.mem _).2 ⟨x, hx, t, ht, rfl⟩, hb⟩
  refine ⟨⟨h.good.rep.congr (fun x hx b hb => ?_) fun x hx t ht b hb => ?_, h.good.held⟩,
    h.allocs, h.sizes, h.nodup, h.live⟩
  · rcases hpl.struct_home hx hb with ⟨-, hstatic⟩ | ⟨t, ht, i, hi, -, -, hu⟩
    · refine hmem b (.inl hstatic) fun hc => ?_
      obtain ⟨y, hy, -, t, ht, i, hi, hu⟩ := h.client hc
      exact hpl.apart y hy t ht b ⟨hstatic, user_block (hpl.fits y hy) hi hu⟩
    have hsaa := hpl.static.1
    have hcov := user_block (hpl.fits saa hsaa) hi hu
    refine hmem b (hblock saa hsaa t ht b hcov) fun hc => ?_
    obtain ⟨y, hy, hne, t', ht', j, hj, hu'⟩ := h.client hc
    exact hpl.sep y hy t' ht' saa hsaa t ht (fun he => hne (Prod.mk.inj he).1) b
      ⟨user_block (hpl.fits y hy) hj hu', hcov⟩
  · refine hmem b (hblock x hx t ht b hb.1) fun hc => ?_
    obtain ⟨y, hy, -, t', ht', j, hj, hu⟩ := h.client hc
    by_cases he : (y, t') = (x, t)
    · cases he
      exact hb.2 j hj hu
    · exact hpl.sep y hy t' ht' x hx t ht he b ⟨user_block (hpl.fits y hy) hj hu, hb.1⟩

theorem next {op : Op} (hop : Allowed saa s op) : ∃ s' V', step saa s op = .ok s' ∧ SysInv saa s' V' := by
  cases op with
  | create name size page junk =>
    obtain ⟨s', V', h1, h2, -⟩ := h.create name junk hop.1 hop.2
    exact ⟨s', V', h1, h2⟩
  | alloc a page junk =>
    obtain ⟨s', V', h1, h2, -⟩ := h.alloc junk hop.1 hop.2
    exact ⟨s', V', h1, h2⟩
  | free a obj =>
    obtain ⟨s', V', h1, h2, -⟩ := h.free hop.1 hop.2
    exact ⟨s', V', h1, h2⟩
  | reclaim target junk =>
    obtain ⟨st', V', h1, h2⟩ := h.reclaim target junk
    exact ⟨{ s with st := st' }, V', h1, h2⟩
  | store mem => exact ⟨_, V, rfl, h.store hop⟩

end

end SysInv

/-! ### The first state -/

theorem creatable_static : Creatable slabAllocatorSizeof :=
  ⟨by decide, (0, 102), by decide +kernel⟩

/-- `slab_init` leaves one allocator, for allocators. -/
theorem boot_spec (hsaa : 0 < saa) (hend : saa + slabAllocatorSizeof ≤ 2 ^ 32) (mem : Mem)
    (name : ℕ) : ∃ st V, boot saa mem name = .ok ⟨st, [], []⟩ ∧ (∀ x, V.slabs x = []) ∧
      SysInv saa ⟨st, [], []⟩ V := by
  obtain ⟨st, k, n, hok, hf, hinit⟩ := allocatorInit_spec ⟨mem, 0, []⟩ saa name creatable_static
    (Nat.two_pow_pos 32)
  refine ⟨st, ⟨[saa], fun _ => slabAllocatorSizeof + 2 * redzoneSizeof, fun _ => k,
    fun _ => n, fun _ => [], fun _ => []⟩, ?_, fun _ => rfl, ?_⟩
  · simp only [boot, hok, bind, Except.bind, pure, Except.pure]
  have hpages : st.pages = [] := hinit.pages
  refine ⟨⟨⟨⟨fun _ _ => hf, ⟨mem_singleton_self _, hsaa, hend⟩, rfl,
    nodup_singleton _, fun _ _ => nodup_nil, fun _ _ _ ht => (nomatch ht),
    fun _ _ _ ht => (nomatch ht), fun _ _ _ ht => (nomatch ht), ?_⟩, ?_, ?_, fun _ _ _ ht => (nomatch ht)⟩, ?_⟩, rfl,
    fun _ hc => (nomatch hc), nodup_nil, ?_⟩
  · exact fun x hx hne => absurd (mem_singleton.1 hx) hne
  · exact ⟨hinit.head, Nat.pos_iff_ne_zero.1 hsaa, hinit.next⟩
  · intro x hx
    obtain rfl := mem_singleton.1 hx
    exact ⟨hinit.objsize, hinit.order, hinit.nobjs, hinit.slabs⟩
  · refine ⟨hpages ▸ nodup_nil, fun b => ?_⟩
    rw [hpages]
    simp
  · intro x q
    simp [Used]

theorem sysInv_run {s0 : Sys} {ops : List Op} (h0 : SysInv saa s0 V)
    (hrun : Run (AllowedStep saa) s0 ops s) : ∃ V, SysInv saa s V := by
  refine Run.invariant (I := fun s => ∃ V, SysInv saa s V) ⟨V, h0⟩ ?_ hrun
  rintro s op s' ⟨V, h⟩ ⟨hop, hs⟩
  obtain ⟨s'', V', h1, h2⟩ := h.next hop
  obtain rfl := Except.ok.inj (h1.symm.trans hs)
  exact ⟨V', h2⟩

/-! ### What holds in every state reached -/

def View.span (V : View) (x : ℕ × ℕ) : ℕ × ℕ := (x.2 - redzoneSizeof, V.objsize x.1)

def View.bufctl (V : View) (a t i : ℕ) : ℕ × ℕ := (V.obj a t i + V.objsize a, slabBufctlSizeof)

/-- Memory shows the view, and the live objects are where they belong. -/
structure Sound (saa : ℕ) (s : Sys) (V : View) : Prop where
  shown : Good saa s.st V
  sizes : ∀ c ∈ s.allocs, c.1 ∈ V.allocs ∧ V.objsize c.1 = c.2 + 2 * redzoneSizeof
  disjoint : s.live.Pairwise fun x y => Cover.Disjoint (V.span x) (V.span y)
  home : ∀ a p, (a, p) ∈ s.live →
    a ∈ V.allocs ∧ ∃ t ∈ V.slabs a, ∃ i < V.nobjs a, p = V.obj a t i + redzoneSizeof
  clear : ∀ x ∈ s.live, ∀ a ∈ V.allocs, ∀ t ∈ V.slabs a,
    (∀ i < V.nobjs a, Cover.Disjoint (V.span x) (V.bufctl a t i)) ∧
    Cover.Disjoint (V.span x) (V.hdr a t, slabSizeof)
  inuse : ∀ a ∈ V.allocs, ∀ t ∈ V.slabs a,
    read32 s.st.mem (sInuse (V.hdr a t)) + (V.free t).length = V.nobjs a
  free : ∀ a ∈ V.allocs, ∀ t ∈ V.slabs a, (V.free t).Nodup ∧
    ∀ i ∈ V.free t, i < V.nobjs a ∧ (a, V.obj a t i + redzoneSizeof) ∉ s.live

/-- `slab_allocators_reclaim` returns the number of pages given back. The slabs it
unlinks are just those whose block it has given back, and none has a live object. -/
def ReclaimSound (saa : ℕ) (s : Sys) (V : View) (target : ℤ) (junk : Mem) : Prop :=
  ∃ freed st' V', slabAllocatorsReclaim (s.allocs.length + 1) junk target s.st = .ok (freed, st') ∧
    Good saa st' V' ∧ V'.allocs = V.allocs ∧ V'.free = V.free ∧
    pageCount s.st.pages = freed + pageCount st'.pages ∧
    ∀ a ∈ V.allocs, (V'.slabs a).Sublist (V.slabs a) ∧ ∀ t ∈ V.slabs a,
      (t ∉ V'.slabs a ↔ (t, 2 ^ V.order a) ∈ s.st.pages ∧ (t, 2 ^ V.order a) ∉ st'.pages) ∧
      (t ∉ V'.slabs a → ∀ i < V.nobjs a, (a, V.obj a t i + redzoneSizeof) ∉ s.live)

section
variable {t i a' t' : ℕ} (h : Placed saa V) (ha : a ∈ V.allocs) (ht : t ∈ V.slabs a) (hi : i < V.nobjs a)
  (ha' : a' ∈ V.allocs) (ht' : t' ∈ V.slabs a')
include h ha ht hi ha' ht'

/-- The slot of an object, bufctl included, meets neither another slot nor a header. -/
theorem Placed.slot_disjoint {j : ℕ} (hj : j < V.nobjs a') (hne : (a, t, i) ≠ (a', t', j)) :
    Cover.Disjoint (V.obj a t i, V.objsize a + 8) (V.obj a' t' j, V.objsize a' + 8) := by
  rintro b ⟨⟨h1, h2⟩, h3, h4⟩
  by_cases he : (a, t) = (a', t')
  · cases he
    have hij : i ≠ j := fun hij => hne (by rw [hij])
    rcases V.slots a t i j with hs | hs | hs
    · exact hij hs.1
    · omega
    · omega
  · exact h.sep a ha t ht a' ha' t' ht' he b
      ⟨slot_covers (h.fits a ha) hi ⟨h1, by omega⟩,
        slot_covers (h.fits a' ha') hj ⟨h3, by omega⟩⟩

theorem Placed.slot_header : Cover.Disjoint (V.obj a t i, V.objsize a + 8) (V.hdr a' t', slabSizeof) := by
  rintro b ⟨⟨h1, h2⟩, h3, h4⟩
  by_cases he : (a, t) = (a', t')
  · cases he
    have := V.slot_hdr a t hi
    omega
  have hend := hdr_end (h.fits a' ha') t'
  refine h.sep a ha t ht a' ha' t' ht' he b
    ⟨slot_covers (h.fits a ha) hi ⟨h1, by omega⟩, ?_, ?_⟩
  · exact (Nat.le_add_right t' _).trans h3
  · exact lt_of_lt_of_le h4 hend

end

theorem SysInv.sound (h : SysInv saa s V) : Sound saa s V := by
  have hpl := h.good.rep.placed
  refine ⟨h.good, fun c hc => ⟨h.mem_allocs (mem_map_of_mem hc), h.sizes c hc⟩, ?_, ?_, ?_,
    fun a ha t ht => (h.good.rep.slab a ha t ht).inuse, fun a ha t ht => ?_⟩
  · refine h.nodup.pairwise_of_forall_ne fun x hx y hy hne => ?_
    obtain ⟨a, p⟩ := x
    obtain ⟨a', p'⟩ := y
    obtain ⟨ha, t, ht, i, hi, -, rfl⟩ := (h.live a p).1 hx
    obtain ⟨ha', t', ht', j, hj, -, rfl⟩ := (h.live a' p').1 hy
    rintro b ⟨hb, hb'⟩
    refine hpl.slot_disjoint ha ht hi ha' ht' hj ?_ b ⟨⟨hb.1, ?_⟩, hb'.1, ?_⟩
    · intro he
      obtain ⟨rfl, rfl, rfl⟩ : a = a' ∧ t = t' ∧ i = j := by simpa using he
      exact hne rfl
    · exact Nat.lt_add_right 8 hb.2
    · exact Nat.lt_add_right 8 hb'.2
  · intro a p hp
    obtain ⟨ha, t, ht, i, hi, -, he⟩ := (h.live a p).1 hp
    exact ⟨ha, t, ht, i, hi, he⟩
  · rintro ⟨a, p⟩ hx a' ha' t' ht'
    obtain ⟨ha, t, ht, i, hi, -, rfl⟩ := (h.live a p).1 hx
    refine ⟨fun j hj => ?_, ?_⟩
    · by_cases he : (a, t, i) = (a', t', j)
      · obtain ⟨rfl, rfl, rfl⟩ : a = a' ∧ t = t' ∧ i = j := by simpa using he
        rintro b ⟨⟨-, h2⟩, h3, -⟩
        exact absurd h2 (Nat.not_lt.2 h3)
      rintro b ⟨hb, hb'⟩
      refine hpl.slot_disjoint ha ht hi ha' ht' hj he b ⟨⟨hb.1, ?_⟩, ?_, ?_⟩
      · exact Nat.lt_add_right 8 hb.2
      · exact (Nat.le_add_right _ _).trans hb'.1
      exact hb'.2
    · rintro b ⟨hb, hb'⟩
      exact hpl.slot_header ha ht hi ha' ht' b ⟨⟨hb.1, Nat.lt_add_right 8 hb.2⟩, hb'⟩
  · have hr := h.good.rep.slab a ha t ht
    refine ⟨hr.nodup, fun i hi => ⟨hr.lt i hi, fun hm => ?_⟩⟩
    obtain ⟨-, t', ht', j, hj, hn, he⟩ := (h.live a _).1 hm
    obtain ⟨-, rfl, rfl⟩ := hpl.obj_unique ha ht (hr.lt i hi) ha ht' hj (Nat.add_right_cancel he)
    exact hn hi

theorem SysInv.reclaimSound (h : SysInv saa s V) (target : ℤ) (junk : Mem) :
    ReclaimSound saa s V target junk := by
  obtain ⟨freed, st', V', h1, hgood, hrec, hcount⟩ :=
    slabAllocatorsReclaim_spec h.good junk target h.length_le
  refine ⟨freed, st', V', h1, hgood, hrec.allocs, hrec.free, hcount,
    fun a ha => ⟨hrec.sub a, fun t ht => ⟨⟨fun hgone => ⟨?_, fun hm => ?_⟩, fun hm hkept => ?_⟩,
      fun hgone i hi hm => ?_⟩⟩⟩
  · exact (h.good.held.mem _).2 ⟨a, ha, t, ht, rfl⟩
  · obtain ⟨x, hx, t', ht', he⟩ := (hgood.held.mem _).1 hm
    obtain ⟨rfl, -⟩ := Prod.mk.inj he
    rw [hrec.allocs] at hx
    obtain rfl : x = a := by
      by_contra hne
      exact h.good.rep.placed.slab_ne hx ((hrec.sub x).subset ht') ha ht
        (fun he => hne (Prod.mk.inj he).1.symm) rfl
    exact hgone ht'
  · refine hm.2 ((hgood.held.mem _).2 ⟨a, ?_, t, hkept, ?_⟩)
    · rwa [hrec.allocs]
    · rw [hrec.order]
  · have hall := hrec.gone a ha t ht hgone i hi
    exact ((h.sound.free a ha t ht).2 i hall).2 hm

/-- In every state that calls made as allowed lead to, memory shows slabs in which the
live objects lie apart, reclaiming gives back only slabs without a live object, and
every allowed call returns. -/
theorem slab_sound {s₀ : Sys} {mem : Mem} {name : ℕ} {ops : List Op} (hsaa : 0 < saa)
    (hend : saa + slabAllocatorSizeof ≤ 2 ^ 32) (hboot : boot saa mem name = .ok s₀)
    (hrun : Run (AllowedStep saa) s₀ ops s) :
    ∃ V, Sound saa s V ∧ (∀ target junk, ReclaimSound saa s V target junk) ∧
      ∀ op, Allowed saa s op → ∃ s', step saa s op = .ok s' := by
  obtain ⟨st, V₁, hok, -, hinv⟩ := boot_spec hsaa hend mem name
  obtain rfl := Except.ok.inj (hok.symm.trans hboot)
  obtain ⟨V, hV⟩ := sysInv_run hinv hrun
  refine ⟨V, hV.sound, hV.reclaimSound, fun op hop => ?_⟩
  obtain ⟨s', -, h1, -⟩ := hV.next hop
  exact ⟨s', h1⟩

/-- A page for a new slab, where the slabs have been made of pages that lie a mebibyte apart. -/
theorem far_pageOk {n a : ℕ} (h : SysInv 4096 s V) (ha : a ∈ V.allocs) (hn : n ≤ 13)
    (hfar : ∀ x, ∀ t ∈ V.slabs x, ∃ i < n, t = (i + 1) * 2 ^ 20) : PageOk 4096 s.st a ((n + 1) * 2 ^ 20) := by
  have hread := (h.good.rep.alloc a ha).order
  have hblock : ∀ x ∈ V.allocs, 2 ^ V.order x * PAGE_SIZE ≤ 2 ^ 19 := fun x hx =>
    (Nat.mul_le_mul_right _ (Nat.pow_le_pow_right (by decide)
      (Nat.le_of_lt_succ (h.good.rep.placed.fits x hx).order))).trans (by decide : 2 ^ 7 * PAGE_SIZE ≤ 2 ^ 19)
  have hsize := hblock a ha
  refine ⟨by omega, ?_, fun b hb => ?_, fun b hb x hx => ?_⟩
  · rw [hread]
    omega
  · simp only [Covers, slabAllocatorSizeof] at hb
    omega
  obtain ⟨x', hx', t, ht, rfl⟩ := (h.good.held.mem b).1 hb
  obtain ⟨i, hi, rfl⟩ := hfar x' t ht
  have hsize' := hblock x' hx'
  obtain ⟨⟨h1, h2⟩, h3, h4⟩ := hx
  dsimp only at h1 h2 h3 h4
  omega

theorem View.Grown.far {n : ℕ} (hg : V.Grown V' (some ((n + 1) * 2 ^ 20)))
    (hfar : ∀ x, ∀ t ∈ V.slabs x, ∃ i < n, t = (i + 1) * 2 ^ 20) (x t : ℕ) (ht : t ∈ V'.slabs x) :
    ∃ i < n + 1, t = (i + 1) * 2 ^ 20 := by
  rcases hg x t ht with ht | he
  · obtain ⟨i, hi, he⟩ := hfar x t ht
    exact ⟨i, Nat.lt_succ_of_lt hi, he⟩
  · exact ⟨n, Nat.lt_succ_self n, (Option.some.inj he).symm⟩

/-- An allocator for objects of 8 bytes is created, two objects are allocated and the first of them
is freed, then all empty slabs are given back. -/
theorem slab_sound_alloc_free : ∃ s₀ s a p q, boot 4096 (fun _ => 0) 0 = .ok s₀ ∧ Run (AllowedStep 4096) s₀
      [.create 0 8 (some (1 * 2 ^ 20)) (fun _ => 0), .alloc a (some (2 * 2 ^ 20)) (fun _ => 0),
        .alloc a (some (3 * 2 ^ 20)) (fun _ => 0), .free a p, .reclaim (-1) (fun _ => 0)] s ∧
    s.allocs = [(a, 8)] ∧ s.live = [(a, q), (4096, a)] ∧
    ∃ V, Sound 4096 s V ∧ (∀ target junk, ReclaimSound 4096 s V target junk) ∧
      ∀ op, Allowed 4096 s op → ∃ s', step 4096 s op = .ok s' := by
  obtain ⟨st, V, hboot, hslabs, hinv⟩ := boot_spec (show 0 < 4096 by decide) (by decide)
    (fun _ => 0) 0
  have hfar : ∀ x, ∀ t ∈ V.slabs x, ∃ i < 0, t = (i + 1) * 2 ^ 20 := fun x t ht => by
    rw [hslabs] at ht
    cases ht
  have hcreate : Allowed 4096 ⟨st, [], []⟩ (.create 0 8 (some (1 * 2 ^ 20)) fun _ => 0) :=
    ⟨⟨by decide, (0, 170), by decide +kernel⟩, fun addr he =>
      Option.some.inj he ▸ far_pageOk (n := 0) hinv hinv.good.rep.placed.static.1 (by decide) hfar⟩
  obtain ⟨s₁, V₁, hstep₁, hinv₁, hgrown₁, hmade⟩ := hinv.create 0 (fun _ => 0) hcreate.1 hcreate.2
  obtain ⟨a, hallocs₁, hlive₁⟩ := hmade (Option.some_ne_none _)
  have hfar₁ := View.Grown.far (n := 0) hgrown₁ hfar
  have hmem : ∀ {s : Sys}, s.allocs = s₁.allocs → a ∈ s.allocs.map Prod.fst := fun he => by
    rw [he, hallocs₁]
    exact mem_cons_self
  have halloc₁ : Allowed 4096 s₁ (.alloc a (some (2 * 2 ^ 20)) fun _ => 0) := ⟨hmem rfl, fun addr he =>
    Option.some.inj he ▸ far_pageOk (n := 1) hinv₁ (hinv₁.mem_allocs (hmem rfl)) (by decide) hfar₁⟩
  obtain ⟨s₂, V₂, hstep₂, hinv₂, hgrown₂, hallocs₂, hmade⟩ := hinv₁.alloc (fun _ => 0) halloc₁.1 halloc₁.2
  obtain ⟨p, hlive₂⟩ := hmade (Option.some_ne_none _)
  have halloc₂ : Allowed 4096 s₂ (.alloc a (some (3 * 2 ^ 20)) fun _ => 0) := ⟨hmem hallocs₂, fun addr he =>
    Option.some.inj he ▸ far_pageOk (n := 2) hinv₂ (hinv₂.mem_allocs (hmem hallocs₂)) (by decide)
      (View.Grown.far (n := 1) hgrown₂ hfar₁)⟩
  obtain ⟨s₃, V₃, hstep₃, hinv₃, -, hallocs₃, hmade⟩ := hinv₂.alloc (fun _ => 0) halloc₂.1 halloc₂.2
  obtain ⟨q, hlive₃⟩ := hmade (Option.some_ne_none _)
  rw [hlive₂, hlive₁] at hlive₃
  have hfree : Allowed 4096 s₃ (.free a p) := ⟨hmem (hallocs₃.trans hallocs₂), by rw [hlive₃]; simp⟩
  obtain ⟨s₄, V₄, hstep₄, hinv₄, hallocs₄, hlive₄⟩ := hinv₃.free hfree.1 hfree.2
  obtain ⟨st₅, V₅, hstep₅, -⟩ := hinv₄.reclaim (-1) fun _ => 0
  have hreclaim : AllowedStep 4096 s₄ (.reclaim (-1) fun _ => 0) _ := ⟨trivial, hstep₅⟩
  have hrun := ((((Run.nil.snoc ⟨hcreate, hstep₁⟩).snoc ⟨halloc₁, hstep₂⟩).snoc ⟨halloc₂, hstep₃⟩).snoc
    ⟨hfree, hstep₄⟩).snoc hreclaim
  refine ⟨_, _, a, p, q, hboot, hrun, ?_, ?_, slab_sound (by decide) (by decide) hboot hrun⟩
  · exact hallocs₄.trans (hallocs₃.trans (hallocs₂.trans hallocs₁))
  · have hne : (a, q) ≠ (a, p) := by
      have := hinv₃.nodup
      rw [hlive₃] at this
      rintro he
      exact (nodup_cons.1 this).1 (he ▸ mem_cons_self)
    rw [hlive₃, erase_cons_tail (by simpa using hne), erase_cons_head] at hlive₄
    exact hlive₄

end Weenix.Slab
