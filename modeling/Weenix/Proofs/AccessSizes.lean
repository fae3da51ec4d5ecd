import Weenix.Proofs.SlabSys
import Weenix.Spec.Access

/-! How large the blocks of `kmalloc` are, and the buffers for user data. The bucket is chosen by the
size with its header as a 32-bit word, so the block has the room that was asked for exactly when
no sum on the way wraps. -/

namespace Weenix.Slab

open Memory Page Cover Runs List

variable {saa : ℕ} {cs : ℕ → ℕ} {s s' : Sys} {V : View}

def Sys.Usable (s : Sys) (p n : ℕ) : Prop :=
  ∃ a size obj, (a, size) ∈ s.allocs ∧ (a, obj) ∈ s.live ∧ p = obj + allocatorPtrSizeof ∧
    allocatorPtrSizeof + n ≤ size

/-- `slab_init` is done: there is an allocator for each bucket. -/
def Ready (cs : ℕ → ℕ) (s : Sys) : Prop :=
  ∀ order, KMALLOC_SIZE_MIN_ORDER ≤ order → order ≤ KMALLOC_SIZE_MAX_ORDER → (cs order, 2 ^ order) ∈ s.allocs

/-- A block that the page allocator hands out while this size is asked for is apart from those held. -/
def PageFor (saa : ℕ) (cs : ℕ → ℕ) (s : Sys) (page : Option ℕ) (size : ℕ) : Prop :=
  ∀ order, kmallocOrder (word (size + allocatorPtrSizeof)) = some order →
    ∀ addr, page = some addr → PageOk saa s.st (cs order) addr

theorem kmallocOrder_spec {size order : ℕ} (h : kmallocOrder size = some order) :
    KMALLOC_SIZE_MIN_ORDER ≤ order ∧ order ≤ KMALLOC_SIZE_MAX_ORDER ∧ size ≤ 2 ^ order := by
  have hmem := mem_of_find?_eq_some h
  have hle := List.find?_some h
  rw [mem_range'_1] at hmem
  rw [decide_eq_true_iff, Nat.shiftLeft_eq, Nat.one_mul] at hle
  exact ⟨hmem.1, by omega, hle⟩

/-- A bucket chosen for the size `n` as a word has room for `n` bytes and a header unless the sum wraps. -/
theorem bucket_iff {n size order : ℕ} (hsize : size % 2 ^ 32 = n % 2 ^ 32)
    (h : kmallocOrder (word (size + allocatorPtrSizeof)) = some order) :
    allocatorPtrSizeof + n ≤ 2 ^ order ↔ n + 4 < 2 ^ 32 := by
  obtain ⟨-, hmax, hle⟩ := kmallocOrder_spec h
  have hpow : 2 ^ order ≤ 2 ^ 18 := Nat.pow_le_pow_right (by decide) hmax
  simp only [word, allocatorPtrSizeof] at hle ⊢
  constructor
  · intro hroom
    omega
  · intro hlt
    omega

/-- An object has one allocator and that has one size. -/
theorem SysInv.usable_iff (h : SysInv saa s V) {a size obj n : ℕ} (ha : (a, size) ∈ s.allocs)
    (hobj : (a, obj) ∈ s.live) : s.Usable (obj + allocatorPtrSizeof) n ↔ allocatorPtrSizeof + n ≤ size := by
  constructor
  · rintro ⟨a', size', obj', ha', hobj', he, hle⟩
    obtain rfl : obj = obj' := Nat.add_right_cancel he
    obtain ⟨hav, t, ht, i, hi, -, he1⟩ := (h.live a obj).1 hobj
    obtain ⟨hav', t', ht', j, hj, -, he2⟩ := (h.live a' obj).1 hobj'
    obtain ⟨rfl, -⟩ := h.good.rep.placed.obj_unique hav ht hi hav' ht' hj
      (Nat.add_right_cancel (he1.symm.trans he2))
    have hsize := h.sizes _ ha
    have hsize' := h.sizes _ ha'
    dsimp only at hsize hsize'
    omega
  · exact fun hle => ⟨a, size, obj, ha, hobj, rfl, hle⟩

/-- What `kmalloc` has done when it returns: nothing, or an object of the bucket has been handed out. -/
structure Handed (cs : ℕ → ℕ) (s s' : Sys) (order p : ℕ) : Prop where
  allocs : s'.allocs = s.allocs
  live : ∃ obj, p = obj + allocatorPtrSizeof ∧ s'.live = (cs order, obj) :: s.live

/-- Poison and header stay in the object. -/
theorem header_client {a obj size order b : ℕ} (m : Mem) (ha : (a, 2 ^ order) ∈ s.allocs)
    (hobj : (a, obj) ∈ s.live) (horder : KMALLOC_SIZE_MIN_ORDER ≤ order) (hsize : size ≤ 2 ^ order)
    (hb : ¬ s.Client b) : write32 (writeBytes m obj (List.replicate size MM_POISON_ALLOC)) obj a b = m b := by
  have hpow : 2 ^ 6 ≤ 2 ^ order := Nat.pow_le_pow_right (by decide) horder
  have hout : b < obj ∨ obj + 2 ^ order ≤ b := by
    by_contra hin
    exact hb ⟨a, 2 ^ order, obj, ha, hobj, by omega, by omega⟩
  rw [write32_of_out (by omega), writeBytes_of_out (by rw [length_replicate]; omega)]

theorem kmalloc_spec (h : SysInv saa s V) (hready : Ready cs s) {page : Option ℕ} (junk : Mem) {size : ℕ}
    (hpage : PageFor saa cs s page size) :
    kmalloc cs s page junk size = .error .panic ∧ kmallocOrder (word (size + allocatorPtrSizeof)) = none ∨
    ∃ p s' V', kmalloc cs s page junk size = .ok (p, s') ∧ SysInv saa s' V' ∧
      (p = 0 ∧ page = none ∧ s'.allocs = s.allocs ∧ s'.live = s.live ∨
        p ≠ 0 ∧ ∃ order, kmallocOrder (word (size + allocatorPtrSizeof)) = some order ∧
          Handed cs s s' order p) := by
  unfold kmalloc
  dsimp only
  cases horder : kmallocOrder (word (size + allocatorPtrSizeof)) with
  | none => exact .inl ⟨rfl, rfl⟩
  | some order =>
    right
    obtain ⟨hmin, hmax, hle⟩ := kmallocOrder_spec horder
    have ha := hready order hmin hmax
    have hav := h.mem_allocs (mem_map_of_mem ha)
    obtain ⟨obj, st', V', h1, hgood, -, hcase⟩ := slabObjAlloc_spec junk h.good hav h.length_le
      fun addr he => h.unused hav (hpage order horder addr he)
    dsimp only
    rw [h1]
    rcases hcase with ⟨rfl, hnone, hkept⟩ | htook
    · exact ⟨0, { s with st := st' }, V', rfl, h.keep hgood hkept, .inl ⟨rfl, hnone, rfl, rfl⟩⟩
    have hinv := h.take hgood htook.same htook.fresh htook.pos htook.used
    rw [Sys.handOut, if_neg htook.pos] at hinv
    have hstore : SysInv saa ⟨{ st' with mem := write32 (writeBytes st'.mem obj
        (List.replicate (word (size + allocatorPtrSizeof)) MM_POISON_ALLOC)) obj (cs order) }, s.allocs,
        (cs order, obj) :: s.live⟩ V' := hinv.store fun b _ hb =>
      header_client (s := ⟨st', s.allocs, (cs order, obj) :: s.live⟩) st'.mem ha mem_cons_self hmin hle hb
    refine ⟨obj + allocatorPtrSizeof, _, V', ?_, hstore,
      .inr ⟨by simp [allocatorPtrSizeof], order, rfl, rfl, obj, rfl, rfl⟩⟩
    simp only [liftSlab, bind, Except.bind, if_neg htook.pos, Sys.handOut, pure, Except.pure]

/-- The exact size of the block, for a size that is `n` up to wrapping. -/
theorem Handed.usable_iff {V' : View} {size n order p : ℕ} (h : Handed cs s s' order p) (hinv : SysInv saa s' V')
    (hready : Ready cs s) (hsize : size % 2 ^ 32 = n % 2 ^ 32)
    (horder : kmallocOrder (word (size + allocatorPtrSizeof)) = some order) :
    s'.Usable p n ↔ n + 4 < 2 ^ 32 := by
  obtain ⟨hmin, hmax, -⟩ := kmallocOrder_spec horder
  obtain ⟨obj, rfl, hlive⟩ := h.live
  rw [hinv.usable_iff (h.allocs ▸ hready order hmin hmax) (hlive ▸ mem_cons_self), bucket_iff hsize horder]

section
variable (h : SysInv saa s V) (hready : Ready cs s)
include h hready

theorem kmalloc_usable {page : Option ℕ} {junk : Mem} {size n p : ℕ}
    (hpage : PageFor saa cs s page size) (hsize : size % 2 ^ 32 = n % 2 ^ 32)
    (hok : kmalloc cs s page junk size = .ok (p, s')) (hp : p ≠ 0) : s'.Usable p n ↔ n + 4 < 2 ^ 32 := by
  rcases kmalloc_spec h hready junk hpage with ⟨hpanic, -⟩ | ⟨p', s'', V', hok', hinv, hcase⟩
  · rw [hpanic] at hok
    cases hok
  obtain ⟨rfl, rfl⟩ := Prod.mk.inj (Except.ok.inj (hok'.symm.trans hok))
  rcases hcase with ⟨h0, -⟩ | ⟨-, order, horder, hhanded⟩
  · exact absurd h0 hp
  · exact hhanded.usable_iff hinv hready hsize horder

/-- A string that has been copied lies in the block that was had for it. -/
theorem userStrdup_usable {u : User} {page : Option ℕ} {junk : Mem}
    {asStr asLen kstr : ℕ} (hpage : PageFor saa cs s page (word (asLen + 1)))
    (hok : userStrdup cs u s page junk asStr asLen = .ok (kstr, s')) (hk : kstr ≠ 0) :
    s'.Usable kstr (asLen + 1) ↔ asLen + 1 + 4 < 2 ^ 32 := by
  unfold userStrdup at hok
  rcases kmalloc_spec h hready junk hpage with ⟨hpanic, -⟩ | ⟨p, s1, V1, hmalloc, hinv, hcase⟩
  · rw [hpanic] at hok
    cases hok
  simp only [hmalloc, bind, Except.bind] at hok
  by_cases hp : p = 0
  · rw [if_pos hp] at hok
    exact absurd (Prod.mk.inj (Except.ok.inj hok)).1.symm hk
  rw [if_neg hp] at hok
  unfold copyFromUser at hok
  by_cases hperm : u.perm asStr (word (asLen + 1)) = true
  · rw [if_pos hperm] at hok
    obtain ⟨rfl, rfl⟩ := Prod.mk.inj (Except.ok.inj hok)
    -- the copy changes memory only
    have husable : s1.Usable p (asLen + 1) ↔ asLen + 1 + 4 < 2 ^ 32 :=
      kmalloc_usable h hready hpage (by simp only [word]; omega) hmalloc hp
    exact husable
  rw [if_neg hperm] at hok
  cases hfree : kfree s1 p with
  | error f =>
    rw [hfree] at hok
    cases hok
  | ok s2 =>
    rw [hfree] at hok
    exact absurd (Prod.mk.inj (Except.ok.inj hok)).1.symm hk

theorem vecBuffers_usable {ans : ℕ → Option ℕ × Mem}
    {avLen temp kvec : ℕ} (hpage : PageFor saa cs s (ans 0).1 (word (word (avLen + 1) * argstrSizeof)))
    (hpage' : ∀ p s1, kmalloc cs s (ans 0).1 (ans 0).2 (word (word (avLen + 1) * argstrSizeof)) = .ok (p, s1) →
      PageFor saa cs s1 (ans 1).1 (word (word (avLen + 1) * charPtrSizeof)))
    (hok : vecBuffers cs s ans avLen = .ok (temp, kvec, s')) (ht : temp ≠ 0) (hk : kvec ≠ 0) :
    s'.Usable temp (argstrSizeof * (avLen + 1)) ∧ s'.Usable kvec (charPtrSizeof * (avLen + 1)) ↔
      argstrSizeof * (avLen + 1) + 4 < 2 ^ 32 := by
  have hword : word (word (avLen + 1) * argstrSizeof) % 2 ^ 32 = argstrSizeof * (avLen + 1) % 2 ^ 32 := by
    simp only [word, argstrSizeof]
    omega
  have hword' : word (word (avLen + 1) * charPtrSizeof) % 2 ^ 32 = charPtrSizeof * (avLen + 1) % 2 ^ 32 := by
    simp only [word, charPtrSizeof]
    omega
  unfold vecBuffers at hok
  rcases kmalloc_spec h hready (ans 0).2 hpage with ⟨hpanic, -⟩ | ⟨p, s1, V1, hmalloc, hinv, hcase⟩
  · rw [hpanic] at hok
    cases hok
  simp only [hmalloc, bind, Except.bind] at hok
  rcases hcase with ⟨rfl, -⟩ | ⟨hp, order, horder, hhanded⟩
  · exact absurd (Prod.mk.inj (Except.ok.inj hok)).1.symm ht
  rw [if_neg hp] at hok
  have hready1 : Ready cs s1 := fun o h1 h2 => hhanded.allocs ▸ hready o h1 h2
  rcases kmalloc_spec hinv hready1 (ans 1).2 (hpage' p s1 hmalloc) with
    ⟨hpanic, -⟩ | ⟨q, s2, V2, hmalloc2, hinv2, hcase2⟩
  · rw [hpanic] at hok
    cases hok
  rw [hmalloc2] at hok
  obtain ⟨rfl, hrest⟩ := Prod.mk.inj (Except.ok.inj hok)
  cases hrest
  rcases hcase2 with ⟨rfl, -⟩ | ⟨hq, order2, horder2, hhanded2⟩
  · exact absurd rfl hk
  -- the first block is still there after the second call
  obtain ⟨obj, rfl, hlive⟩ := hhanded.live
  obtain ⟨obj2, -, hlive2⟩ := hhanded2.live
  obtain ⟨hmin, hmax, -⟩ := kmallocOrder_spec horder
  have hfirst := hinv2.usable_iff (n := argstrSizeof * (avLen + 1)) (hhanded2.allocs ▸ hready1 order hmin hmax)
    (show (cs order, obj) ∈ s2.live by rw [hlive2, hlive]; exact mem_cons_of_mem _ mem_cons_self)
  rw [hfirst, bucket_iff hword horder, hhanded2.usable_iff hinv2 hready1 hword' horder2]
  simp only [argstrSizeof, charPtrSizeof]
  omega

end

/-- In every state in which the buckets exist, a block of `kmalloc` has the bytes asked for, and the
buffers of `user_strdup` and `user_vecdup` have room for the bytes and elements that go there, exactly
if the size with the header does not wrap. -/
theorem alloc_sizes_iff {s₀ : Sys} {mem : Mem} {name : ℕ} {ops : List Op} (hsaa : 0 < saa)
    (hend : saa + slabAllocatorSizeof ≤ 2 ^ 32) (hboot : boot saa mem name = .ok s₀)
    (hrun : Run (AllowedStep saa) s₀ ops s) (hready : Ready cs s) :
    (∀ size page junk p s', PageFor saa cs s page size → kmalloc cs s page junk size = .ok (p, s') → p ≠ 0 →
      (s'.Usable p size ↔ size + 4 < 2 ^ 32)) ∧
    (∀ u asStr asLen page junk kstr s', PageFor saa cs s page (word (asLen + 1)) →
      userStrdup cs u s page junk asStr asLen = .ok (kstr, s') → kstr ≠ 0 →
      (s'.Usable kstr (asLen + 1) ↔ asLen + 1 + 4 < 2 ^ 32)) ∧
    ∀ avLen ans temp kvec s', PageFor saa cs s (ans 0).1 (word (word (avLen + 1) * argstrSizeof)) →
      (∀ p s₁, kmalloc cs s (ans 0).1 (ans 0).2 (word (word (avLen + 1) * argstrSizeof)) = .ok (p, s₁) →
        PageFor saa cs s₁ (ans 1).1 (word (word (avLen + 1) * charPtrSizeof))) →
      vecBuffers cs s ans avLen = .ok (temp, kvec, s') → temp ≠ 0 → kvec ≠ 0 →
      (s'.Usable temp (argstrSizeof * (avLen + 1)) ∧ s'.Usable kvec (charPtrSizeof * (avLen + 1)) ↔
        argstrSizeof * (avLen + 1) + 4 < 2 ^ 32) := by
  obtain ⟨st, V₁, hok, -, hinv⟩ := boot_spec hsaa hend mem name
  obtain rfl := Except.ok.inj (hok.symm.trans hboot)
  obtain ⟨V, hV⟩ := sysInv_run hinv hrun
  exact ⟨fun size page junk p s' hpage hok hp => kmalloc_usable hV hready hpage rfl hok hp,
    fun u asStr asLen page junk kstr s' hpage hok hk => userStrdup_usable hV hready hpage hok hk,
    fun avLen ans temp kvec s' hpage hpage' hok ht hk => vecBuffers_usable hV hready hpage hpage' hok ht hk⟩

/-! ### A state in which the buckets exist -/

theorem creatable_bucket {order : ℕ} (h1 : KMALLOC_SIZE_MIN_ORDER ≤ order) (h2 : order ≤ KMALLOC_SIZE_MAX_ORDER) :
    Creatable (2 ^ order) := by
  have hpow : 2 ^ order ≤ 2 ^ 18 := Nat.pow_le_pow_right (by decide) h2
  refine ⟨?_, ?_⟩
  · simp only [redzoneSizeof, slabBufctlSizeof, slabSizeof]
    omega
  have hfound : ∀ order ∈ List.range' 6 13,
      (calcSlabSize (2 ^ order + 2 * redzoneSizeof)).toOption.isSome = true := by decide +kernel
  have hsome := hfound order (mem_range'_1.2 ⟨h1, Nat.lt_succ_of_le h2⟩)
  cases hcalc : calcSlabSize (2 ^ order + 2 * redzoneSizeof) with
  | ok r => exact ⟨r, rfl⟩
  | error f =>
    rw [hcalc] at hsome
    cases hsome

/-- The first buckets can be made, from pages that lie a mebibyte apart. -/
theorem exists_buckets {s0 : Sys} {V0 : View} (h0 : SysInv 4096 s0 V0) (hslabs : ∀ x, V0.slabs x = []) (n : ℕ)
    (hn : n ≤ 13) : ∃ ops s V, ∃ cs : ℕ → ℕ, Run (AllowedStep 4096) s0 ops s ∧ SysInv 4096 s V ∧
      (∀ order, 6 ≤ order → order < 6 + n → (cs order, 2 ^ order) ∈ s.allocs) ∧
      ∀ x, ∀ t ∈ V.slabs x, ∃ i < n, t = (i + 1) * 2 ^ 20 := by
  induction n with
  | zero =>
    refine ⟨[], s0, V0, fun _ => 0, Run.nil, h0, fun order h1 h2 => absurd h2 (by omega), fun x t ht => ?_⟩
    rw [hslabs] at ht
    cases ht
  | succ n ih =>
    obtain ⟨ops, s, V, cs, hrun, hinv, hcs, hfar⟩ := ih (by omega)
    have hpage := far_pageOk hinv hinv.good.rep.placed.static.1 (by omega) hfar
    have hcreate : Allowed 4096 s (.create 0 (2 ^ (6 + n)) (some ((n + 1) * 2 ^ 20)) fun _ => 0) :=
      ⟨creatable_bucket (Nat.le_add_right 6 n) (Nat.add_le_add_left (Nat.le_of_succ_le_succ hn) 6),
        fun addr he => Option.some.inj he ▸ hpage⟩
    obtain ⟨s', V', hstep, hinv', hgrown, hmade⟩ := hinv.create 0 (fun _ => 0) hcreate.1 hcreate.2
    obtain ⟨p, hallocs, -⟩ := hmade (Option.some_ne_none _)
    refine ⟨_, s', V', Function.update cs (6 + n) p, hrun.snoc ⟨hcreate, hstep⟩, hinv', fun order h1 h2 => ?_,
      View.Grown.far hgrown hfar⟩
    rw [hallocs]
    by_cases he : order = 6 + n
    · rw [he, Function.update_self]
      exact mem_cons_self
    · rw [Function.update_of_ne he]
      exact mem_cons_of_mem _ (hcs order h1 (by omega))

/-- All buckets exist, and `kmalloc` returns a block for each size that it takes for small enough. -/
theorem exists_ready : ∃ s0 ops s, ∃ cs : ℕ → ℕ, boot 4096 (fun _ => 0) 0 = .ok s0 ∧
    Run (AllowedStep 4096) s0 ops s ∧ Ready cs s ∧ ∃ page, ∀ size, PageFor 4096 cs s page size ∧
      (kmallocOrder (word (size + allocatorPtrSizeof)) ≠ none →
        ∃ p s', kmalloc cs s page (fun _ => 0) size = .ok (p, s') ∧ p ≠ 0) := by
  obtain ⟨st, V0, hboot, hslabs, hinv⟩ := boot_spec (show 0 < 4096 by decide) (by decide) (fun _ => 0) 0
  obtain ⟨ops, s, V, cs, hrun, hinv', hcs, hfar⟩ := exists_buckets hinv hslabs 13 le_rfl
  have hready : Ready cs s := fun order h1 h2 => hcs order h1 (Nat.lt_succ_of_le h2)
  refine ⟨_, ops, s, cs, hboot, hrun, hready, some (14 * 2 ^ 20), fun size => ?_⟩
  have hpage : PageFor 4096 cs s (some (14 * 2 ^ 20)) size := by
    intro order horder addr he
    obtain ⟨hmin, hmax, -⟩ := kmallocOrder_spec horder
    cases he
    exact far_pageOk hinv' (hinv'.mem_allocs (mem_map_of_mem (hready order hmin hmax))) le_rfl hfar
  refine ⟨hpage, fun hsome => ?_⟩
  rcases kmalloc_spec hinv' hready (fun _ => 0) hpage with ⟨-, hnone⟩ | ⟨p, s', V', hok, -, hcase⟩
  · exact absurd hnone hsome
  rcases hcase with ⟨-, hnone, -⟩ | ⟨hp, -⟩
  · cases hnone
  · exact ⟨p, s', hok, hp⟩

theorem alloc_sizes_hundred : ∃ s₀ ops s, ∃ cs : ℕ → ℕ, boot 4096 (fun _ => 0) 0 = .ok s₀ ∧
    Run (AllowedStep 4096) s₀ ops s ∧ Ready cs s ∧ ∃ page p s', kmalloc cs s page (fun _ => 0) 100 = .ok (p, s') ∧
      p ≠ 0 ∧ s'.Usable p 100 := by
  obtain ⟨s₀, ops, s, cs, hboot, hrun, hready, page, hkmalloc⟩ := exists_ready
  obtain ⟨hpage, hsome⟩ := hkmalloc 100
  obtain ⟨p, s', hok, hp⟩ := hsome (by decide)
  exact ⟨s₀, ops, s, cs, hboot, hrun, hready, page, p, s', hok, hp,
    ((alloc_sizes_iff (by decide) (by decide) hboot hrun hready).1 100 page _ p s' hpage hok hp).2 (by decide)⟩

/-- `kmalloc` of all but one byte of the address space gives a block of the smallest bucket. -/
theorem kmalloc_wraps : ∃ s₀ ops s, ∃ cs : ℕ → ℕ, boot 4096 (fun _ => 0) 0 = .ok s₀ ∧
    Run (AllowedStep 4096) s₀ ops s ∧ Ready cs s ∧ ∃ page p s',
      kmalloc cs s page (fun _ => 0) (2 ^ 32 - 1) = .ok (p, s') ∧ p ≠ 0 ∧ ¬ s'.Usable p (2 ^ 32 - 1) := by
  obtain ⟨s₀, ops, s, cs, hboot, hrun, hready, page, hkmalloc⟩ := exists_ready
  obtain ⟨hpage, hsome⟩ := hkmalloc (2 ^ 32 - 1)
  obtain ⟨p, s', hok, hp⟩ := hsome (by decide)
  obtain ⟨st, V₀, hok₀, -, hinv⟩ := boot_spec (show 0 < 4096 by decide) (by decide) (fun _ => 0) 0
  obtain rfl := Except.ok.inj (hok₀.symm.trans hboot)
  obtain ⟨V, hV⟩ := sysInv_run hinv hrun
  refine ⟨_, ops, s, cs, hboot, hrun, hready, page, p, s', hok, hp, fun husable => ?_⟩
  exact absurd ((kmalloc_usable hV hready hpage rfl hok hp).1 husable) (by decide)

end Weenix.Slab
