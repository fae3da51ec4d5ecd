import Weenix.Proofs.PageSys

/-! A freshly created group: where its maps lie, what its free lists hold, and that it
is in order when its usable area is a whole number of largest blocks. -/

namespace Weenix.Page

open Cover Pagegroup Function List

/-! ### The maps -/

theorem mapBytes_eq {npages order : ℕ} (h : npages < 2 ^ 20) :
    mapBytes npages order = (npages / 2 ^ order + 7) / 8 := by
  have hle : npages / 2 ^ order ≤ npages := Nat.div_le_self _ _
  rw [mapBytes, word, wordSub, Nat.shiftRight_eq_div_pow, Nat.shiftRight_eq_div_pow]
  generalize npages / 2 ^ order = m at hle ⊢
  omega

def reserved (npages n : ℕ) : ℕ := ((List.range' 1 n).map (mapBytes npages)).sum

theorem reserved_succ (npages n : ℕ) :
    reserved npages (n + 1) = reserved npages n + mapBytes npages (n + 1) := by
  unfold reserved
  rw [List.range'_1_concat, map_append, sum_append, Nat.add_comm 1 n,
    map_singleton, sum_singleton]

theorem reserved_mono (npages : ℕ) {k n : ℕ} (h : k ≤ n) : reserved npages k ≤ reserved npages n := by
  induction n, h using Nat.le_induction with
  | base => exact le_rfl
  | succ n _ ih =>
    rw [reserved_succ]
    omega

theorem reserved_le {npages : ℕ} (h : npages < 2 ^ 20) (n : ℕ) :
    reserved npages n + npages / 2 ^ n ≤ npages := by
  induction n with
  | zero => simp [reserved]
  | succ n ih =>
    have hdiv : npages / 2 ^ (n + 1) = npages / 2 ^ n / 2 := by
      rw [pow_succ, Nat.div_div_eq_div_mul]
    have hceil : (npages / 2 ^ n / 2 + 7) / 8 ≤ npages / 2 ^ n / 2 := by
      rcases Nat.eq_zero_or_pos (npages / 2 ^ n / 2) with h0 | h0 <;> omega
    rw [reserved_succ, mapBytes_eq h, hdiv]
    omega

theorem foldl_reserveMap {npages start : ℕ} (mem : ℕ → Bool) (map : ℕ → ℕ) (n : ℕ)
    (h : reserved npages n ≤ start) (hs : start < 2 ^ 32) :
    let r := (List.range' 1 n).foldl (reserveMap npages) (mem, map, start)
    r.2.2 = start - reserved npages n ∧
    ∀ k, 1 ≤ k → k ≤ n → r.2.1 k = start - reserved npages k ∧
      ∀ i < 8 * mapBytes npages k, r.1 (8 * (start - reserved npages k) + i) = false := by
  induction n with
  | zero => exact ⟨rfl, fun k h1 h2 => by omega⟩
  | succ n ih =>
    have hsucc := reserved_succ npages n
    obtain ⟨h1, h2⟩ := ih (by omega)
    simp only [List.range'_1_concat, foldl_append, foldl_cons, foldl_nil] at h1 h2 ⊢
    generalize (List.range' 1 n).foldl (reserveMap npages) (mem, map, start) = r at h1 h2 ⊢
    have hstop : wordSub r.2.2 (mapBytes npages (1 + n)) = start - reserved npages (n + 1) := by
      rw [wordSub, h1, Nat.add_comm 1 n]
      omega
    simp only [reserveMap, hstop]
    refine ⟨trivial, fun k hk1 hk2 => ?_⟩
    by_cases hk : k = n + 1
    · subst hk
      rw [Nat.add_comm 1 n, update_self]
      refine ⟨rfl, fun i hi => if_pos ?_⟩
      omega
    obtain ⟨h3, h4⟩ := h2 k hk1 (by omega)
    rw [update_of_ne (by omega)]
    refine ⟨h3, fun i hi => ?_⟩
    rw [h4 i hi, ite_self]

/-- Clear memory stays clear. -/
theorem foldl_reserveMap_clear (npages : ℕ) (orders : List ℕ) (acc : (ℕ → Bool) × (ℕ → ℕ) × ℕ)
    (h : acc.1 = fun _ => false) : (orders.foldl (reserveMap npages) acc).1 = fun _ => false := by
  induction orders generalizing acc with
  | nil => exact h
  | cons o orders ih =>
    refine ih _ ?_
    funext b
    simp [reserveMap, h]

/-! ### The free lists -/

/-- Where the block of order `k` that is left over lies, in pages from the base. -/
def leftover (n k : ℕ) : ℕ := n / 2 ^ (k + 1) * 2 ^ (k + 1)

theorem leftover_of_testBit {n k : ℕ} (h : n.testBit k = true) : n / 2 ^ k * 2 ^ k = leftover n k + 2 ^ k := by
  have hdiv : n / 2 ^ (k + 1) = n / 2 ^ k / 2 := by rw [pow_succ, Nat.div_div_eq_div_mul]
  have hodd : n / 2 ^ k % 2 = 1 := by
    rw [Nat.testBit_eq_decide_div_mod_eq, decide_eq_true_eq] at h
    exact h
  have : n / 2 ^ k = 2 * (n / 2 ^ (k + 1)) + 1 := by omega
  rw [this, leftover, pow_succ]
  ring

theorem leftover_of_not_testBit {n k : ℕ} (h : n.testBit k = false) : n / 2 ^ k * 2 ^ k = leftover n k := by
  have hdiv : n / 2 ^ (k + 1) = n / 2 ^ k / 2 := by rw [pow_succ, Nat.div_div_eq_div_mul]
  have heven : n / 2 ^ k % 2 = 0 := by
    rw [Nat.testBit_eq_decide_div_mod_eq, decide_eq_false_iff_not] at h
    omega
  have : n / 2 ^ k = 2 * (n / 2 ^ (k + 1)) := by omega
  rw [this, leftover, pow_succ]
  ring

theorem foldl_carve (base n : ℕ) (hlt : base + n * PAGE_SIZE < 2 ^ 32) (m : ℕ) :
    let r := (List.range m).foldl (carve n) (fun _ => [], base + n * PAGE_SIZE)
    r.2 = base + n / 2 ^ m * 2 ^ m * PAGE_SIZE ∧
    ∀ k, r.1 k = if k < m ∧ n.testBit k then [base + leftover n k * PAGE_SIZE] else [] := by
  induction m with
  | zero => simp
  | succ m ih =>
    simp only [range_succ, foldl_append, foldl_cons, foldl_nil] at ih ⊢
    generalize (List.range m).foldl (carve n) (fun _ => [], base + n * PAGE_SIZE) = r at ih ⊢
    obtain ⟨h1, h2⟩ := ih
    have hle : n / 2 ^ m * 2 ^ m * PAGE_SIZE ≤ n * PAGE_SIZE :=
      Nat.mul_le_mul_right _ (Nat.div_mul_le_self _ _)
    by_cases hb : n.testBit m = true
    · have hstop : wordSub r.2 ((1 <<< m) <<< PAGE_SHIFT) = base + leftover n m * PAGE_SIZE := by
        have he := leftover_of_testBit hb
        rw [shiftLeft_block, blockSize, wordSub, h1]
        rw [he, Nat.add_mul] at hle ⊢
        omega
      simp only [carve, if_pos hb, hstop]
      refine ⟨rfl, fun k => ?_⟩
      by_cases hk : k = m
      · subst hk
        simp [hb]
      rw [update_of_ne hk, h2]
      have : k < m ↔ k < m + 1 := by omega
      exact if_congr (and_congr_left fun _ => this) rfl rfl
    · rw [Bool.not_eq_true] at hb
      simp only [carve, hb, Bool.false_eq_true, if_false]
      refine ⟨by rw [h1, leftover_of_not_testBit hb, leftover], fun k => ?_⟩
      by_cases hk : k = m
      · subst hk
        simp [hb]
      rw [update_of_ne hk, h2]
      have : k < m ↔ k < m + 1 := by omega
      exact if_congr (and_congr_left fun _ => this) rfl rfl

theorem fillLargest_eq {stop : ℕ} (hlt : stop < 2 ^ 32) (m : ℕ) :
    ∀ (fuel current : ℕ) (l : List ℕ), m ≤ fuel →
      stop = current + m * blockSize (PAGE_NSIZES - 1) →
      fillLargest stop fuel current l =
        ((List.range m).map fun i => current + i * blockSize (PAGE_NSIZES - 1)).reverse ++ l := by
  induction m with
  | zero =>
    intro fuel current l _ hstop
    cases fuel with
    | zero => rfl
    | succ fuel => simp [fillLargest, hstop]
  | succ m ih =>
    intro fuel current l hfuel hstop
    obtain ⟨fuel, rfl⟩ : ∃ f, fuel = f + 1 := ⟨fuel - 1, by omega⟩
    have hpos := blockSize_pos (PAGE_NSIZES - 1)
    have hnext : word (current + (1 <<< (PAGE_NSIZES - 1)) <<< PAGE_SHIFT) =
        current + blockSize (PAGE_NSIZES - 1) := by
      rw [Nat.succ_mul] at hstop
      rw [shiftLeft_block, word]
      exact Nat.mod_eq_of_lt (by omega)
    rw [fillLargest, hnext]
    generalize blockSize (PAGE_NSIZES - 1) = n at ih hstop hpos ⊢
    rw [Nat.succ_mul] at hstop
    rw [if_pos (by omega), ih fuel _ _ (by omega) (by omega), range_succ_eq_map, map_cons,
      map_map, reverse_cons, append_assoc, singleton_append, Nat.zero_mul,
      Nat.add_zero]
    have hmap : (List.range m).map (fun i => current + n + i * n) =
        (List.range m).map ((fun i => current + i * n) ∘ Nat.succ) := by
      refine map_congr_left fun i _ => ?_
      rw [Function.comp, Nat.succ_mul]
      omega
    rw [hmap]

/-! ### The group -/

theorem dvd_pageAlignDown (x : ℕ) : PAGE_SIZE ∣ pageAlignDown x := Dvd.intro_left _ rfl

theorem pageAlignDown_le (x : ℕ) : pageAlignDown x ≤ x := Nat.div_mul_le_self x PAGE_SIZE

theorem wordSub_lt (a b : ℕ) : wordSub a b < 2 ^ 32 := Nat.mod_lt _ (by norm_num)

theorem wordSub_of_le {a b : ℕ} (h : b ≤ a) (ha : a < 2 ^ 32) : wordSub a b = a - b := by
  rw [wordSub]
  omega

/-- What creation makes of any range: the leftover blocks of the orders whose bit is set
in the number of usable pages, and the largest blocks below them. -/
structure Fresh (g : Pagegroup) : Prop where
  base : PAGE_SIZE ∣ g.baseaddr
  stop : g.endaddr = g.baseaddr + g.npages * PAGE_SIZE
  lt : g.endaddr < 2 ^ 32
  small : ∀ k < PAGE_NSIZES - 1, g.freelist k =
    if g.npages.testBit k then [g.baseaddr + leftover g.npages k * PAGE_SIZE] else []
  large : g.freelist (PAGE_NSIZES - 1) =
    ((List.range (g.npages / 2 ^ (PAGE_NSIZES - 1))).map
      fun i => g.baseaddr + i * blockSize (PAGE_NSIZES - 1)).reverse

theorem foldl_reserveMap_lt (npages : ℕ) (orders : List ℕ) (acc : (ℕ → Bool) × (ℕ → ℕ) × ℕ)
    (h : acc.2.2 < 2 ^ 32) : (orders.foldl (reserveMap npages) acc).2.2 < 2 ^ 32 := by
  induction orders generalizing acc with
  | nil => exact h
  | cons o orders ih => exact ih _ (wordSub_lt _ _)

theorem fresh_create {mem : ℕ → Bool} {start stop : ℕ} (hstart : PAGE_SIZE ∣ start)
    (h : start < (pagegroupCreate mem start stop).endaddr) : Fresh (pagegroupCreate mem start stop) := by
  set g := pagegroupCreate mem start stop with hg
  have hend : PAGE_SIZE ∣ g.endaddr := dvd_pageAlignDown _
  have hlt : g.endaddr < 2 ^ 32 :=
    (pageAlignDown_le _).trans_lt (foldl_reserveMap_lt _ _ _ (wordSub_lt _ _))
  have hn : wordSub g.endaddr start >>> PAGE_SHIFT = g.npages := by
    rw [wordSub_of_le h.le hlt, Nat.shiftRight_eq_div_pow]
    rfl
  have hstop : g.endaddr = start + g.npages * PAGE_SIZE := by
    have : (g.endaddr - start) / PAGE_SIZE * PAGE_SIZE = g.endaddr - start :=
      Nat.div_mul_cancel (Nat.dvd_sub hend hstart)
    change g.endaddr = start + (g.endaddr - start) / PAGE_SIZE * PAGE_SIZE
    omega
  have hfree : g.freelist = update (carveAll g.npages g.endaddr).1 (PAGE_NSIZES - 1)
      (fillLargest (carveAll g.npages g.endaddr).2 g.npages start []) := by
    rw [← hn]
    rfl
  have hcarve := foldl_carve start g.npages (hstop ▸ hlt) (PAGE_NSIZES - 1)
  rw [← hstop] at hcarve
  obtain ⟨h1, h2⟩ := hcarve
  rw [← carveAll] at h1 h2
  refine ⟨hstart, hstop, hlt, fun k hk => ?_, ?_⟩
  · rw [hfree, update_of_ne (by omega), h2]
    exact if_congr (and_iff_right hk) rfl rfl
  have hle := Nat.div_mul_le_self g.npages (2 ^ (PAGE_NSIZES - 1))
  have hle' := Nat.mul_le_mul_right PAGE_SIZE hle
  rw [hfree, update_self, fillLargest_eq (m := g.npages / 2 ^ (PAGE_NSIZES - 1)),
    append_nil]
  · rfl
  · omega
  · exact Nat.div_le_self _ _
  · rw [h1, blockSize, Nat.mul_assoc]

/-- The leftover blocks of the orders below `m` lie side by side at the end of the area. -/
theorem Fresh.depth_small {g : Pagegroup} (h : Fresh g) (x : ℕ) {m : ℕ} (hm : m < PAGE_NSIZES) :
    depth ((List.range m).flatMap fun k => (g.freelist k).map fun a => (a, blockSize k)) x =
      if g.baseaddr + g.npages / 2 ^ m * 2 ^ m * PAGE_SIZE ≤ x ∧ x < g.endaddr then 1 else 0 := by
  induction m with
  | zero =>
    rw [if_neg (by rw [h.stop, Nat.pow_zero, Nat.div_one, Nat.mul_one]; omega)]
    rfl
  | succ m ih =>
    have hle : g.npages / 2 ^ m * 2 ^ m * PAGE_SIZE ≤ g.npages * PAGE_SIZE :=
      Nat.mul_le_mul_right _ (Nat.div_mul_le_self _ _)
    rw [range_succ, flatMap_append, depth_append, ih (by omega), flatMap_singleton,
      h.small m (by omega)]
    rw [show g.npages / 2 ^ (m + 1) * 2 ^ (m + 1) = leftover g.npages m from rfl]
    by_cases hb : g.npages.testBit m = true
    · rw [leftover_of_testBit hb, Nat.add_mul] at hle ⊢
      have hc : Covers x (g.baseaddr + leftover g.npages m * PAGE_SIZE, blockSize m) ↔
          g.baseaddr + leftover g.npages m * PAGE_SIZE ≤ x ∧
            x < g.baseaddr + leftover g.npages m * PAGE_SIZE + 2 ^ m * PAGE_SIZE := Iff.rfl
      rw [if_pos hb, map_singleton, depth_cons, depth_nil, if_congr hc rfl rfl]
      have hstop := h.stop
      split_ifs <;> omega
    · rw [Bool.not_eq_true] at hb
      rw [leftover_of_not_testBit hb]
      simp [hb]

/-- The free blocks of a fresh group cover its usable area exactly once. -/
theorem Fresh.depth {g : Pagegroup} (h : Fresh g) (x : ℕ) :
    depth g.freeBlocks x = if g.baseaddr ≤ x ∧ x < g.endaddr then 1 else 0 := by
  have hle : g.npages / 2 ^ (PAGE_NSIZES - 1) * 2 ^ (PAGE_NSIZES - 1) * PAGE_SIZE ≤
      g.npages * PAGE_SIZE :=
    Nat.mul_le_mul_right _ (Nat.div_mul_le_self _ _)
  have hsize : g.npages / 2 ^ (PAGE_NSIZES - 1) * blockSize (PAGE_NSIZES - 1) =
      g.npages / 2 ^ (PAGE_NSIZES - 1) * 2 ^ (PAGE_NSIZES - 1) * PAGE_SIZE := by
    rw [blockSize, Nat.mul_assoc]
  have hlarge : Cover.depth ((g.freelist (PAGE_NSIZES - 1)).map
      fun a => (a, blockSize (PAGE_NSIZES - 1))) x =
      if g.baseaddr ≤ x ∧
        x < g.baseaddr + g.npages / 2 ^ (PAGE_NSIZES - 1) * 2 ^ (PAGE_NSIZES - 1) * PAGE_SIZE
      then 1 else 0 := by
    rw [h.large, map_reverse, depth_perm (reverse_perm _), map_map]
    refine (depth_consecutive _ _ _ x).trans ?_
    rw [hsize]
  have hrange : List.range PAGE_NSIZES = List.range (PAGE_NSIZES - 1) ++ [PAGE_NSIZES - 1] := rfl
  rw [freeBlocks, hrange, flatMap_append, depth_append,
    h.depth_small x (by decide), flatMap_singleton, hlarge]
  have hstop := h.stop
  generalize g.npages / 2 ^ (PAGE_NSIZES - 1) * 2 ^ (PAGE_NSIZES - 1) * PAGE_SIZE = m at hle ⊢
  split_ifs <;> omega

theorem npages_eq {start stop : ℕ} (h : start ≤ stop) (hlt : stop < 2 ^ 32) :
    wordSub stop start >>> PAGE_SHIFT = (stop - start) / PAGE_SIZE := by
  rw [wordSub_of_le h hlt, Nat.shiftRight_eq_div_pow]
  rfl

section
variable {mem : ℕ → Bool} {start stop : ℕ} (hstart : PAGE_SIZE ∣ start) (hstop : PAGE_SIZE ∣ stop) (hle : start ≤ stop)
  (hlt : stop < 2 ^ 32) (h : start < (pagegroupCreate mem start stop).endaddr)
  (hwhole : 2 ^ (PAGE_NSIZES - 1) ∣ (pagegroupCreate mem start stop).npages)
include hstart hstop hle hlt h hwhole

/-- A range that yields a whole number of largest blocks holds at least one page, and
its maps do not wrap around. -/
theorem create_room : pagegroupSize + (stop - start) / PAGE_SIZE ≤ stop := by
  rcases Nat.eq_zero_or_pos ((stop - start) / PAGE_SIZE) with h0 | h1
  · exfalso
    obtain rfl : start = stop := by
      have := Nat.div_mul_cancel (Nat.dvd_sub hstop hstart)
      rw [h0] at this
      omega
    have hres : reserved 0 (PAGE_NSIZES - 1) = 0 := by
      exact Nat.le_zero.1 ((Nat.le_add_right _ _).trans
        (reserved_le (by norm_num) (PAGE_NSIZES - 1)))
    have hend : (pagegroupCreate mem start start).endaddr =
        pageAlignDown (wordSub start pagegroupSize) := by
      have := (foldl_reserveMap mem (fun _ => 0) (PAGE_NSIZES - 1)
        (hres.le.trans (Nat.zero_le _)) (wordSub_lt start pagegroupSize)).1
      rw [hres, Nat.sub_zero] at this
      rw [← this, ← reserveMaps, ← Nat.zero_shiftRight PAGE_SHIFT, ← Nat.sub_self start,
        ← wordSub_of_le le_rfl hlt]
      rfl
    rw [hend] at h
    rcases Nat.eq_zero_or_pos start with rfl | hs
    · rw [Pagegroup.npages, hend] at hwhole
      change 2 ^ (PAGE_NSIZES - 1) ∣ (pageAlignDown (wordSub 0 pagegroupSize) - 0) / PAGE_SIZE at hwhole
      revert hwhole
      decide +kernel
    have hle := pageAlignDown_le (wordSub start pagegroupSize)
    rw [wordSub_of_le (by simp only [PAGE_SIZE, PAGE_SHIFT, pagegroupSize] at *; omega) hlt] at hle
    rw [wordSub_of_le (by simp only [PAGE_SIZE, PAGE_SHIFT, pagegroupSize] at *; omega) hlt] at h
    omega
  · have := Nat.div_mul_le_self (stop - start) PAGE_SIZE
    generalize (stop - start) / PAGE_SIZE = n at h1 this ⊢
    simp only [PAGE_SIZE, PAGE_SHIFT, pagegroupSize] at *
    omega

/-- Where the maps of such a range lie: one below the other, and all clear. -/
theorem create_maps :
    (pagegroupCreate mem start stop).endaddr ≤ stop ∧
    ∃ n top, n < 2 ^ 20 ∧ reserved n (PAGE_NSIZES - 1) ≤ top ∧
      (pagegroupCreate mem start stop).npages ≤ n ∧
      ∀ k, 1 ≤ k → k ≤ PAGE_NSIZES - 1 →
        (pagegroupCreate mem start stop).map k = top - reserved n k ∧
        ∀ i < 8 * mapBytes n k,
          (pagegroupCreate mem start stop).mem (8 * (top - reserved n k) + i) = false := by
  have hroom := create_room hstart hstop hle hlt h hwhole
  have hnlt : (stop - start) / PAGE_SIZE < 2 ^ 20 := by
    rw [PAGE_SIZE, PAGE_SHIFT]
    omega
  have hdiv : ∀ e, e ≤ stop → (e - start) / PAGE_SIZE ≤ (stop - start) / PAGE_SIZE :=
    fun e he => Nat.div_le_div_right (Nat.sub_le_sub_right he _)
  have hmap : (pagegroupCreate mem start stop).map =
      (reserveMaps mem (wordSub stop start >>> PAGE_SHIFT) stop).2.1 := rfl
  have hmem : (pagegroupCreate mem start stop).mem =
      (reserveMaps mem (wordSub stop start >>> PAGE_SHIFT) stop).1 := rfl
  have hend : (pagegroupCreate mem start stop).endaddr =
      pageAlignDown (reserveMaps mem (wordSub stop start >>> PAGE_SHIFT) stop).2.2 := rfl
  have hpages := npages_eq hle hlt
  generalize hn : (stop - start) / PAGE_SIZE = n at hroom hnlt hpages hdiv
  have hres : reserved n (PAGE_NSIZES - 1) ≤ n :=
    (Nat.le_add_right _ _).trans (reserved_le hnlt _)
  have hsize : wordSub stop pagegroupSize = stop - pagegroupSize :=
    wordSub_of_le (by omega) hlt
  have hmaps := foldl_reserveMap mem (fun _ => 0) (PAGE_NSIZES - 1)
    (show reserved n (PAGE_NSIZES - 1) ≤ wordSub stop pagegroupSize by omega) (wordSub_lt _ _)
  rw [← reserveMaps, hsize] at hmaps
  rw [hpages] at hmap hmem hend
  have hendle : (pagegroupCreate mem start stop).endaddr ≤ stop := by
    rw [hend, hmaps.1]
    exact (pageAlignDown_le _).trans (by omega)
  refine ⟨hendle, n, stop - pagegroupSize, hnlt, by omega, hdiv _ hendle, fun k h1 h2 => ?_⟩
  rw [hmap, hmem]
  exact hmaps.2 k h1 h2

/-- A range that yields a whole number of largest blocks is created in order. -/
theorem create_inv : (pagegroupCreate mem start stop).Core ∧ (pagegroupCreate mem start stop).Lone := by
  have hf := fresh_create hstart h
  obtain ⟨-, n, top, hn, htop, hpages, hmaps⟩ := create_maps hstart hstop hle hlt h hwhole
  set g := pagegroupCreate mem start stop with hg
  have hsmall : ∀ k < PAGE_NSIZES - 1, g.freelist k = [] := by
    intro k hk
    obtain ⟨m, hm⟩ := hwhole
    rw [hf.small k hk, hm, Nat.testBit_two_pow_mul, decide_eq_false (by omega)]
    rfl
  have hpair : ∀ k < PAGE_NSIZES - 1, ∀ j, g.pairCount k j = 0 := by
    intro k hk j
    rw [Pagegroup.pairCount, hsmall k hk]
    rfl
  have hbytes : ∀ k, g.npages / 2 ^ k ≤ 8 * mapBytes n k := by
    intro k
    have := Nat.div_le_div_right (c := 2 ^ k) hpages
    rw [mapBytes_eq hn]
    omega
  refine ⟨⟨⟨hf.base, hf.stop, hf.lt, hwhole, ?_⟩, ?_, ?_⟩, fun k hk j => ?_⟩
  · intro k k' h1 hkk hk'
    have hsucc := reserved_succ n (k' - 1)
    rw [Nat.sub_add_cancel (by omega)] at hsucc
    have hmono := reserved_mono n (show k ≤ k' - 1 by omega)
    have hmono' := reserved_mono n (show k' ≤ PAGE_NSIZES - 1 by omega)
    have := hbytes k'
    rw [(hmaps k h1 (by omega)).1, (hmaps k' (by omega) (by omega)).1]
    omega
  · intro k hk a ha
    rcases Nat.lt_or_ge k (PAGE_NSIZES - 1) with hk' | hk'
    · rw [hsmall k hk'] at ha
      cases ha
    obtain rfl : k = PAGE_NSIZES - 1 := by omega
    rw [hf.large, mem_reverse, mem_map] at ha
    obtain ⟨i, hi, rfl⟩ := ha
    refine ⟨i, rfl, ?_⟩
    exact (Nat.mul_le_mul_right _ (mem_range.1 hi)).trans (Nat.div_mul_le_self _ _)
  · intro k hk j hj
    obtain ⟨h1, h2⟩ := hmaps (k + 1) (by omega) (by omega)
    have hj' : j + 1 ≤ g.npages / 2 ^ (k + 1) := (Nat.le_div_iff_mul_le (by positivity)).2 hj
    have := hbytes (k + 1)
    rw [Pagegroup.bitCheck, h1, h2 j (by omega), hpair k hk]
    rfl
  · rw [hpair k hk]
    exact Nat.zero_le 1

end

end Weenix.Page
