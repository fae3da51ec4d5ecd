import Mathlib.Tactic

/-! Lists of intervals `(start, length)` that tile a set of naturals. A tiling is
stated by counting: every point of the set lies in exactly one interval of the list
and no other point lies in any. Cutting an interval in two, joining two neighbours and
reordering the list leave the counts as they are, so an allocator that only does these
keeps its tiling without any argument about pairs. -/

namespace Cover

open List

def Covers (x : ℕ) (b : ℕ × ℕ) : Prop := b.1 ≤ x ∧ x < b.1 + b.2

instance (x : ℕ) (b : ℕ × ℕ) : Decidable (Covers x b) := inferInstanceAs (Decidable (_ ∧ _))

/-- How many intervals of the list the point lies in. -/
def depth (l : List (ℕ × ℕ)) (x : ℕ) : ℕ := l.countP (Covers x ·)

def Disjoint (b c : ℕ × ℕ) : Prop := ∀ x, ¬ (Covers x b ∧ Covers x c)

structure Tiles (l : List (ℕ × ℕ)) (A : ℕ → Prop) : Prop where
  inside : ∀ x, A x → depth l x = 1
  outside : ∀ x, ¬ A x → depth l x = 0

@[simp] theorem depth_nil (x : ℕ) : depth [] x = 0 := rfl

theorem depth_cons (b : ℕ × ℕ) (l : List (ℕ × ℕ)) (x : ℕ) :
    depth (b :: l) x = depth l x + if Covers x b then 1 else 0 := by
  simp [depth, countP_cons]

theorem depth_append (l m : List (ℕ × ℕ)) (x : ℕ) : depth (l ++ m) x = depth l x + depth m x :=
  countP_append

theorem depth_perm {l m : List (ℕ × ℕ)} (h : l.Perm m) (x : ℕ) : depth l x = depth m x :=
  h.countP_eq _

/-- Cutting an interval changes no count. -/
theorem depth_cut (a m n : ℕ) (l : List (ℕ × ℕ)) (x : ℕ) :
    depth ((a, m + n) :: l) x = depth ((a, m) :: (a + m, n) :: l) x := by
  have h : (if Covers x (a, m + n) then 1 else 0) =
      (if Covers x (a, m) then 1 else 0) + if Covers x (a + m, n) then 1 else 0 := by
    have h1 : Covers x (a, m + n) ↔ Covers x (a, m) ∨ Covers x (a + m, n) := by
      simp only [Covers]; omega
    have h2 : ¬ (Covers x (a, m) ∧ Covers x (a + m, n)) := by
      simp only [Covers]; omega
    by_cases hl : Covers x (a, m) <;> by_cases hr : Covers x (a + m, n) <;> simp_all
  simp only [depth_cons, h]
  omega

theorem Tiles.depth_le {l : List (ℕ × ℕ)} {A : ℕ → Prop} (h : Tiles l A) (x : ℕ) : depth l x ≤ 1 := by
  by_cases hx : A x
  · exact (h.inside x hx).le
  · exact (h.outside x hx).trans_le (Nat.zero_le 1)

theorem Tiles.exists_cover {l : List (ℕ × ℕ)} {A : ℕ → Prop} (h : Tiles l A) {x : ℕ}
    (hx : A x) : ∃ b ∈ l, Covers x b := by
  have h1 := h.inside x hx
  have : 0 < l.countP (Covers x ·) := by rw [depth] at h1; omega
  obtain ⟨b, hb, hc⟩ := countP_pos_iff.1 this
  exact ⟨b, hb, by simpa using hc⟩

/-- Two occurrences of the list never share a point. -/
theorem pairwise_of_depth_le {l : List (ℕ × ℕ)} (h : ∀ x, depth l x ≤ 1) : l.Pairwise Disjoint := by
  induction l with
  | nil => exact List.Pairwise.nil
  | cons b l ih =>
    have hl : ∀ x, depth l x ≤ 1 := fun x => by
      have := h x
      rw [depth_cons] at this
      omega
    refine List.Pairwise.cons (fun c hc x hx => ?_) (ih hl)
    have h0 := h x
    rw [depth_cons, if_pos hx.1] at h0
    have : 0 < l.countP (Covers x ·) := countP_pos_iff.2 ⟨c, hc, by simpa using hx.2⟩
    rw [depth] at h0
    omega

theorem Tiles.pairwise {l : List (ℕ × ℕ)} {A : ℕ → Prop} (h : Tiles l A) : l.Pairwise Disjoint :=
  pairwise_of_depth_le h.depth_le

theorem Disjoint.symm {b c : ℕ × ℕ} (h : Disjoint b c) : Disjoint c b :=
  fun x hx => h x hx.symm

instance : Std.Symm Disjoint := ⟨fun _ _ => Disjoint.symm⟩

/-- In a list that covers no point twice, one point determines the interval. -/
theorem eq_of_covers {l : List (ℕ × ℕ)} (h : l.Pairwise Disjoint) {b c : ℕ × ℕ} (hb : b ∈ l)
    (hc : c ∈ l) {x : ℕ} (hxb : Covers x b) (hxc : Covers x c) : b = c := by
  by_contra hne
  exact h.forall hb hc hne x ⟨hxb, hxc⟩

/-- Consecutive intervals of one length cover what they span exactly once. -/
theorem depth_consecutive (a n m x : ℕ) : depth ((List.range m).map fun i => (a + i * n, n)) x =
      if a ≤ x ∧ x < a + m * n then 1 else 0 := by
  induction m with
  | zero =>
    rw [if_neg (by omega)]
    rfl
  | succ m ih =>
    rw [range_succ, map_append, depth_append, ih, map_singleton, depth_cons,
      depth_nil, Nat.succ_mul]
    have hc : Covers x (a + m * n, n) ↔ a + m * n ≤ x ∧ x < a + m * n + n := Iff.rfl
    rw [if_congr hc rfl rfl]
    split_ifs <;> omega

/-! ### Total length -/

def total (l : List (ℕ × ℕ)) : ℕ := (l.map Prod.snd).sum

theorem total_append (l m : List (ℕ × ℕ)) : total (l ++ m) = total l + total m := by
  simp [total]

theorem sum_covers {M : ℕ} (b : ℕ × ℕ) (hb : b.1 + b.2 ≤ M) :
    ∑ x ∈ Finset.range M, (if Covers x b then 1 else 0) = b.2 := by
  have : (Finset.range M).filter (fun x => Covers x b) = Finset.Ico b.1 (b.1 + b.2) := by
    ext x
    rw [Finset.mem_filter, Finset.mem_range, Finset.mem_Ico, Covers]
    omega
  simp [this]

/-- Counting the points of a list of intervals point by point. -/
theorem total_eq_sum {l : List (ℕ × ℕ)} {M : ℕ} (h : ∀ b ∈ l, b.1 + b.2 ≤ M) :
    total l = ∑ x ∈ Finset.range M, depth l x := by
  induction l with
  | nil => simp [total]
  | cons b l ih =>
    simp only [depth_cons, Finset.sum_add_distrib]
    rw [sum_covers b (h b mem_cons_self), ← ih fun c hc => h c (mem_cons_of_mem _ hc)]
    simp [total, Nat.add_comm]

theorem exists_bound (l : List (ℕ × ℕ)) : ∃ M, ∀ b ∈ l, b.1 + b.2 ≤ M := by
  induction l with
  | nil => exact ⟨0, by simp⟩
  | cons b l ih =>
    obtain ⟨M, hM⟩ := ih
    refine ⟨max M (b.1 + b.2), fun c hc => ?_⟩
    rcases mem_cons.1 hc with rfl | hc
    · exact le_max_right _ _
    · exact (hM c hc).trans (le_max_left _ _)

/-- Lists that cover every point equally often have the same total length. -/
theorem total_congr {l m : List (ℕ × ℕ)} (h : ∀ x, depth l x = depth m x) : total l = total m := by
  obtain ⟨M, hM⟩ := exists_bound (l ++ m)
  rw [total_eq_sum fun b hb => hM b (mem_append_left _ hb),
    total_eq_sum fun b hb => hM b (mem_append_right _ hb)]
  exact Finset.sum_congr rfl fun x _ => h x

theorem total_le {l : List (ℕ × ℕ)} {M : ℕ} (hd : ∀ x, depth l x ≤ 1)
    (hM : ∀ b ∈ l, b.1 + b.2 ≤ M) : total l ≤ M := by
  rw [total_eq_sum hM]
  calc ∑ x ∈ Finset.range M, depth l x ≤ ∑ _x ∈ Finset.range M, 1 :=
        Finset.sum_le_sum fun x _ => hd x
    _ = M := by simp

/-! ### Rows -/

/-- The intervals lie one behind the other, without gaps, from the first point to the second. -/
def Row : ℕ → List (ℕ × ℕ) → ℕ → Prop
  | a, [], b => a = b
  | a, r :: l, b => r.1 = a ∧ Row (a + r.2) l b

theorem Row.append {l1 l2 : List (ℕ × ℕ)} {a b c : ℕ} (h1 : Row a l1 b) (h2 : Row b l2 c) :
    Row a (l1 ++ l2) c := by
  induction l1 generalizing a with
  | nil =>
    obtain rfl : a = b := h1
    exact h2
  | cons r l1 ih => exact ⟨h1.1, ih h1.2⟩

theorem Row.le {l : List (ℕ × ℕ)} {a b : ℕ} (h : Row a l b) : a ≤ b := by
  induction l generalizing a with
  | nil => exact Nat.le_of_eq h
  | cons r l ih => exact (Nat.le_add_right a r.2).trans (ih h.2)

theorem Row.inside {l : List (ℕ × ℕ)} {a b : ℕ} (h : Row a l b) : ∀ r ∈ l, a ≤ r.1 ∧ r.1 + r.2 ≤ b := by
  induction l generalizing a with
  | nil => exact fun r hr => by cases hr
  | cons r l ih =>
    intro r' hr'
    rcases mem_cons.1 hr' with rfl | hr'
    · exact ⟨h.1.ge, h.1 ▸ h.2.le⟩
    have := ih h.2 r' hr'
    exact ⟨by omega, this.2⟩

theorem Row.apart {l : List (ℕ × ℕ)} {a b : ℕ} (h : Row a l b) : l.Pairwise fun r r' => r.1 + r.2 ≤ r'.1 := by
  induction l generalizing a with
  | nil => exact List.Pairwise.nil
  | cons r l ih => exact .cons (fun r' hr' => h.1 ▸ (h.2.inside r' hr').1) (ih h.2)

end Cover
