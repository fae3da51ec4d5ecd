import Weenix.Lib.Exec
import Weenix.Lib.Run
import Weenix.Proofs.PtWalk

/-! Several page directories as maps from user pages to frames and flags. Every table belongs
to one directory, so that a store into it is seen through one entry of that directory only. -/

namespace Weenix.Pt

open List
open Weenix.Page (PAGE_SHIFT PAGE_SIZE pageAlignDown)
open Function Exec Runs

def UserPage (v : ℕ) : Prop := v % PAGE_SIZE = 0 ∧ USER_MEM_LOW ≤ v ∧ v < USER_MEM_HIGH

instance (v : ℕ) : Decidable (UserPage v) := inferInstanceAs (Decidable (_ ∧ _))

/-- The page that `pt_phys_tmp_map` maps, the last one of the address space. -/
def TmpPage (v : ℕ) : Prop :=
  vaddrToPdindex v = PT_ENTRY_COUNT - 1 ∧ vaddrToPtindex v = PT_ENTRY_COUNT - 1

/-- The template directory, the memory when it is made, and the pages that the page allocator gives
out. The template has no user entries, and the kernel part of it maps these pages, each at a frame of
its own, none of which holds a table of that part. The table of the temporary mapping is one of the
kernel's pages, and the last entry alone leads to it. -/
structure Template where
  dir : Pagedir
  mem : Frames
  pages : Set ℕ
  user : ∀ i, UserIndex i → present (dir.physical i) = false
  aligned : ∀ p ∈ pages, p % PAGE_SIZE = 0
  mapped : ∀ p, p ∈ pages ∨ p = dir.finalPage → vaddrToPdindex p ≠ PT_ENTRY_COUNT - 1 ∧
    ¬ UserIndex (vaddrToPdindex p) ∧ present (dir.physical (vaddrToPdindex p)) = true
  inj : ∀ p ∈ pages, ∀ p' ∈ pages, frameOf dir mem p = frameOf dir mem p' → p = p'
  apart : ∀ p ∈ pages, ∀ i, ¬ UserIndex i → present (dir.physical i) = true → dir.frame i ≠ frameOf dir mem p
  final : present (dir.physical (PT_ENTRY_COUNT - 1)) = true ∧
    frameOf dir mem dir.finalPage = dir.frame (PT_ENTRY_COUNT - 1)
  single : ∀ i, ¬ UserIndex i → present (dir.physical i) = true →
    dir.frame i = dir.frame (PT_ENTRY_COUNT - 1) → i = PT_ENTRY_COUNT - 1

def frameAndFlags (entry : ℕ) : ℕ × ℕ := (pageAlignDown entry, entry % PAGE_SIZE)

/-- For each directory, what each page was mapped to last. -/
abbrev Maps := ℕ → ℕ → Option (ℕ × ℕ)

def Maps.next (M : Maps) : Event × Outcome → Maps
  | (.create (some d), _) => update M d fun _ => none
  | (.map _ d vaddr paddr _ ptflags _, out) =>
    if out.result = 0 then update M d (update (M d) vaddr (some (paddr, ptflags))) else M
  | (.unmap _ d vaddr, _) => update M d (update (M d) vaddr none)
  | _ => M

def Event.subject : Event → Option ℕ
  | .create page => page
  | .map _ d .. | .unmap _ d _ | .destroy d => some d
  | .other _ => none

/-- The page `p` is the user table with index `i`. -/
def Pagedir.Table (pd : Pagedir) (i p : ℕ) : Prop :=
  UserIndex i ∧ present (pd.physical i) = true ∧ pd.virtual i = p

/-- The tables of the kernel part are the same in both memories, up to the temporary mapping. -/
def KernelSame (T : Template) (m m' : Frames) : Prop :=
  ∀ i j, ¬ UserIndex i → present (T.dir.physical i) = true →
    ¬ (i = PT_ENTRY_COUNT - 1 ∧ j = PT_ENTRY_COUNT - 1) → m' (T.dir.frame i) j = m (T.dir.frame i) j

section
variable (T : Template)

def Template.phys (p : ℕ) : ℕ := frameOf T.dir T.mem p

/-- What the page allocator, the callers and the rest of the system keep to: pages that are given
out are in no use, flags are flags, and nobody else writes into the tables. -/
def Fair (s : Sys) : Event → Prop
  | .create page => ∀ p ∈ page, ∀ q ∈ [p, p + PAGE_SIZE], q ∈ T.pages ∧ s.owner q = none
  | .map _ _ _ _ pdflags _ page => present pdflags = true ∧ pdflags % PAGE_SIZE = pdflags ∧
    ∀ p ∈ page, p ∈ T.pages ∧ s.owner p = none
  | .unmap .. | .destroy _ => True
  | .other mem => KernelSame T s.mem mem ∧ ∀ p d, s.owner p = some d → mem (T.phys p) = s.mem (T.phys p)

def Step (s : Sys) (e : Event × Outcome) (s' : Sys) : Prop :=
  Fair T s e.1 ∧ step T.dir s e.1 = .ok (s', e.2)

/-- One directory: its kernel part is that of the template, its tables are the pages that were
given out for it behind its own two, and the walk ends at what was mapped last. -/
structure DirInv (M : Maps) (s : Sys) (d : ℕ) (pd : Pagedir) : Prop where
  kernel : ∀ i, ¬ UserIndex i → pd.physical i = T.dir.physical i
  table : ∀ i p, pd.Table i p → pd.frame i = T.phys p ∧ p ≠ d ∧ p ≠ d + PAGE_SIZE
  inj : ∀ i j p, pd.Table i p → pd.Table j p → i = j
  owned : ∀ p, s.owner p = some d ↔ p = d ∨ p = d + PAGE_SIZE ∨ ∃ i, pd.Table i p
  entry : ∀ v, UserPage v → frameAndFlags (entryOf s.mem pd v) = (M d v).getD (0, 0)

structure DirsInv (M : Maps) (s : Sys) : Prop where
  kernel : KernelSame T T.mem s.mem
  pages : ∀ p d, s.owner p = some d → p ∈ T.pages
  dead : ∀ d, s.dirs d = none → ∀ p, s.owner p ≠ some d
  dirs : ∀ d pd, s.dirs d = some pd → DirInv T M s d pd

end

/-- What a step leaves to the directories other than `d`: all but the temporary mapping. -/
structure Spares (d : ℕ) (s s' : Sys) : Prop where
  dirs : ∀ d' ≠ d, s'.dirs d' = s.dirs d'
  owner : ∀ d' ≠ d, ∀ p, s'.owner p = some d' ↔ s.owner p = some d'
  entry : ∀ d' ≠ d, ∀ pd, s.dirs d' = some pd → ∀ v, ¬ TmpPage v → entryOf s'.mem pd v = entryOf s.mem pd v

variable {T : Template} {cur pd pd' : Pagedir} {m m' : Frames} {M M' : Maps} {s s' : Sys} {d d' v w p i : ℕ} {c : Option ℕ}

theorem UserPage.index (hv : UserPage v) : UserIndex (vaddrToPdindex v) := by
  obtain ⟨-, h1, h2⟩ := hv
  simp only [USER_MEM_LOW, USER_MEM_HIGH] at h1 h2
  rw [UserIndex, vaddrToPdindex_eq (by omega)]
  omega

theorem UserPage.not_tmp (hv : UserPage v) : ¬ TmpPage v := by
  intro ht
  have hi := hv.index.2
  rw [ht.1] at hi
  exact absurd hi (by decide)

/-- The indices of a page determine it. -/
theorem UserPage.eq (hv : UserPage v) (hw : UserPage w) (h1 : vaddrToPdindex v = vaddrToPdindex w)
    (h2 : vaddrToPtindex v = vaddrToPtindex w) : v = w := by
  obtain ⟨h3, -, h4⟩ := hv
  obtain ⟨h5, -, h6⟩ := hw
  simp only [PAGE_SIZE, PAGE_SHIFT, USER_MEM_HIGH] at h3 h4 h5 h6
  rw [vaddrToPdindex_eq (by omega), vaddrToPdindex_eq (by omega)] at h1
  rw [vaddrToPtindex_eq (by omega), vaddrToPtindex_eq (by omega)] at h2
  omega

theorem frameAndFlags_or {paddr flags : ℕ} (hp : paddr % PAGE_SIZE = 0) (hf : flags % PAGE_SIZE = flags) :
    frameAndFlags (paddr ||| flags) = (paddr, flags) := by
  rw [frameAndFlags, pageAlignDown_or hf, pageAlignDown_of_aligned hp, or_mod_pageSize hp hf]

theorem phys_aligned : T.phys p % PAGE_SIZE = 0 := Nat.mul_mod_left _ _

theorem KernelSame.refl : KernelSame T m m := fun _ _ _ _ _ => rfl

theorem KernelSame.trans {m1 : Frames} (h : KernelSame T m m1) (h' : KernelSame T m1 m') :
    KernelSame T m m' :=
  fun i j hi hp ht => (h' i j hi hp ht).trans (h i j hi hp ht)

theorem DirInv.owner_table (h : DirInv T M s d pd) (hp : pd.Table i p) : s.owner p = some d :=
  (h.owned p).2 (.inr (.inr ⟨i, hp⟩))

theorem DirInv.congr (h : DirInv T M s d pd) (howner : ∀ p, s'.owner p = some d ↔ s.owner p = some d)
    (hM : M' d = M d) (hentry : ∀ v, ¬ TmpPage v → entryOf s'.mem pd v = entryOf s.mem pd v) :
    DirInv T M' s' d pd :=
  ⟨h.kernel, h.table, h.inj, fun p => (howner p).trans (h.owned p),
    fun v hv => by rw [hentry v hv.not_tmp, hM, h.entry v hv]⟩

namespace DirsInv

theorem current_kernel (h : DirsInv T M s) (hc : s.current T.dir c = some cur)
    (hi : ¬ UserIndex i) : cur.physical i = T.dir.physical i := by
  cases c with
  | none =>
    cases hc
    rfl
  | some c => exact (h.dirs c cur hc).kernel i hi

section
variable (h : DirsInv T M s)
  (hc : s.current T.dir c = some cur) (hm : KernelSame T s.mem m)
include h hc hm

/-- The kernel part translates its addresses whichever directory is in use. -/
theorem translate (hp : p ∈ T.pages ∨ p = T.dir.finalPage) : frameOf cur m p = T.phys p := by
  obtain ⟨hlast, hu, hpres⟩ := T.mapped p hp
  exact frameOf_congr (h.current_kernel hc hu)
    ((h.kernel.trans hm) _ _ hu hpres fun htmp => hlast htmp.1)

/-- `pt_virt_to_phys` of a page of the allocator leaves the table that maps it in the temporary
mapping. -/
theorem ptVirtToPhys_eq (hp : p ∈ T.pages) : ∃ e, ptVirtToPhys cur T.dir.finalPage m p =
    .ok (T.phys p, setWord m (T.dir.frame (PT_ENTRY_COUNT - 1)) (PT_ENTRY_COUNT - 1) e) := by
  obtain ⟨hlast, hu, hpres⟩ := T.mapped p (.inl hp)
  have huLast : ¬ UserIndex (PT_ENTRY_COUNT - 1) := fun hu => absurd hu.2 (by decide)
  have hkernel : pageAlignDown (cur.physical (vaddrToPdindex p)) = T.dir.frame (vaddrToPdindex p) := by
    rw [h.current_kernel hc hu, Pagedir.frame]
  have hfinal : frameOf cur m T.dir.finalPage = T.dir.frame (PT_ENTRY_COUNT - 1) :=
    (h.translate hc hm (.inr rfl)).trans T.final.2
  have htable : T.dir.frame (vaddrToPdindex p) % PAGE_SIZE = 0 := Nat.mul_mod_left _ _
  set e := T.dir.frame (vaddrToPdindex p) ||| PT_PRESENT ||| PT_WRITE with he
  -- the temporary mapping leads to the table that was entered
  have htmp : frameOf cur (setWord m (T.dir.frame (PT_ENTRY_COUNT - 1)) (PT_ENTRY_COUNT - 1) e)
      (2 ^ 32 - PAGE_SIZE) = T.dir.frame (vaddrToPdindex p) := by
    have hd : vaddrToPdindex (2 ^ 32 - PAGE_SIZE) = PT_ENTRY_COUNT - 1 := by decide
    have ht : vaddrToPtindex (2 ^ 32 - PAGE_SIZE) = PT_ENTRY_COUNT - 1 := by decide
    rw [frameOf, hd, ht, h.current_kernel hc huLast, ← Pagedir.frame, setWord_same, if_pos rfl, he,
      pageAlignDown_or (by decide), pageAlignDown_or (by decide), pageAlignDown_of_aligned htable]
  have hpage : pageAlignDown (m (T.dir.frame (vaddrToPdindex p)) (vaddrToPtindex p)) = T.phys p := by
    rw [← hkernel]
    exact h.translate hc hm (.inl hp)
  have hoffset : vaddrToOffset p = 0 := by
    have hal := T.aligned p hp
    simp only [vaddrToOffset, Page.word, PAGE_SIZE, PAGE_SHIFT] at hal ⊢
    omega
  refine ⟨e, ?_⟩
  simp only [ptVirtToPhys, ptPhysTmpMap, hkernel, if_pos htable, hfinal, ok_bind, ← he, htmp, hoffset,
    setWord_of_ne fun hf => hlast (T.single _ hu hpres hf), hpage, Nat.add_zero, pure, Except.pure]

end

/-- The frames of the tables that a directory has are those of the kernel part and of its pages. -/
theorem entryOf_same (h : DirsInv T M s) (hd : s.dirs d = some pd)
    (hk : KernelSame T s.mem m) (hv : ¬ TmpPage v)
    (hm : ∀ p, pd.Table (vaddrToPdindex v) p → s.owner p = some d → m (T.phys p) = s.mem (T.phys p)) :
    entryOf m pd v = entryOf s.mem pd v := by
  have hD := h.dirs d pd hd
  refine entryOf_congr rfl fun hpres => ?_
  by_cases hu : UserIndex (vaddrToPdindex v)
  · have hT : pd.Table _ _ := ⟨hu, hpres, rfl⟩
    rw [(hD.table _ _ hT).1, hm _ hT (hD.owner_table hT)]
  have he := hD.kernel _ hu
  rw [Pagedir.frame, he]
  exact hk _ _ hu (he ▸ hpres) hv

/-- A step about `d` alone. -/
theorem replace (h : DirsInv T M s) (hs : Spares d s s') (hM : ∀ d' ≠ d, M' d' = M d')
    (hk : KernelSame T s.mem s'.mem)
    (hpages : ∀ p d, s'.owner p = some d → p ∈ T.pages) (hdead : s'.dirs d = none → ∀ p, s'.owner p ≠ some d)
    (hdir : ∀ pd, s'.dirs d = some pd → DirInv T M' s' d pd) : DirsInv T M' s' := by
  refine ⟨h.kernel.trans hk, hpages, fun d' hd' p hp => ?_, fun d' pd hpd => ?_⟩
  · by_cases he : d' = d
    · exact hdead (he ▸ hd') p (he ▸ hp)
    · exact h.dead d' (hs.dirs d' he ▸ hd') p ((hs.owner d' he p).1 hp)
  by_cases he : d' = d
  · subst he
    exact hdir pd hpd
  · rw [hs.dirs d' he] at hpd
    exact (h.dirs d' pd hpd).congr (hs.owner d' he) (hM d' he) (hs.entry d' he pd hpd)

end DirsInv

/-- An entry of a table of `d` is written; the table was there, or it is a page just taken. -/
structure Writes (T : Template) (s : Sys) (pd : Pagedir) (v : ℕ)
    (x : ℕ × ℕ) (pd' : Pagedir) (m' : Frames) (taken : List ℕ) (p : ℕ) : Prop where
  page : p ∈ T.pages
  user : UserPage v
  mem : ∀ g j, g ≠ T.phys p →
    ¬ (g = T.dir.frame (PT_ENTRY_COUNT - 1) ∧ j = PT_ENTRY_COUNT - 1) → m' g j = s.mem g j
  rest : ∀ i, i ≠ vaddrToPdindex v → pd'.physical i = pd.physical i ∧ pd'.virtual i = pd.virtual i
  table : pd'.Table (vaddrToPdindex v) p ∧ pd'.frame (vaddrToPdindex v) = T.phys p
  entry : ∀ w, vaddrToPdindex w = vaddrToPdindex v → frameAndFlags (entryOf m' pd' w) =
    if vaddrToPtindex w = vaddrToPtindex v then x else frameAndFlags (entryOf s.mem pd w)
  taken : pd.Table (vaddrToPdindex v) p ∧ taken = [] ∨
    present (pd.physical (vaddrToPdindex v)) = false ∧ s.owner p = none ∧ taken = [p]

/-- The entry is the last one mapped, and nobody else sees the table. -/
theorem DirsInv.written (h : DirsInv T M s) (hd : s.dirs d = some pd)
    {x : ℕ × ℕ} {taken : List ℕ} (hw : Writes T s pd v x pd' m' taken p)
    {y : Option (ℕ × ℕ)} (hy : y.getD (0, 0) = x) :
    Spares d s ⟨m', update s.dirs d (some pd'), give s.owner taken (some d)⟩ ∧
      DirsInv T (update M d (update (M d) v y))
        ⟨m', update s.dirs d (some pd'), give s.owner taken (some d)⟩ := by
  have hD := h.dirs d pd hd
  have hkernel : KernelSame T s.mem m' := fun i j hi hp htmp =>
    hw.mem _ j (T.apart p hw.page i hi hp) fun hj => htmp ⟨T.single i hi hp hj.1, hj.2⟩
  have hgive : ∀ q d', give s.owner taken (some d) q = some d' ↔ s.owner q = some d' ∨ q = p ∧ d' = d := by
    intro q d'
    rcases hw.taken with ⟨hT, rfl⟩ | ⟨-, hfree, rfl⟩
    · have := hD.owner_table hT
      simp only [give, not_mem_nil, if_false]
      grind
    · simp only [give, mem_singleton]
      grind
  have hsame : ∀ d' pd1, s.dirs d' = some pd1 → ∀ w, ¬ TmpPage w → ¬ pd1.Table (vaddrToPdindex w) p →
      entryOf m' pd1 w = entryOf s.mem pd1 w := by
    refine fun d' pd1 hpd1 w hw' hT => h.entryOf_same hpd1 hkernel hw' fun q hq hown => ?_
    have hq' := h.pages q d' hown
    refine funext fun j => hw.mem _ j (fun he => hT ?_) fun he => ?_
    · rwa [← T.inj q hq' p hw.page he]
    · exact T.apart q hq' _ (fun hu => absurd hu.2 (by decide)) T.final.1 he.1.symm
  have hother : ∀ d' ≠ d, s.owner p ≠ some d' := by
    intro d' hd'
    rcases hw.taken with ⟨hT, -⟩ | ⟨-, hfree, -⟩
    · rw [hD.owner_table hT]
      exact fun he => hd' (Option.some.inj he).symm
    · simp [hfree]
  have hspares : Spares d s ⟨m', update s.dirs d (some pd'), give s.owner taken (some d)⟩ :=
    ⟨fun d' he => update_of_ne he _ _, fun d' he q => (hgive q d').trans (or_iff_left fun hq => he hq.2),
      fun d' he pd1 hpd1 w hw' => hsame d' pd1 hpd1 w hw' fun hT =>
        hother d' he ((h.dirs d' pd1 hpd1).owner_table hT)⟩
  -- the tables before and after
  have hold : ∀ q, pd.Table (vaddrToPdindex v) q → q = p := by
    rcases hw.taken with ⟨hT, -⟩ | ⟨hno, -⟩
    · exact fun q hq => hq.2.2.symm.trans hT.2.2
    · exact fun q hq => by simp [hq.2.1] at hno
  have hnew : ∀ i q, pd'.Table i q ↔ i = vaddrToPdindex v ∧ q = p ∨ i ≠ vaddrToPdindex v ∧ pd.Table i q := by
    intro i q
    by_cases hi : i = vaddrToPdindex v
    · have hT := hw.table.1
      simp only [hi, Pagedir.Table] at hT ⊢
      grind
    · simp [hi, Pagedir.Table, hw.rest i hi]
  have hindex : ∀ i, pd.Table i p → i = vaddrToPdindex v := by
    intro i hi
    rcases hw.taken with ⟨hT, -⟩ | ⟨-, hfree, -⟩
    · exact hD.inj _ _ p hi hT
    · simp [hD.owner_table hi] at hfree
  have hp0 : p ≠ d ∧ p ≠ d + PAGE_SIZE := by
    rcases hw.taken with ⟨hT, -⟩ | ⟨-, hfree, -⟩
    · exact (hD.table _ _ hT).2
    have := hD.owned p
    grind
  refine ⟨hspares, h.replace hspares (fun d' he => update_of_ne he _ _) hkernel (fun q d' hq => ?_) (by simp)
    fun pd1 hpd1 => ?_⟩
  · rcases (hgive q d').1 hq with hq | ⟨rfl, -⟩
    · exact h.pages q d' hq
    · exact hw.page
  simp only [update_self, Option.some.injEq] at hpd1
  subst hpd1
  refine ⟨fun i hi => ?_, fun i q hT => ?_, fun i j q hi hj => ?_, fun q => ?_, fun w hw' => ?_⟩
  · rw [(hw.rest i fun he => hi (he ▸ hw.user.index)).1, hD.kernel i hi]
  · rcases (hnew i q).1 hT with ⟨rfl, rfl⟩ | ⟨hi, hT⟩
    · exact ⟨hw.table.2, hp0⟩
    rw [Pagedir.frame, (hw.rest i hi).1]
    exact hD.table i q hT
  · have := hD.inj i j q
    grind
  · have := hD.owned q
    have hT := hw.table.1
    grind
  simp only [update_self]
  by_cases hi : vaddrToPdindex w = vaddrToPdindex v
  · rw [hw.entry w hi]
    split_ifs with hj
    · rw [hw'.eq hw.user hi hj, update_self, hy]
    · rw [update_of_ne (a := w) (by grind), hD.entry w hw']
  · have hrest : entryOf m' pd' w = entryOf m' pd w := by simp only [entryOf, (hw.rest _ hi).1]
    rw [hrest, hsame d pd hd w hw'.not_tmp (mt (hindex _) hi), update_of_ne (a := w) (by grind), hD.entry w hw']

/-! ### The calls -/

section
variable (h : DirsInv T M s)
  (hc : s.current T.dir c = some cur) (hd : s.dirs d = some pd)
include h hc hd

/-- A store into a table that is there. -/
theorem DirsInv.setWord (hv : UserPage v) (hp : present (pd.physical (vaddrToPdindex v)) = true) {pdflags e : ℕ}
    (hf : pdflags % PAGE_SIZE = pdflags) :
    Writes T s pd v (frameAndFlags e)
      { pd with physical := update pd.physical (vaddrToPdindex v) (pd.physical (vaddrToPdindex v) ||| pdflags) }
      (setWord s.mem (frameOf cur s.mem (pd.virtual (vaddrToPdindex v))) (vaddrToPtindex v) e) []
      (pd.virtual (vaddrToPdindex v)) := by
  have hD := h.dirs d pd hd
  have hT : pd.Table (vaddrToPdindex v) (pd.virtual (vaddrToPdindex v)) := ⟨hv.index, hp, rfl⟩
  have hpage := h.pages _ d (hD.owner_table hT)
  have hframe := (hD.table _ _ hT).1
  rw [h.translate hc .refl (.inl hpage)]
  refine ⟨hpage, hv, fun g j hg _ => by rw [setWord_of_ne hg], fun i hi => ⟨update_of_ne hi _ _, rfl⟩, ⟨⟨hv.index, ?_, rfl⟩, ?_⟩,
    fun w hw => ?_, .inl ⟨hT, rfl⟩⟩
  · simp [present_or, hp]
  · simpa [Pagedir.frame, pageAlignDown_or hf] using hframe
  rw [Pagedir.frame] at hframe
  simp only [entryOf, hw, update_self, present_or, hp, Bool.true_or, if_true, pageAlignDown_or hf, hframe, setWord_same]
  split_ifs <;> rfl

theorem DirsInv.ptMap {paddr pdflags ptflags : ℕ} {page : Option ℕ} {r : ℤ} {taken : List ℕ}
    (hpd : present pdflags = true ∧ pdflags % PAGE_SIZE = pdflags) (hpage : ∀ p ∈ page, p ∈ T.pages ∧ s.owner p = none)
    (hok : ptMap cur T.dir.finalPage s.mem pd v paddr pdflags ptflags page = .ok (r, pd', m', taken)) :
    (r = -ENOMEM ∧ pd' = pd ∧ m' = s.mem ∧ taken = []) ∨
      r = 0 ∧ ∃ p, Writes T s pd v (paddr, ptflags) pd' m' taken p := by
  unfold Pt.ptMap at hok
  by_cases hk : v % PAGE_SIZE = 0 ∧ paddr % PAGE_SIZE = 0 ∧ USER_MEM_LOW ≤ v ∧ v < USER_MEM_HIGH
  swap
  · rw [if_neg hk] at hok
    cases hok
  rw [if_pos hk] at hok
  obtain ⟨hv, ha, hlow, hhigh⟩ := hk
  have hu : UserPage v := ⟨hv, hlow, hhigh⟩
  by_cases hp : present (pd.physical (vaddrToPdindex v)) = true
  · simp only [if_pos hp] at hok
    split_ifs at hok with hf
    cases hok
    rw [← frameAndFlags_or ha hf]
    exact .inr ⟨rfl, _, h.setWord hc hd hu hp hpd.2⟩
  simp only [if_neg hp] at hok
  cases page with
  | none =>
    cases hok
    exact .inl ⟨rfl, rfl, rfl, rfl⟩
  | some p =>
    obtain ⟨hP, hfree⟩ := hpage p rfl
    have hkernel : KernelSame T s.mem (clear s.mem (T.phys p) 0 PT_ENTRY_COUNT) :=
      fun i j hi hp _ => congrFun (clear_of_ne (T.apart p hP i hi hp)) j
    obtain ⟨e, hphys⟩ := h.ptVirtToPhys_eq hc hkernel hP
    have hlast : T.phys p ≠ T.dir.frame (PT_ENTRY_COUNT - 1) :=
      (T.apart p hP _ (fun hu => absurd hu.2 (by decide)) T.final.1).symm
    have hkernel' : KernelSame T s.mem (Pt.setWord (clear s.mem (T.phys p) 0 PT_ENTRY_COUNT)
        (T.dir.frame (PT_ENTRY_COUNT - 1)) (PT_ENTRY_COUNT - 1) e) := by
      refine hkernel.trans fun i j hi hp htmp => ?_
      by_cases hf : T.dir.frame i = T.dir.frame (PT_ENTRY_COUNT - 1)
      · rw [hf, setWord_same, if_neg fun hj => htmp ⟨T.single i hi hp hf, hj⟩]
      · rw [setWord_of_ne hf]
    have htable' := h.translate hc hkernel' (.inl hP)
    simp only [if_pos hpd.2, h.translate hc .refl (.inl hP), hphys, ok_bind] at hok
    split_ifs at hok with hf
    cases hok
    rw [htable']
    have hframe : pageAlignDown (T.phys p ||| pdflags) = T.phys p := by
      rw [pageAlignDown_or hpd.2, pageAlignDown_of_aligned phys_aligned]
    refine .inr ⟨rfl, p, hP, hu, fun g j hg htmp => ?_,
      fun i hi => ⟨update_of_ne hi _ _, update_of_ne hi _ _⟩, ⟨⟨hu.index, ?_, update_self _ _ _⟩, ?_⟩,
      fun w hw => ?_, .inr ⟨by simpa using hp, hfree, rfl⟩⟩
    · rw [setWord_of_ne hg]
      by_cases hF : g = T.dir.frame (PT_ENTRY_COUNT - 1)
      · rw [hF, setWord_same, if_neg fun hj => htmp ⟨hF, hj⟩, clear_of_ne (hF ▸ hg)]
      · rw [setWord_of_ne hF, clear_of_ne hg]
    · simp [Pagedir.setEntry, present_or, hpd.1]
    · simp [Pagedir.setEntry, Pagedir.frame, hframe]
    simp only [entryOf, hw, Pagedir.setEntry, update_self, present_or, hpd.1, Bool.or_true, if_true,
      hframe, setWord_same, setWord_of_ne hlast, clear_same, Nat.zero_le, vaddrToPtindex_lt, and_self,
      if_neg hp]
    split_ifs
    · exact frameAndFlags_or ha hf
    · rfl

/-- Where there is no table, nothing is mapped. -/
theorem DirsInv.ptUnmap (hok : ptUnmap cur s.mem pd v = .ok m') : Spares d s { s with mem := m' } ∧
      DirsInv T (update M d (update (M d) v none)) { s with mem := m' } := by
  unfold Pt.ptUnmap at hok
  dsimp only at hok
  split_ifs at hok with hu hp
  · cases hok
    have hw := h.setWord hc hd hu hp (e := 0) (Nat.zero_mod PAGE_SIZE)
    rw [Nat.or_zero, update_eq_self] at hw
    have := h.written hd hw (y := none) rfl
    rwa [← hd, update_eq_self] at this
  cases hok
  have hD := h.dirs d pd hd
  have hspares : Spares d s s := ⟨fun _ _ => rfl, fun _ _ _ => .rfl, fun _ _ _ _ _ _ => rfl⟩
  refine ⟨hspares, h.replace hspares (fun d' he => update_of_ne he _ _) .refl h.pages
    (fun hn => by simp [hd] at hn) fun pd1 hpd1 => ?_⟩
  obtain rfl : pd = pd1 := Option.some.inj (hd.symm.trans hpd1)
  refine ⟨hD.kernel, hD.table, hD.inj, hD.owned, fun w hw => ?_⟩
  by_cases he : w = v
  · rw [he, update_self, update_self, entryOf, if_neg hp]
    rfl
  · rw [update_self, update_of_ne he, hD.entry w hw]

end

/-- The pages given back are those that were given out. -/
theorem DirInv.destroy (h : DirInv T M s d pd) (hd : d % PAGE_SIZE = 0) :
    ∃ freed, ptDestroyPagedir d pd = .ok freed ∧ freed.Nodup ∧ ∀ p, p ∈ freed ↔ s.owner p = some d := by
  have huser : ∀ i, i ∈ (List.range' 1 767).filter (fun i => present (pd.physical i)) ↔
      pd.Table i (pd.virtual i) := by
    intro i
    simp only [mem_filter, mem_range'_1, Pagedir.Table, UserIndex, and_true]
  refine ⟨_, if_pos hd, nodup_append.2 ⟨?_, by simp [PAGE_SIZE], fun a ha b hb => ?_⟩, fun p => ?_⟩
  · refine List.Nodup.map_on (fun i hi j hj he => ?_) (List.Nodup.filter _ nodup_range')
    exact h.inj i j _ ((huser i).1 hi) (he ▸ (huser j).1 hj)
  · obtain ⟨i, hi, rfl⟩ := mem_map.1 ha
    obtain ⟨-, h1, h2⟩ := h.table i _ ((huser i).1 hi)
    simp only [mem_cons, not_mem_nil, or_false] at hb
    exact hb.elim (· ▸ h1) (· ▸ h2)
  have htable : (∃ i, pd.Table i (pd.virtual i) ∧ pd.virtual i = p) ↔ ∃ i, pd.Table i p :=
    exists_congr fun i => ⟨fun h => h.2 ▸ h.1, fun hT => ⟨hT.2.2 ▸ hT, hT.2.2⟩⟩
  have hmap : p ∈ ((List.range' 1 767).filter fun i => present (pd.physical i)).map pd.virtual ↔
      ∃ i, pd.Table i p := by
    rw [mem_map, ← htable]
    exact exists_congr fun i => and_congr_left fun _ => huser i
  rw [h.owned, mem_append]
  refine (or_congr_left hmap).trans ?_
  simp only [mem_cons, not_mem_nil, or_false]
  exact or_comm.trans or_assoc

/-- What a step leaves to the directories that it is not about. -/
def Event.Spares (e : Event) (s s' : Sys) : Prop :=
  ∀ d pd, e.subject ≠ some d → s.dirs d = some pd → s'.dirs d = some pd ∧
    ∀ v, ¬ TmpPage v → entryOf s'.mem pd v = entryOf s.mem pd v

theorem Spares.event (h : Spares d s s') {e : Event} (he : e.subject = some d) : e.Spares s s' := by
  intro d' pd hd' hpd
  have hne : d' ≠ d := fun h => hd' (h ▸ he)
  exact ⟨(h.dirs d' hne).trans hpd, h.entry d' hne pd hpd⟩

theorem DirsInv.step (h : DirsInv T M s) {e : Event × Outcome} (hs : Step T s e s') :
    DirsInv T (M.next e) s' ∧ e.1.Spares s s' ∧ (e.2.result < 0 → s' = s) := by
  obtain ⟨e, out⟩ := e
  obtain ⟨hfair, hs⟩ := hs
  have hrefl : e.Spares s s := fun _ _ _ hd => ⟨hd, fun _ _ => rfl⟩
  cases e with
  | create page =>
    cases page with
    | none =>
      cases hs
      exact ⟨h, hrefl, fun _ => rfl⟩
    | some d =>
      cases hs
      have hfree := hfair d rfl
      have hgive : ∀ p d', give s.owner [d, d + PAGE_SIZE] (some d) p = some d' ↔
          s.owner p = some d' ∨ d' = d ∧ (p = d ∨ p = d + PAGE_SIZE) := by
        intro p d'
        simp only [give, mem_cons, not_mem_nil, or_false] at hfree ⊢
        grind
      have hspares : Spares d s ⟨s.mem, update s.dirs d (some T.dir), give s.owner [d, d + PAGE_SIZE] (some d)⟩ :=
        ⟨fun d' he => update_of_ne he _ _, fun d' he p => (hgive p d').trans (or_iff_left fun hp => he hp.1),
          fun _ _ _ _ _ _ => rfl⟩
      have hnone : s.dirs d = none := by
        by_contra hn
        obtain ⟨pd, hpd⟩ := Option.ne_none_iff_exists'.1 hn
        have := ((h.dirs d pd hpd).owned d).2 (.inl rfl)
        simp [(hfree d mem_cons_self).2] at this
      have hno : ∀ i p, ¬ T.dir.Table i p := fun i p hT => by simpa [T.user i hT.1] using hT.2.1
      refine ⟨h.replace hspares (fun d' he => update_of_ne he _ _) .refl (fun p d' hp => ?_) (by simp)
        fun pd hpd => ?_, hspares.event rfl, fun hr => absurd hr (by simp)⟩
      · rcases (hgive p d').1 hp with hp | ⟨-, hp⟩
        · exact h.pages p d' hp
        · exact (hfree p (by simpa using hp)).1
      simp only [update_self, Option.some.injEq] at hpd
      subst hpd
      refine ⟨fun _ _ => rfl, fun i p hT => absurd hT (hno i p), fun i _ p hT => absurd hT (hno i p), fun p => ?_,
        fun v hv => ?_⟩
      · have := h.dead d hnone p
        grind
      · simp only [entryOf, T.user _ hv.index, Maps.next, update_self, Bool.false_eq_true, if_false]
        rfl
  | map c d v paddr pdflags ptflags page =>
    rw [Pt.step] at hs
    split at hs
    · next cur pd hc hd =>
      split at hs
      · next r pd' m' taken hok =>
        cases hs
        obtain ⟨hpres, hflags, hpage⟩ := hfair
        rcases h.ptMap hc hd ⟨hpres, hflags⟩ hpage hok with ⟨rfl, rfl, rfl, rfl⟩ | ⟨rfl, p, hw⟩
        · rw [← hd, update_eq_self]
          exact ⟨h, hrefl, fun _ => rfl⟩
        · obtain ⟨hspares, hinv⟩ := h.written hd hw (y := some (paddr, ptflags)) rfl
          exact ⟨hinv, hspares.event rfl, fun hr => absurd hr (lt_irrefl _)⟩
      · cases hs
    · cases hs
  | unmap c d v =>
    rw [Pt.step] at hs
    split at hs
    · next cur pd hc hd =>
      split at hs
      · next m' hok =>
        cases hs
        obtain ⟨hspares, hinv⟩ := h.ptUnmap hc hd hok
        exact ⟨hinv, hspares.event rfl, fun hr => absurd hr (lt_irrefl _)⟩
      · cases hs
    · cases hs
  | destroy d =>
    rw [Pt.step] at hs
    split at hs
    · next pd hd =>
      have hD := h.dirs d pd hd
      have hal : d % PAGE_SIZE = 0 := T.aligned d (h.pages d d ((hD.owned d).2 (.inl rfl)))
      obtain ⟨freed, hok, -, hfreed⟩ := hD.destroy hal
      rw [hok] at hs
      cases hs
      have hgive : ∀ p d', give s.owner freed none p = some d' ↔ s.owner p = some d' ∧ d' ≠ d := by
        intro p d'
        simp only [give, hfreed]
        grind
      have hspares : Spares d s ⟨s.mem, update s.dirs d none, give s.owner freed none⟩ :=
        ⟨fun d' he => update_of_ne he _ _, fun d' he p => (hgive p d').trans (and_iff_left he), fun _ _ _ _ _ _ => rfl⟩
      refine ⟨h.replace hspares (fun _ _ => rfl) .refl (fun p d' hp => ?_) (fun _ p hp => ?_) (by simp),
        hspares.event rfl, fun hr => absurd hr (lt_irrefl _)⟩
      · exact h.pages p d' ((hgive p d').1 hp).1
      · exact ((hgive p d).1 hp).2 rfl
    · cases hs
  | other mem =>
    cases hs
    obtain ⟨hk, hown⟩ := hfair
    have hentry : ∀ d pd, s.dirs d = some pd → ∀ v, ¬ TmpPage v → entryOf mem pd v = entryOf s.mem pd v :=
      fun d pd hd v hv => h.entryOf_same hd hk hv fun p _ hp => hown p d hp
    refine ⟨⟨h.kernel.trans hk, h.pages, h.dead, fun d pd hd => ?_⟩,
      fun d pd _ hd => ⟨hd, hentry d pd hd⟩, fun hr => absurd hr (lt_irrefl _)⟩
    exact (h.dirs d pd hd).congr (fun _ => .rfl) rfl (hentry d pd hd)

end Weenix.Pt
