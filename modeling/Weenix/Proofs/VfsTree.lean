import Weenix.Lib.Tally
import Weenix.Proofs.VfsMoved

/-! The directories as a tree: what every change to them keeps. -/

namespace Weenix.Vfs

open Function

open Tally (Counted)

/-- What a directory keeps of an inode: its entries if it is one, and its links. -/
abbrev Look := ℕ → Option (Option (ℕ → Dirent) × ℤ)

/-- The name of an entry that is in use and is not one of the two special ones. -/
def IsName (c : CStr) : Prop := c ≠ [] ∧ c ≠ [dot] ∧ c ≠ [dot, dot]

instance (c : CStr) : Decidable (IsName c) := inferInstanceAs (Decidable (_ ∧ _ ∧ _))

/-- The inode that the entry `j` names, if it is in use. -/
def namedIn (x : Option (Option (ℕ → Dirent) × ℤ)) (j : ℕ) : Option ℕ :=
  match x with
  | some (some e, _) => if j < maxDirent ∧ IsName (e j).name then some (e j).ino else none
  | _ => none

def named (look : Look) (s : ℕ × ℕ) : Option ℕ := namedIn (look s.1) s.2

def isDir (x : Option (Option (ℕ → Dirent) × ℤ)) : Bool :=
  match x with
  | some (some _, _) => true
  | _ => false

theorem isDir_iff {x : Option (Option (ℕ → Dirent) × ℤ)} : isDir x = true ↔ ∃ e l, x = some (some e, l) := by
  unfold isDir
  split
  · next e l => exact iff_of_true rfl ⟨e, l, rfl⟩
  next h =>
  refine iff_of_false Bool.false_ne_true ?_
  rintro ⟨e, l, rfl⟩
  exact h e l rfl

def HasDots (e : ℕ → Dirent) : Prop := findEntry e [dot] ≠ none ∧ findEntry e [dot, dot] ≠ none

def Plain (c : CStr) : Prop := c ≠ [dot] ∧ c ≠ [dot, dot]

structure TreeInv (look : Look) : Prop where
  count : ∃ c, Counted (named look) c ∧ ∀ {n en l}, look n = some (en, l) → l = c n + if n = 0 then 1 else 0
  entries : ∀ {d e l i}, look d = some (some e, l) → i < maxDirent → (e i).name ≠ [] → (look (e i).ino).isSome
  dots : ∀ {d e l}, look d = some (some e, l) → HasDots e
  up : ∀ {d e l i}, look d = some (some e, l) → i < maxDirent → (e i).name = [dot] ∨ (e i).name = [dot, dot] →
    isDir (look (e i).ino) = true
  once : ∀ {n s s'}, isDir (look n) = true → named look s = some n → named look s' = some n → s = s'
  root : isDir (look 0) = true

section Tables

variable {look : Look} {m n i : ℕ} {e : ℕ → Dirent} {lm : ℤ} {x : Dirent} {t : Option (Option (ℕ → Dirent) × ℤ)}

/-- One entry changes, and one inode whose own entries name the same. -/
theorem named_update (hm : look m = some (some e, lm)) (hi : i < maxDirent) (hne : m ≠ n)
    (ht : namedIn t = namedIn (look n)) : named (update (setTable look m (update e i x) lm) n t) =
      update (named look) (m, i) (if IsName x.name then some x.ino else none) := by
  funext ⟨d, j⟩
  unfold named setTable
  by_cases hdn : d = n
  · subst hdn
    rw [update_self, ht, update_of_ne (fun h => hne (Prod.mk.inj h).1.symm)]
  rw [update_of_ne hdn]
  by_cases hdm : d = m
  · subst hdm
    rw [update_self]
    by_cases hji : j = i
    · subst hji
      simp [namedIn, hi]
    · rw [update_of_ne (fun h => hji (Prod.mk.inj h).2)]
      simp only [hm, namedIn, update_of_ne hji]
  · rw [update_of_ne hdm, update_of_ne (fun h => hdm (Prod.mk.inj h).1)]

theorem namedIn_some {d j k : ℕ} (h : namedIn (look d) j = some k) :
    ∃ e l, look d = some (some e, l) ∧ j < maxDirent ∧ IsName (e j).name ∧ (e j).ino = k := by
  unfold namedIn at h
  split at h
  · next e l hd =>
    split_ifs at h with hc
    cases h
    exact ⟨e, l, hd, hc.1, hc.2, rfl⟩
  · cases h

/-- An entry after such a change is the one that was there before, or the new one. -/
theorem entry_update {d j : ℕ} {e' : ℕ → Dirent} {l' : ℤ} (hm : look m = some (some e, lm)) (hne : m ≠ n)
    (ht : ∀ en l, t = some (some en, l) → ∃ l0, look n = some (some en, l0))
    (hd : update (setTable look m (update e i x) lm) n t d = some (some e', l')) :
    (d = m ∧ j = i ∧ e' j = x) ∨ ((d, j) ≠ (m, i) ∧ ∃ e0 l0, look d = some (some e0, l0) ∧ e0 j = e' j) := by
  by_cases hdn : d = n
  · subst hdn
    rw [update_self] at hd
    obtain ⟨l0, hl0⟩ := ht _ _ hd
    exact .inr ⟨fun h => hne (Prod.mk.inj h).1.symm, e', l0, hl0, rfl⟩
  rw [update_of_ne hdn, setTable] at hd
  by_cases hdm : d = m
  · subst hdm
    rw [update_self] at hd
    cases hd
    by_cases hji : j = i
    · subst hji
      exact .inl ⟨rfl, rfl, update_self ..⟩
    · exact .inr ⟨fun h => hji (Prod.mk.inj h).2, e, lm, hm, (update_of_ne hji ..).symm⟩
  · rw [update_of_ne hdm] at hd
    exact .inr ⟨fun h => hdm (Prod.mk.inj h).1, e', l', hd, rfl⟩

theorem findEntry_update {name : CStr} (hi : (e i).name ≠ name) (hx : x.name ≠ name) :
    findEntry (update e i x) name = findEntry e name := by
  rw [findEntry_eq, findEntry_eq, name_update]
  exact SlotMap.slot_update_of_ne hi hx

/-- The state after such a change: the table of `m` has `x` in entry `i`, and `n` is as `t` says. -/
def changed (look : Look) (m : ℕ) (e : ℕ → Dirent) (lm : ℤ) (i : ℕ) (x : Dirent) (n : ℕ)
    (t : Option (Option (ℕ → Dirent) × ℤ)) : Look :=
  update (setTable look m (update e i x) lm) n t

theorem isDir_changed (hm : look m = some (some e, lm)) (k : ℕ) :
    isDir (changed look m e lm i x n t k) = if k = n then isDir t else isDir (look k) := by
  unfold changed setTable
  split_ifs with hk
  · rw [hk, update_self]
  rw [update_of_ne hk]
  by_cases hkm : k = m
  · rw [hkm, update_self, hm]
    rfl
  · rw [update_of_ne hkm]

theorem links_changed (hm : look m = some (some e, lm)) {k : ℕ} (hk : k ≠ n) {ek : Option (ℕ → Dirent)} {lk : ℤ}
    (h : changed look m e lm i x n t k = some (ek, lk)) : ∃ ek', look k = some (ek', lk) := by
  unfold changed setTable at h
  rw [update_of_ne hk] at h
  by_cases hkm : k = m
  · subst hkm
    rw [update_self] at h
    cases h
    exact ⟨some e, hm⟩
  · rw [update_of_ne hkm] at h
    exact ⟨ek, h⟩

/-- The special names are still there. -/
theorem dots_changed {d : ℕ} {e' : ℕ → Dirent} {l' : ℤ} (h : TreeInv look) (hi : Plain (e i).name) (hx : Plain x.name)
    (hm : look m = some (some e, lm)) (ht : ∀ en l, t = some (some en, l) → HasDots en)
    (hd : changed look m e lm i x n t d = some (some e', l')) : HasDots e' := by
  unfold changed setTable at hd
  by_cases hdn : d = n
  · rw [hdn, update_self] at hd
    exact ht _ _ hd
  rw [update_of_ne hdn] at hd
  by_cases hdm : d = m
  · rw [hdm, update_self] at hd
    cases hd
    rw [HasDots, findEntry_update hi.1 hx.1, findEntry_update hi.2 hx.2]
    exact h.dots hm
  · rw [update_of_ne hdm] at hd
    exact h.dots hd

theorem named_slot (hd : look m = some (some e, lm)) (hi : i < maxDirent) (hname : IsName (e i).name) :
    named look (m, i) = some (e i).ino := by
  simp only [named, namedIn, hd]
  rw [if_pos ⟨hi, hname⟩]

end Tables

namespace TreeInv

variable {look : Look} {m n i : ℕ} {e : ℕ → Dirent} {lm ln : ℤ} {en : Option (ℕ → Dirent)} {name : CStr} {x : Dirent}
variable {t : Option (Option (ℕ → Dirent) × ℤ)}

section
variable (h : TreeInv look)
include h

/-- An inode that is not there is not named. -/
theorem not_named (hn : look n = none) (s : ℕ × ℕ) : named look s ≠ some n := by
  intro hs
  obtain ⟨e, l, hd, hj, hname, rfl⟩ := namedIn_some hs
  have := h.entries hd hj hname.1
  rw [hn] at this
  cases this

/-- The special names stand for directories. -/
theorem isName {d j : ℕ} {e : ℕ → Dirent} {l : ℤ} (hd : look d = some (some e, l)) (hj : j < maxDirent)
    (hused : (e j).name ≠ []) (hfile : isDir (look (e j).ino) = false) : IsName (e j).name := by
  refine ⟨hused, fun hdot => ?_, fun hdots => ?_⟩
  · rw [h.up hd hj (.inl hdot)] at hfile
    cases hfile
  · rw [h.up hd hj (.inr hdots)] at hfile
    cases hfile

/-- One entry of a table and one link count change, and the counts are right again. -/
theorem retable {l' : ℤ} {c : ℕ → ℕ} (hm : look m = some (some e, lm)) (hn : look n = some (en, ln))
    (hne : m ≠ n) (hi : Plain (e i).name) (hx : x.name = [] ∨ IsName x.name ∧ x.ino = n)
    (hcount : Counted (named (changed look m e lm i x n (some (en, l')))) c)
    (hlinks : ∀ {k ek lk}, k ≠ n → look k = some (ek, lk) → lk = c k + if k = 0 then 1 else 0)
    (hlink : l' = c n + if n = 0 then 1 else 0)
    (honce : ∀ {k s s'}, isDir (look k) = true → named (changed look m e lm i x n (some (en, l'))) s = some k →
      named (changed look m e lm i x n (some (en, l'))) s' = some k → s = s') :
    TreeInv (changed look m e lm i x n (some (en, l'))) := by
  have hdir : ∀ k, isDir (changed look m e lm i x n (some (en, l')) k) = isDir (look k) := by
    intro k
    rw [isDir_changed hm]
    split_ifs with hk
    · rw [hk, hn]
      cases en <;> rfl
    · rfl
  have hsome : ∀ k, (changed look m e lm i x n (some (en, l')) k).isSome = (look k).isSome := by
    intro k
    rw [changed, setTable, update_apply, update_apply]
    split_ifs with hk hkm
    · rw [hk, hn]
      rfl
    · rw [hkm, hm]
      rfl
    · rfl
  have htable : ∀ en' l, some (en, l') = some (some en', l) → ∃ l0, look n = some (some en', l0) := by
    rintro en' l h'
    cases h'
    exact ⟨ln, hn⟩
  have hplain : Plain x.name := by
    rcases hx with hx | ⟨hx, -⟩
    · rw [hx]
      exact ⟨by simp, by simp⟩
    · exact hx.2
  refine ⟨⟨c, hcount, fun {k ek lk} hk => ?_⟩, fun {d e' l j} hd hj hused => ?_, fun {d e' l} hd => ?_,
    fun {d e' l j} hd hj hdots => ?_, fun {k s s'} hk hs hs' => honce (hdir k ▸ hk) hs hs', by rw [hdir]; exact h.root⟩
  · by_cases hkn : k = n
    · subst hkn
      rw [changed, update_self] at hk
      cases hk
      exact hlink
    · obtain ⟨ek', hk'⟩ := links_changed hm hkn hk
      exact hlinks hkn hk'
  · rw [hsome]
    rcases entry_update (j := j) hm hne htable hd with ⟨rfl, rfl, hej⟩ | ⟨-, e0, l0, hd0, hej⟩
    · rw [hej] at hused ⊢
      rw [(hx.resolve_left hused).2, hn]
      rfl
    · rw [← hej] at hused ⊢
      exact h.entries hd0 hj hused
  · refine dots_changed h hi hplain hm (fun en' l1 h' => ?_) hd
    obtain ⟨l0, h0⟩ := htable en' l1 h'
    exact h.dots h0
  rw [hdir]
  rcases entry_update (j := j) hm hne htable hd with ⟨rfl, rfl, hej⟩ | ⟨-, e0, l0, hd0, hej⟩
  · rw [hej] at hdots
    rcases hdots with h' | h'
    · exact absurd h' hplain.1
    · exact absurd h' hplain.2
  · rw [← hej] at hdots ⊢
    exact h.up hd0 hj hdots

/-- A name is removed, and what it named loses a link. -/
theorem cut (hi : i < maxDirent) (hname : IsName (e i).name) (hm : look m = some (some e, lm))
    (hn : look (e i).ino = some (en, ln)) (hne : m ≠ (e i).ino) :
    TreeInv (changed look m e lm i ⟨(e i).ino, []⟩ (e i).ino (some (en, ln - 1))) := by
  obtain ⟨c, hcount, hlinks⟩ := h.count
  have hslot := named_slot hm hi hname
  have hpos := hcount.pos hslot
  have hnamed : named (changed look m e lm i ⟨(e i).ino, []⟩ (e i).ino (some (en, ln - 1))) =
      update (named look) (m, i) none := by
    have := named_update (x := ⟨(e i).ino, []⟩) (t := some (en, ln - 1)) hm hi hne (by rw [hn]; cases en <;> rfl)
    rwa [if_neg (fun hc => hc.1 rfl)] at this
  have hback : ∀ {k s}, named (changed look m e lm i ⟨(e i).ino, []⟩ (e i).ino (some (en, ln - 1))) s = some k →
      named look s = some k := by
    intro k s hs
    rw [hnamed, update_apply] at hs
    split_ifs at hs
    exact hs
  refine h.retable hm hn hne hname.2 (.inl rfl) (hnamed ▸ hcount.drop hslot) (fun {k ek lk} hk hl => ?_) ?_
    fun hk hs hs' => h.once hk (hback hs) (hback hs')
  · rw [update_of_ne hk]
    exact hlinks hl
  have := hlinks hn
  rw [update_self]
  omega

/-- The name of a new entry is cut, but it is a name. -/
theorem isName_take (hm : look m = some (some e, lm)) (hnew : findEntry e name = none)
    (hfree : findEntry e [] = some i) : IsName (name.take (nameLen - 1)) := by
  have hlen : ∀ c : CStr, c.length ≤ 2 → name.take (nameLen - 1) = c → name = c := by
    intro c hc htake
    have hl := congrArg List.length htake
    rw [List.length_take] at hl
    have : nameLen = 28 := rfl
    rw [List.take_of_length_le (by omega)] at htake
    exact htake
  obtain ⟨hdot, hdots⟩ := h.dots hm
  refine ⟨fun h' => ?_, fun h' => ?_, fun h' => ?_⟩
  · rw [hlen [] (by simp) h', hfree] at hnew
    cases hnew
  · rw [hlen [dot] (by simp) h'] at hnew
    exact hdot hnew
  · rw [hlen [dot, dot] (by simp) h'] at hnew
    exact hdots hnew

/-- A name is entered, and what it names has one link more; a directory has no other name. -/
theorem enter (hfree : findEntry e [] = some i) (hx : IsName x.name) (hm : look m = some (some e, lm))
    (hn : look x.ino = some (en, ln)) (hne : m ≠ x.ino) (honce : isDir (look x.ino) = true → ∀ s, named look s ≠ some x.ino) :
    TreeInv (changed look m e lm i x x.ino (some (en, ln + 1))) := by
  obtain ⟨c, hcount, hlinks⟩ := h.count
  obtain ⟨hi, hkey⟩ := findEntry_lt hfree
  have hslot : named look (m, i) = none := by
    simp only [named, namedIn, hm]
    rw [if_neg (fun hc => hc.2.1 hkey)]
  have hnamed : named (changed look m e lm i x x.ino (some (en, ln + 1))) = update (named look) (m, i) (some x.ino) := by
    have := named_update (x := x) (t := some (en, ln + 1)) hm hi hne (by rw [hn]; cases en <;> rfl)
    rwa [if_pos hx] at this
  have hplain : Plain (e i).name := by
    rw [hkey]
    exact ⟨by simp, by simp⟩
  refine h.retable hm hn hne hplain (.inr ⟨hx, rfl⟩) (hnamed ▸ hcount.take hslot) (fun {k ek lk} hk hl => ?_) ?_
    fun {k s s'} hk hs hs' => ?_
  · rw [update_of_ne hk]
    exact hlinks hl
  · have := hlinks hn
    rw [update_self]
    omega
  rw [hnamed, update_apply] at hs hs'
  split_ifs at hs hs' with h1 h2 h2
  · rw [h1, h2]
  · cases hs
    exact absurd hs' (honce hk s')
  · cases hs'
    exact absurd hs (honce hk s)
  · exact h.once hk hs hs'

end

theorem dotEntries_ino {j : ℕ} (hused : (dotEntries n m j).name ≠ []) :
    (dotEntries n m j).ino = n ∨ (dotEntries n m j).ino = m := by
  match j with
  | 0 => exact .inl rfl
  | 1 => exact .inr rfl
  | j + 2 => exact absurd rfl hused

theorem hasDots_dotEntries (n m : ℕ) : HasDots (dotEntries n m) :=
  ⟨fun h => SlotMap.slot_none.1 h 0 (by decide) rfl, fun h => SlotMap.slot_none.1 h 1 (by decide) rfl⟩

/-- A new directory names nothing. -/
theorem namedIn_dotEntries (n m : ℕ) (l : ℤ) (j : ℕ) : namedIn (some (some (dotEntries n m), l)) j = none := by
  simp only [namedIn]
  rw [if_neg]
  rintro ⟨-, hname, hdot, hdots⟩
  match j with
  | 0 => exact hdot rfl
  | 1 => exact hdots rfl
  | j + 2 => exact hname rfl

/-- A new inode without a name. -/
theorem fresh (h : TreeInv look) (hn : look n = none)
    (hen : en = none ∨ en = some (dotEntries n m) ∧ isDir (look m) = true) :
    TreeInv (update look n (some (en, 0))) := by
  obtain ⟨c, hcount, hlinks⟩ := h.count
  have hnone : namedIn (some (en, 0)) = namedIn (look n) := by
    rw [hn]
    rcases hen with rfl | ⟨rfl, -⟩
    · rfl
    funext j
    exact namedIn_dotEntries n m 0 j
  have hnamed : named (update look n (some (en, 0))) = named look := by
    funext ⟨d, j⟩
    unfold named
    by_cases hd : d = n
    · rw [hd, update_self, hnone]
    · rw [update_of_ne hd]
  have hc : c n = 0 := by
    by_contra h0
    have hne : (Tally.holders (named look) n).encard ≠ 0 := by
      rw [hcount n]
      exact_mod_cast h0
    obtain ⟨s, hs⟩ := Set.encard_ne_zero.1 hne
    exact h.not_named hn s hs
  have hroot : n ≠ 0 := by
    rintro rfl
    have := h.root
    rw [hn] at this
    cases this
  have hdir : ∀ {k}, isDir (look k) = true → update look n (some (en, 0)) k = look k := by
    intro k hk
    refine update_of_ne ?_ ..
    rintro rfl
    rw [hn] at hk
    cases hk
  have hlive : ∀ {k}, (look k).isSome → (update look n (some (en, 0)) k).isSome := by
    intro k hk
    by_cases hkn : k = n
    · rw [hkn, update_self]
      rfl
    · rwa [update_of_ne hkn]
  have hnew : ∀ {e' l}, update look n (some (en, 0)) n = some (some e', l) →
      dotEntries n m = e' ∧ isDir (look m) = true := by
    intro e' l hd
    rw [update_self] at hd
    rcases hen with rfl | ⟨rfl, hdirm⟩
    · cases hd
    cases hd
    exact ⟨rfl, hdirm⟩
  refine ⟨⟨c, hnamed ▸ hcount, fun {k ek lk} hk => ?_⟩, fun {d e' l j} hd hj hused => ?_, fun {d e' l} hd => ?_,
    fun {d e' l j} hd hj hdots => ?_, fun {k s s'} hk hs hs' => ?_, by rw [hdir h.root]; exact h.root⟩
  · by_cases hkn : k = n
    · subst hkn
      rw [update_self] at hk
      cases hk
      rw [hc, if_neg hroot]
      rfl
    · rw [update_of_ne hkn] at hk
      exact hlinks hk
  · by_cases hdn : d = n
    · subst hdn
      obtain ⟨rfl, hdirm⟩ := hnew hd
      rcases dotEntries_ino hused with hino | hino
      · rw [hino, update_self]
        rfl
      rw [hino, hdir hdirm]
      obtain ⟨em, l', hm⟩ := isDir_iff.1 hdirm
      rw [hm]
      rfl
    · rw [update_of_ne hdn] at hd
      exact hlive (h.entries hd hj hused)
  · by_cases hdn : d = n
    · subst hdn
      obtain ⟨rfl, -⟩ := hnew hd
      exact hasDots_dotEntries d m
    · rw [update_of_ne hdn] at hd
      exact h.dots hd
  · by_cases hdn : d = n
    · subst hdn
      obtain ⟨rfl, hdirm⟩ := hnew hd
      rcases dotEntries_ino (by rcases hdots with h' | h' <;> rw [h'] <;> simp) with hino | hino
      · rw [hino, hd]
        rfl
      · rw [hino, hdir hdirm]
        exact hdirm
    · rw [update_of_ne hdn] at hd
      have hup := h.up hd hj hdots
      rw [hdir hup]
      exact hup
  · rw [hnamed] at hs hs'
    refine h.once ?_ hs hs'
    by_cases hkn : k = n
    · subst hkn
      exact absurd hs (h.not_named hn s)
    · rwa [update_of_ne hkn] at hk

/-- An inode without links and in no use is freed. -/
theorem freed (h : TreeInv look) (hn : look n = some (none, 0)) : TreeInv (update look n none) := by
  obtain ⟨c, hcount, hlinks⟩ := h.count
  have hc : c n = 0 := by
    have := hlinks hn
    split_ifs at this <;> omega
  have hnamed : named (update look n none) = named look := by
    funext ⟨d, j⟩
    unfold named
    by_cases hd : d = n
    · rw [hd, update_self, hn]
      rfl
    · rw [update_of_ne hd]
  have hdir : ∀ k, isDir (update look n none k) = isDir (look k) := by
    intro k
    by_cases hk : k = n
    · rw [hk, update_self, hn]
      rfl
    · rw [update_of_ne hk]
  have hback : ∀ {k x}, update look n none k = some x → look k = some x := by
    intro k x hk
    rw [update_apply] at hk
    split_ifs at hk
    exact hk
  refine ⟨⟨c, hnamed ▸ hcount, fun hk => hlinks (hback hk)⟩, fun {d e' l j} hd hj hused => ?_,
    fun hd => h.dots (hback hd), fun hd hj hdots => ?_, fun {k s s'} hk hs hs' => ?_, by rw [hdir]; exact h.root⟩
  · have hne : (e' j).ino ≠ n := by
      rintro rfl
      have hname := h.isName (hback hd) hj hused (by rw [hn]; rfl)
      have := hcount.pos (named_slot (hback hd) hj hname)
      omega
    rw [update_of_ne hne]
    exact h.entries (hback hd) hj hused
  · rw [hdir]
    exact h.up (hback hd) hj hdots
  · rw [hdir] at hk
    rw [hnamed] at hs hs'
    exact h.once hk hs hs'

end TreeInv

def rootLook : Look := update (fun _ => none) 0 (some (some (dotEntries 0 0), 1))

theorem rootLook_some {d : ℕ} {en : Option (ℕ → Dirent)} {l : ℤ} (h : rootLook d = some (en, l)) :
    d = 0 ∧ en = some (dotEntries 0 0) ∧ l = 1 := by
  unfold rootLook at h
  by_cases hd : d = 0
  · subst hd
    cases h
    exact ⟨rfl, rfl, rfl⟩
  · rw [update_of_ne hd] at h
    cases h

theorem rootLook_named (s : ℕ × ℕ) : named rootLook s = none := by
  unfold named rootLook
  by_cases hs : s.1 = 0
  · rw [hs, update_self]
    exact TreeInv.namedIn_dotEntries 0 0 1 s.2
  · rw [update_of_ne hs]
    rfl

theorem rootLook_tree : TreeInv rootLook := by
  have hino : ∀ {j}, (dotEntries 0 0 j).name ≠ [] → (dotEntries 0 0 j).ino = 0 :=
    fun hused => (TreeInv.dotEntries_ino hused).elim id id
  refine ⟨⟨fun _ => 0, ?_, fun hn => ?_⟩, fun hd _ hused => ?_, fun hd => ?_, fun {d e l j} hd _ hdots => ?_,
    fun _ hs => ?_, rfl⟩
  · rw [funext rootLook_named]
    exact Tally.counted_none
  · obtain ⟨rfl, -, rfl⟩ := rootLook_some hn
    rfl
  · obtain ⟨rfl, he, -⟩ := rootLook_some hd
    cases he
    rw [hino hused]
    rfl
  · obtain ⟨rfl, he, -⟩ := rootLook_some hd
    cases he
    exact TreeInv.hasDots_dotEntries 0 0
  · obtain ⟨rfl, he, -⟩ := rootLook_some hd
    cases he
    rw [hino (by rcases hdots with h | h <;> rw [h] <;> simp)]
    rfl
  · rw [rootLook_named] at hs
    cases hs

section Changes

variable {fs g : Fs} {m i n : ℕ} {e : ℕ → Dirent} {name : CStr} {en : Option (ℕ → Dirent)}

/-- What a change leaves: the tree, its directories, and new directories that are in core. -/
structure Grows (fs g : Fs) : Prop where
  tree : TreeInv g.look
  dirs : ∀ d, isDir (fs.look d) = true → isDir (g.look d) = true
  new : ∀ d, isDir (g.look d) = true → isDir (fs.look d) = true ∨ fs.look d = none ∧ 0 < g.refs d

theorem Grows.of_look (h : TreeInv g.look) (hdir : ∀ d, isDir (g.look d) = isDir (fs.look d)) : Grows fs g :=
  ⟨h, fun d hd => by rw [hdir]; exact hd, fun d hd => .inl (by rw [← hdir]; exact hd)⟩

theorem TreeInv.added (h : TreeInv fs.look) (ha : NameAdded fs g m e i n name) : Grows fs g := by
  obtain ⟨hnew, hfree, lm, ln, hm, hn, hlook⟩ := ha
  have hne : m ≠ n := by
    rintro rfl
    rw [hm] at hn
    cases hn
  have hlook' : g.look = changed fs.look m e lm i ⟨n, name.take (nameLen - 1)⟩ n (some (none, ln + 1)) := hlook
  refine .of_look ?_ fun d => ?_
  · rw [hlook']
    refine h.enter (x := ⟨n, name.take (nameLen - 1)⟩) hfree (h.isName_take hm hnew hfree) hm hn hne fun hdir => ?_
    rw [hn] at hdir
    cases hdir
  rw [hlook', isDir_changed hm]
  split_ifs with hd
  · rw [hd, hn]
    rfl
  · rfl

theorem TreeInv.made (h : TreeInv fs.look) (hmade : Made fs g m e i n name en)
    (kind : en = none ∨ en = some (dotEntries n m) ∧ 0 < g.refs n) : Grows fs g := by
  obtain ⟨hnew, hfree, hdead, lm, hm, hlook⟩ := hmade
  have hne : m ≠ n := by
    rintro rfl
    rw [hm] at hdead
    cases hdead
  have hdirm : isDir (fs.look m) = true := by
    rw [hm]
    rfl
  have hfresh : TreeInv (update fs.look n (some (en, 0))) :=
    h.fresh (m := m) hdead (kind.imp id fun hk => ⟨hk.1, hdirm⟩)
  have hm1 : update fs.look n (some (en, 0)) m = some (some e, lm) := by
    rw [update_of_ne hne, hm]
  -- first the inode, then its name
  have hsteps : changed (update fs.look n (some (en, 0))) m e lm i ⟨n, name.take (nameLen - 1)⟩ n
      (some (en, 0 + 1)) = g.look := by
    rw [hlook, changed, setTable, setTable, update_comm hne.symm, update_idem]
    rfl
  have henter := hfresh.enter (x := ⟨n, name.take (nameLen - 1)⟩) hfree (h.isName_take hm hnew hfree) hm1
    (update_self ..) hne fun _ s hs => ?_
  · rw [hsteps] at henter
    have hdir : ∀ d, d ≠ n → isDir (g.look d) = isDir (fs.look d) := by
      intro d hd
      rw [← hsteps, isDir_changed hm1, if_neg hd, update_of_ne hd]
    refine ⟨henter, fun d hd => ?_, fun d hd => ?_⟩
    · rw [hdir d]
      · exact hd
      rintro rfl
      rw [hdead] at hd
      cases hd
    by_cases hdn : d = n
    · subst hdn
      refine .inr ⟨hdead, ?_⟩
      rcases kind with rfl | ⟨-, hr⟩
      · rw [← hsteps, isDir_changed hm1, if_pos rfl] at hd
        cases hd
      · exact hr
    · exact .inl (hdir d hdn ▸ hd)
  · obtain ⟨c, hcount, hlinks⟩ := hfresh.count
    have hpos : 0 < c n := hcount.pos hs
    have hl := hlinks (update_self ..)
    split_ifs at hl <;> omega

/-- A directory is in core, so that it is never freed. -/
theorem TreeInv.removed {lm ln : ℤ} {t : Option (Option (ℕ → Dirent) × ℤ)} (h : TreeInv fs.look)
    (hpin : isDir (fs.look (e i).ino) = true → 0 < fs.refs (e i).ino) (hi : i < maxDirent) (hused : (e i).name ≠ [])
    (hplain : en = none ∨ Plain (e i).name) (hne : m ≠ (e i).ino) (hm : fs.look m = some (some e, lm))
    (hn : fs.look (e i).ino = some (en, ln)) (ht : t = some (en, ln - 1) ∨ t = none ∧ fs.refs (e i).ino = 0 ∧ ln = 1)
    (hlook : g.look = changed fs.look m e lm i ⟨(e i).ino, []⟩ (e i).ino t) : Grows fs g := by
  have hname : IsName (e i).name := by
    rcases hplain with rfl | hp
    · exact h.isName hm hi hused (by rw [hn]; rfl)
    · exact ⟨hused, hp⟩
  have hcut := h.cut hi hname hm hn hne
  rcases ht with rfl | ⟨rfl, hr, rfl⟩
  · refine .of_look (by rw [hlook]; exact hcut) fun d => ?_
    rw [hlook, isDir_changed hm]
    split_ifs with hd
    · rw [hd, hn]
      cases en <;> rfl
    · rfl
  have hfile : en = none := by
    by_contra hen
    obtain ⟨e', rfl⟩ := Option.ne_none_iff_exists'.1 hen
    have := hpin (by rw [hn]; rfl)
    omega
  subst hfile
  have hfreed := hcut.freed (update_self ..)
  rw [changed, update_idem] at hfreed
  refine .of_look (by rw [hlook]; exact hfreed) fun d => ?_
  rw [hlook, isDir_changed hm]
  split_ifs with hd
  · rw [hd, hn]
    rfl
  · rfl

theorem Change.grows (hc : Change fs g) (h : TreeInv fs.look) (hpin : ∀ d, isDir (fs.look d) = true → 0 < fs.refs d) :
    Grows fs g := by
  cases hc with
  | same hlook => exact .of_look (hlook ▸ h) fun d => by rw [hlook]
  | removed m i e lm ln en t slot used kind apart hm hn ht hlook =>
    exact h.removed (hpin _) slot used kind apart hm hn ht hlook
  | added m i n e name hadded => exact h.added hadded
  | made m i n e name en hmade kind => exact h.made hmade kind

end Changes

end Weenix.Vfs
