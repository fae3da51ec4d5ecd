import Weenix.Proofs.VirttermWindow

/-! When the single character that `vt_provide_char` draws leaves the screen as a full redraw would. -/

namespace Weenix.Vt

open Function List

open Runs (Run)

variable {vt : Virtterm} {T : Terminal} {k : ℕ} {c : UInt8} {s : Terms} {nterms : ℕ}

def shownAt (vt : Virtterm) (i : ℕ) : UInt8 :=
  if i < circDist vt.vtTail vt.vtTop then vt.vtBuf ((vt.vtTop + i) % SCROLL_BUFSIZE) else 0

/-- The screen is as `vt_redraw` leaves it. -/
def Shows (s : Terms) : Prop :=
  (∀ i < DISPLAY_SIZE, s.screen.videoram i = s.redraw.screen.videoram i) ∧ s.screen.cursor = s.redraw.screen.cursor

theorem redraw_videoram (s : Terms) {i : ℕ} (hi : i < DISPLAY_SIZE) :
    s.redraw.screen.videoram i = screenCell (vtRedraw (s.terms s.cur) i) := if_pos hi

theorem redraw_shows (s : Terms) : Shows s.redraw := by
  refine ⟨?_, rfl⟩
  intro i hi
  rw [redraw_videoram _ hi, redraw_videoram _ hi]
  rfl

theorem Rep.tail_lt (h : Rep vt T) : vt.vtTail < SCROLL_BUFSIZE := by
  rw [h.tail]
  exact Cyclic.place_lt (by decide) _ _

theorem Sound.tail_lt (h : Sound vt) : vt.vtTail < SCROLL_BUFSIZE := by
  obtain ⟨T, hT⟩ := h.rep
  exact hT.tail_lt

theorem Sound.shown (h : Sound vt) {i : ℕ} (hi : i < DISPLAY_SIZE) : vtRedraw vt i = shownAt vt i :=
  vtRedraw_apply h.top h.tail_lt hi

theorem screenCell_low (c : UInt8) : (screenCell c).toUInt8 = c := by
  have hall : ∀ n : Fin 256, (screenCell (UInt8.ofNat n)).toUInt8 = UInt8.ofNat n := by decide +kernel
  have hc := hall ⟨c.toNat, c.toNat_lt⟩
  rwa [UInt8.ofNat_toNat] at hc

theorem screenCell_inj {a b : UInt8} (h : screenCell a = screenCell b) : a = b := by
  rw [← screenCell_low a, h, screenCell_low]

/-- The character would be drawn into a cell that a redraw leaves blank. -/
def Hidden (s : Terms) (id : ℕ) (c : UInt8) : Prop :=
  let vt := s.terms id
  s.cur = id ∧ Printable c ∧ c ≠ 0 ∧ circDist vt.vtCursor vt.vtTop < DISPLAY_SIZE ∧
    circDist vt.vtTail vt.vtTop ≤ circDist vt.vtCursor vt.vtTop

theorem written_vtBuf (vt : Virtterm) (c : UInt8) (p : ℕ) :
    (written vt c).vtBuf p = if Printable c ∧ p = vt.vtCursor then c else vt.vtBuf p := by
  unfold written
  by_cases hc : Printable c
  · rw [if_pos hc]
    simp only [hc, true_and, update_apply]
  · simp only [hc, false_and, if_false]

theorem Placed.cell_eq_cursor (h : Placed vt T k) {i : ℕ} (hi : i < DISPLAY_SIZE) :
    (vt.vtTop + i) % SCROLL_BUFSIZE = vt.vtCursor ↔ i = circDist vt.vtCursor vt.vtTop := by
  have hcur : vt.vtCursor < SCROLL_BUFSIZE := h.cursor ▸ Cyclic.place_lt (by decide) _ _
  have htop := h.sound.top
  rw [show DISPLAY_SIZE = 2000 from rfl] at hi
  rw [bufsize] at hcur htop
  rw [circDist, bufsize]
  omega

/-- The row behind the last one, in the cells of the window. -/
theorem Placed.cell_in_row (h : Placed vt T k) {i : ℕ} (hi : i < DISPLAY_SIZE) :
    pos vt.vtHead (80 * T.rows.length) ≤ (vt.vtTop + i) % SCROLL_BUFSIZE ∧
        (vt.vtTop + i) % SCROLL_BUFSIZE < pos vt.vtHead (80 * T.rows.length) + 80 ↔
      circDist vt.vtTail vt.vtTop ≤ i ∧ i < circDist vt.vtTail vt.vtTop + 80 := by
  have hk := h.lt
  have halign := h.aligned
  have hhead := h.head
  rw [show DISPLAY_SIZE = 2000 from rfl] at hi
  rw [h.tailTop, h.row, pos_eq, pos_eq, bufsize]
  omega

/-- A row that is appended makes the part of the window with text one row longer. -/
theorem Placed.tailTop_append (h : Placed vt T k) (hlast : T.row + 1 = T.rows.length)
    (hnear : circDist vt.vtCursor vt.vtTop < DISPLAY_SIZE) :
    circDist (pos vt.vtHead (80 * T.rows.length + 80)) vt.vtTop = circDist vt.vtTail vt.vtTop + 80 ∧
      circDist vt.vtCursor vt.vtTop < circDist vt.vtTail vt.vtTop := by
  have hk := h.lt
  have hdef : T.at = 80 * T.row + T.col := rfl
  rw [show DISPLAY_SIZE = 2000 from rfl, h.cursorTop] at hnear
  rw [h.tailTop, h.cursorTop, h.row, circDist_pos_mod _ (by omega)]
  omega

/-- Where the cursor is on the screen, the window changes in the cell of the cursor only, and there only
if the row is held. The row that is appended is blank already. -/
theorem Placed.shown_handled (h : Placed vt T k) (hnear : circDist vt.vtCursor vt.vtTop < DISPLAY_SIZE) (c : UInt8)
    {i : ℕ} (hi : i < DISPLAY_SIZE) : shownAt (handled vt T c) i =
      if Printable c ∧ i = circDist vt.vtCursor vt.vtTop ∧ i < circDist vt.vtTail vt.vtTop then c
      else shownAt vt i := by
  have hcell := h.cell_eq_cursor hi
  unfold shownAt handled reached
  rw [written_frame vt c]
  by_cases hlt : T.target c < 80 * T.rows.length
  · rw [if_pos hlt]
    rw [written_vtBuf]
    simp only [hcell]
    by_cases hshown : i < circDist vt.vtTail vt.vtTop
    · simp only [hshown, if_true, and_true]
    · simp only [hshown, if_false, and_false]
  obtain ⟨-, hlast⟩ := T.row_of_target hlt
  have hrow := h.cell_in_row hi
  obtain ⟨hlong, hcur⟩ := h.tailTop_append hlast hnear
  rw [if_neg hlt]
  unfold extended memset
  dsimp only
  rw [hlong, written_vtBuf]
  simp only [hrow, hcell]
  by_cases hshown : i < circDist vt.vtTail vt.vtTop
  · rw [if_pos (by omega), if_neg (by omega), if_pos hshown]
    simp only [hshown, and_true]
  split_ifs <;> first | rfl | omega

/-! ### One character -/

theorem setTerm_cur (s : Terms) (id : ℕ) (vt : Virtterm) : (s.setTerm id vt).cur = s.cur := rfl

theorem followCursor_vtCursor (vt : Virtterm) : (followCursor vt).vtCursor = vt.vtCursor := by
  unfold followCursor
  split_ifs <;> rfl

theorem provideChar_other {id : ℕ} (hcur : s.cur ≠ id) (c : UInt8) :
    vtProvideChar s id c = s.setTerm id (vtHandleChar (followCursor (s.terms id)) c).1 := by
  exact if_neg hcur

theorem provideChar_far (h : Sound (s.terms s.cur))
    (hfar : ¬ circDist (s.terms s.cur).vtCursor (s.terms s.cur).vtTop < DISPLAY_SIZE) (c : UInt8) :
    vtProvideChar s s.cur c = (s.setTerm s.cur (vtHandleChar (followCursor (s.terms s.cur)) c).1).redraw := by
  obtain ⟨T, k, hp⟩ := h.placed
  have hmoved : (s.terms s.cur).vtTop ≠ (vtHandleChar (followCursor (s.terms s.cur)) c).1.vtTop := by
    intro htop
    rw [vtHandleChar_eq hp.follow.toRep, handled_vtTop] at htop
    have hnear := T.followRow_near k
    rw [← hp.follow.cursorTop, ← htop, followCursor_vtCursor] at hnear
    exact hfar hnear
  unfold vtProvideChar
  dsimp only
  rw [setTerm_cur, if_pos rfl, if_neg hmoved]

theorem provideChar_near (h : Rep (s.terms s.cur) T)
    (hnear : circDist (s.terms s.cur).vtCursor (s.terms s.cur).vtTop < DISPLAY_SIZE) (c : UInt8) :
    vtProvideChar s s.cur c = Terms.cursorRedraw { s.setTerm s.cur (handled (s.terms s.cur) T c) with
      screen := if Printable c then screenPutchar s.screen c
          (circDist (s.terms s.cur).vtCursor (s.terms s.cur).vtTop % DISPLAY_WIDTH)
          (circDist (s.terms s.cur).vtCursor (s.terms s.cur).vtTop / DISPLAY_WIDTH)
        else s.screen } := by
  have hstay : followCursor (s.terms s.cur) = s.terms s.cur := if_neg (Nat.not_le.2 hnear)
  unfold vtProvideChar
  rw [hstay, vtHandleChar_eq h]
  dsimp only
  rw [setTerm_cur, if_pos rfl, handled_vtTop, if_pos rfl]
  by_cases hc : Printable c
  · rw [decide_eq_true hc, if_pos rfl, if_pos hc]
    rfl
  · rw [decide_eq_false hc, if_neg Bool.false_ne_true, if_neg hc]
    rfl

theorem cursorRedraw_shows (s : Terms) : Shows s.cursorRedraw ↔
    ∀ i < DISPLAY_SIZE, s.screen.videoram i = screenCell (vtRedraw (s.terms s.cur) i) := by
  constructor
  · intro h i hi
    exact (h.1 i hi).trans (redraw_videoram _ hi)
  intro h
  refine ⟨?_, rfl⟩
  intro i hi
  exact (h i hi).trans (redraw_videoram _ hi).symm

theorem putchar_videoram (scr : Screen) (c : UInt8) {rel : ℕ} (hrel : rel < DISPLAY_SIZE) (i : ℕ) :
    (screenPutchar scr c (rel % DISPLAY_WIDTH) (rel / DISPLAY_WIDTH)).videoram i =
      if i = rel then screenCell c else scr.videoram i := by
  have hcell : rel / DISPLAY_WIDTH % 256 * DISPLAY_WIDTH + rel % DISPLAY_WIDTH % 256 = rel := by
    rw [show DISPLAY_SIZE = 2000 from rfl] at hrel
    rw [DISPLAY_WIDTH]
    omega
  unfold screenPutchar
  dsimp only
  rw [hcell, update_apply]

theorem shows_near (h : Placed (s.terms s.cur) T k) (hshow : Shows s)
    (hnear : circDist (s.terms s.cur).vtCursor (s.terms s.cur).vtTop < DISPLAY_SIZE) (c : UInt8) :
    Shows (vtProvideChar s s.cur c) ↔ ¬ Hidden s s.cur c := by
  have hold : ∀ i < DISPLAY_SIZE, s.screen.videoram i = screenCell (shownAt (s.terms s.cur) i) := by
    intro i hi
    rw [hshow.1 i hi, redraw_videoram s hi, h.sound.shown hi]
  have hsound := h.sound.handle c
  rw [vtHandleChar_eq h.toRep] at hsound
  have hnew : ∀ i < DISPLAY_SIZE, vtRedraw (handled (s.terms s.cur) T c) i =
      if Printable c ∧ i = circDist (s.terms s.cur).vtCursor (s.terms s.cur).vtTop ∧
        i < circDist (s.terms s.cur).vtTail (s.terms s.cur).vtTop then c else shownAt (s.terms s.cur) i := by
    intro i hi
    rw [hsound.shown hi, h.shown_handled hnear c hi]
  rw [provideChar_near h.toRep hnear, cursorRedraw_shows]
  dsimp only [Terms.setTerm]
  rw [update_self]
  unfold Hidden
  generalize s.terms s.cur = vt at *
  constructor
  · rintro hall ⟨-, hc, hne, -, hblank⟩
    have hcell := hall _ hnear
    rw [hnew _ hnear, if_pos hc, putchar_videoram _ _ hnear, if_pos rfl, if_neg fun hs => Nat.not_le.2 hs.2.2 hblank,
      shownAt, if_neg (Nat.not_lt.2 hblank)] at hcell
    exact hne (screenCell_inj hcell)
  intro hok i hi
  rw [hnew i hi]
  by_cases hc : Printable c
  · rw [if_pos hc, putchar_videoram _ _ hnear, hold i hi]
    by_cases hrel : i = circDist vt.vtCursor vt.vtTop
    · rw [if_pos hrel]
      by_cases hshown : i < circDist vt.vtTail vt.vtTop
      · rw [if_pos ⟨hc, hrel, hshown⟩]
      -- Only a null character may be put where nothing is shown.
      · have hzero : c = 0 := by
          by_contra hne
          exact hok ⟨rfl, hc, hne, hnear, by omega⟩
        rw [if_neg fun hs => hshown hs.2.2, shownAt, if_neg hshown, hzero]
    · rw [if_neg hrel, if_neg fun hs => hrel hs.2.1]
  · rw [if_neg hc, hold i hi, if_neg fun hs => hc hs.1]

/-- A character leaves a screen that shows its terminal so, unless the cell it is drawn into is blank. -/
theorem provide_shows_iff {id : ℕ} (h : ∀ id, Sound (s.terms id)) (hshow : Shows s) (c : UInt8) :
    Shows (vtProvideChar s id c) ↔ ¬ Hidden s id c := by
  by_cases hcur : s.cur = id
  · subst hcur
    by_cases hnear : circDist (s.terms s.cur).vtCursor (s.terms s.cur).vtTop < DISPLAY_SIZE
    · obtain ⟨T, k, hp⟩ := (h s.cur).placed
      exact shows_near hp hshow hnear c
    · rw [provideChar_far (h s.cur) hnear]
      exact iff_of_true (redraw_shows _) fun hh => hnear hh.2.2.2.1
  rw [provideChar_other hcur]
  refine iff_of_true ?_ fun hh => hcur hh.1
  have hterm : (s.setTerm id (vtHandleChar (followCursor (s.terms id)) c).1).terms s.cur = s.terms s.cur :=
    update_of_ne hcur _ _
  unfold Shows Terms.redraw
  rw [setTerm_cur, hterm]
  exact hshow

/-- In every state that the calls lead to, a screen that shows its terminal still does after a character,
exactly if the character is not drawn into a cell that a redraw leaves blank. -/
theorem shows_provideChar_iff {scr : Screen} {es : List Call} (hrun : Run (CallStep nterms) (Terms.init scr) es s)
    (hshow : Shows s) (id : ℕ) (c : UInt8) : Shows (vtProvideChar s id c) ↔ ¬ Hidden s id c :=
  provide_shows_iff (sound_run hrun) hshow c

/-- A character on the first terminal, one on another, and one more on the first. -/
theorem shows_three_chars : ∃ s, Run (CallStep 3) startTerms [.provide 0 120, .provide 1 121] s ∧ Shows s ∧
    Shows (vtProvideChar s 0 122) := by
  have hrun : Run (CallStep 3) startTerms [] startTerms := .nil
  have hrun₁ := run_provide hrun 0 120 (by decide)
  have hrun₂ := run_provide hrun₁ 1 121 (by decide)
  have hrow : ∀ s : Terms, ¬ circDist (s.terms 0).vtTail (s.terms 0).vtTop ≤
      circDist (s.terms 0).vtCursor (s.terms 0).vtTop → ∀ c, ¬ Hidden s 0 c := fun s h c hh => h hh.2.2.2.2
  have hshow₁ := (shows_provideChar_iff hrun (redraw_shows _) 0 120).2 (hrow startTerms (by decide) 120)
  have hshow₂ := (shows_provideChar_iff hrun₁ hshow₁ 1 121).2 fun h => absurd h.1 (by decide +kernel)
  exact ⟨_, hrun₂, hshow₂, (shows_provideChar_iff hrun₂ hshow₂ 0 122).2 (hrow _ (by decide +kernel) 122)⟩

/-! ### A cell drawn that should be blank -/

/-- The first terminal is on the screen and has so many rows, with the cursor at this position. -/
def HasText (s : Terms) (n x : ℕ) : Prop := s.cur = 0 ∧ ∃ T, Rep (s.terms 0) T ∧ T.rows.length = n ∧ T.at = x

theorem Rep.follow (h : Rep vt T) : Rep (followCursor vt) T := by
  unfold followCursor
  split_ifs
  · exact h.top _
  · exact h

theorem Rep.provide (h : Rep (s.terms 0) T) (c : UInt8) : Rep ((vtProvideChar s 0 c).terms 0) (T.handle c) := by
  rw [provideChar_terms, update_self]
  exact h.follow.handle c

theorem HasText.newline {n : ℕ} (h : HasText s (n + 1) (80 * n)) (hn : n < 123) :
    HasText (vtProvideChar s 0 10) (n + 2) (80 * (n + 1)) := by
  obtain ⟨hcur, T, hT, hrows, hat⟩ := h
  have hdef : T.at = 80 * T.row + T.col := rfl
  have hnext : T.handle 10 = T.nextRow := rfl
  refine ⟨(provideChar_cur s 0 10).trans hcur, _, hT.provide 10, ?_, ?_⟩
  · rw [hnext, Terminal.nextRow, dif_neg (by omega), dif_pos (by omega)]
    simp only [length_append, length_singleton, hrows]
  rw [hnext, Terminal.nextRow, dif_neg (by omega), dif_pos (by omega)]
  change 80 * (T.row + 1) + 0 = _
  omega

theorem HasText.backspace {n x : ℕ} (h : HasText s n x) : HasText (vtProvideChar s 0 8) n (x - 1) := by
  obtain ⟨hcur, T, hT, hrows, hat⟩ := h
  have hdef : T.at = 80 * T.row + T.col := rfl
  have hback : T.handle 8 = T.back := rfl
  refine ⟨(provideChar_cur s 0 8).trans hcur, _, hT.provide 8, ?_, ?_⟩
  · rw [hback, Terminal.back]
    split_ifs <;> exact hrows
  rw [hback, Terminal.back]
  split_ifs with hcol hrow
  · change 80 * T.row + (T.col.val - 1) = _
    omega
  · change 80 * (T.row - 1) + 79 = _
    omega
  · omega

theorem newlines_run {n : ℕ} (hn : n ≤ 123) :
    ∃ s, Run (CallStep 3) startTerms (List.replicate n (.provide 0 10)) s ∧ HasText s (n + 1) (80 * n) := by
  induction n with
  | zero => exact ⟨startTerms, .nil, rfl, Terminal.init, rep_init, rfl, rfl⟩
  | succ n ih =>
    obtain ⟨s, hrun, htext⟩ := ih (by omega)
    rw [replicate_succ']
    exact ⟨_, run_provide hrun 0 10 (by decide), htext.newline (by omega)⟩

theorem backspaces_run {es : List Call} {n x : ℕ} (hrun : Run (CallStep 3) startTerms es s) (h : HasText s n x)
    (m : ℕ) :
    ∃ s', Run (CallStep 3) startTerms (es ++ List.replicate m (.provide 0 8)) s' ∧ HasText s' n (x - m) := by
  induction m with
  | zero =>
    rw [replicate_zero, append_nil]
    exact ⟨s, hrun, h⟩
  | succ m ih =>
    obtain ⟨s', hrun', htext⟩ := ih
    rw [replicate_succ', ← append_assoc]
    exact ⟨_, run_provide hrun' 0 8 (by decide), htext.backspace⟩

/-- With 102 rows, the cursor taken back to the first one and the last one at the top, the first row counts
as on the screen, 24 rows below the top: a character is drawn there and a redraw would take it away. -/
theorem provideChar_differs : ∃ s, Run (CallStep 3) startTerms
    (List.replicate 101 (.provide 0 10) ++ List.replicate 8080 (.provide 0 8) ++ [.scroll 124 false]) s ∧
      Shows s ∧ ¬ Shows (vtProvideChar s 0 120) := by
  obtain ⟨s₁, hrun₁, htext₁⟩ := newlines_run (n := 101) (by decide)
  obtain ⟨s₂, hrun₂, hcur, T, hT, hrows, hat⟩ := backspaces_run hrun₁ htext₁ 8080
  have hrun := run_scroll hrun₂ 124 false
  have hshow : Shows (vtScroll s₂ 124 false) := redraw_shows _
  refine ⟨_, hrun, hshow, fun hs => (provide_shows_iff (sound_run hrun) hshow 120).1 hs ?_⟩
  obtain ⟨k, hk⟩ := (sound_run hrun₂ 0).row_of hT
  have hscroll := hk.scroll 124 false
  have hlast : scrolledRow T.rows.length k 124 false = 101 := by
    rw [scrolledRow, if_neg Bool.false_ne_true, if_pos (by omega), hrows]
  rw [hlast] at hscroll
  have hterm : (vtScroll s₂ 124 false).terms 0 = { s₂.terms 0 with vtTop := scrolledTop (s₂.terms 0) 124 false } := by
    rw [scroll_terms, hcur, update_self]
  unfold Hidden
  rw [hterm]
  dsimp only
  rw [hscroll.cursorTop, hscroll.tailTop, hat, hrows]
  exact ⟨hcur, by decide, by decide, by decide, by decide⟩

end Weenix.Vt
