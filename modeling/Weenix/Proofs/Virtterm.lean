import Weenix.Lib.Cyclic
import Weenix.Spec.Virtterm

/-! The circular buffer of a virtual terminal represents a terminal with a list of rows. -/

namespace Weenix.Vt

open Cyclic Function List

/-! ### The terminal that is meant -/

abbrev Row := Fin 80 → UInt8

def blank : Row := fun _ => 0

/-- The rows held, oldest first, and a cursor inside them. -/
structure Terminal where
  rows : List Row
  row : ℕ
  col : Fin 80
  inside : row < rows.length
  held : rows.length ≤ 124

namespace Terminal

def init : Terminal := ⟨[blank], 0, 0, by decide, by decide⟩

def write (T : Terminal) (c : UInt8) : Terminal where
  rows := T.rows.modify T.row fun r => update r T.col c
  row := T.row
  col := T.col
  inside := by
    rw [length_modify]
    exact T.inside
  held := by
    rw [length_modify]
    exact T.held

/-- To the start of the next row. Behind the last row a blank one is appended, and the oldest
one is dropped if 124 are held. -/
def nextRow (T : Terminal) : Terminal :=
  if h : T.row + 1 < T.rows.length then ⟨T.rows, T.row + 1, 0, h, T.held⟩
  else if hn : T.rows.length < 124 then ⟨T.rows ++ [blank], T.row + 1, 0, by
    have := T.inside
    simpa using this, by
    simpa using hn⟩
  else ⟨T.rows.tail ++ [blank], T.row, 0, by
    have h1 := T.inside
    have h2 := T.held
    simp
    omega, by
    have h2 := T.held
    simp
    omega⟩

def right (T : Terminal) : Terminal :=
  if h : T.col.val + 1 < 80 then { T with col := ⟨T.col.val + 1, h⟩ } else T.nextRow

def back (T : Terminal) : Terminal :=
  if T.col.val ≠ 0 then { T with col := ⟨T.col.val - 1, by omega⟩ }
  else if T.row ≠ 0 then { T with row := T.row - 1, col := 79, inside := by have := T.inside; omega }
  else T

def handle (T : Terminal) (c : UInt8) : Terminal :=
  if c = 8 then T.back
  else if c = 13 then { T with col := 0 }
  else if c = 10 then T.nextRow
  else (T.write c).right

end Terminal

/-! ### Positions -/

variable {vt : Virtterm} {T : Terminal} {head n x y : ℕ}

/-- The position `x` characters behind the head of the buffer. -/
def pos (head x : ℕ) : ℕ := place SCROLL_BUFSIZE head x

theorem bufsize : SCROLL_BUFSIZE = 10000 := rfl

theorem pos_eq (head x : ℕ) : pos head x = (head + x) % 10000 := rfl

theorem nextRow_pos (hh : head % 80 = 0) : nextRow (pos head x) = pos head ((x / 80 + 1) * 80) := by
  simp only [nextRow, pos_eq, DISPLAY_WIDTH, bufsize]
  omega

theorem bufInc_pos (head x : ℕ) : bufInc (pos head x) = pos head (x + 1) := by
  simp only [bufInc, pos_eq, bufsize]
  omega

theorem bufDec_pos (hx : 0 < x) : bufDec (pos head x) = pos head (x - 1) := by
  simp only [bufDec, pos_eq, bufsize]
  omega

theorem rowStart_pos (hh : head % 80 = 0) :
    pos head x / DISPLAY_WIDTH * DISPLAY_WIDTH = pos head (x / 80 * 80) := by
  simp only [pos_eq, DISPLAY_WIDTH]
  omega

theorem circDist_pos (hxy : x ≤ y) (hlt : y - x < 10000) : circDist (pos head y) (pos head x) = y - x :=
  dist_place (by decide) hxy hlt

theorem circDist_back (hx : 0 < x) (hlt : x < 10000) :
    circDist (pos head y) (pos head (y + x)) = 10000 - x := by
  have hback : pos head y = pos head (y + 10000) := by
    simp only [pos_eq]
    omega
  rw [hback, circDist_pos (by omega) (by omega)]
  omega

theorem pos_head (hh : head < SCROLL_BUFSIZE) : pos head 0 = head := place_zero hh

/-! ### Behind the last row -/

/-- The cursor moves on inside the rows held. -/
theorem handleTail_inside (ht : vt.vtTail = pos head (80 * n)) (hc : vt.vtCursor = pos head x) (hn : n ≤ 124)
    (hxy : x ≤ y) (hy : y < 80 * n) : handleTail vt (pos head y) = vt := by
  unfold handleTail
  rw [ht, hc, circDist_pos hxy (by omega), circDist_pos (by omega) (by omega), if_neg (by omega)]

/-- The row behind the last one is cleared, in one piece or in two. -/
theorem memset_row (buf : Buf) (hh : head % 80 = 0) :
    (if pos head (80 * n) ≤ pos head (80 * n + 80) then
        memset buf (pos head (80 * n)) 0 (pos head (80 * n + 80) - pos head (80 * n))
      else memset (memset buf (pos head (80 * n)) 0 (SCROLL_BUFSIZE - pos head (80 * n))) 0 0
        (pos head (80 * n + 80))) = memset buf (pos head (80 * n)) 0 80 := by
  have hrow : pos head (80 * n) % 80 = 0 ∧ pos head (80 * n) < 10000 := by
    simp only [pos_eq]
    omega
  have hnext : pos head (80 * n + 80) = (pos head (80 * n) + 80) % 10000 := (place_add head (80 * n) 80).symm
  rw [hnext]
  generalize pos head (80 * n) = p at hrow ⊢
  by_cases hlast : p = 9920
  · subst hlast
    exact congrArg (fun b => memset b 0 0 0) rfl
  · rw [Nat.mod_eq_of_lt (by omega), if_pos (by omega), Nat.add_sub_cancel_left]

/-- The cursor leaves the last row: a blank row comes behind it, and with 124 rows held the
oldest one goes. -/
theorem handleTail_append (ht : vt.vtTail = pos head (80 * n)) (hc : vt.vtCursor = pos head x)
    (hhead : vt.vtHead = head) (hh : head % 80 = 0) (hlt : head < SCROLL_BUFSIZE) (hn : n ≤ 124) :
    handleTail vt (pos head (80 * n)) =
      { vt with
        vtHead := if n = 124 then pos head 80 else head
        vtTail := pos head (80 * n + 80)
        vtBuf := memset vt.vtBuf (pos head (80 * n)) 0 80 } := by
  have hnew : nextRow (pos head (80 * n)) = pos head (80 * n + 80) := by
    rw [nextRow_pos hh]
    congr 1
    omega
  have hdist : circDist (pos head (80 * n)) head = 80 * n := by
    have h := @circDist_pos head 0 (80 * n) (Nat.zero_le _) (by omega)
    rwa [pos_head hlt] at h
  have hhd : (if circDist (pos head (80 * n)) head ≥ circDist (pos head (80 * n)) (pos head (80 * n + 80)) then
      nextRow (pos head (80 * n + 80)) else head) = if n = 124 then pos head 80 else head := by
    rw [hdist, circDist_back (by decide) (by decide), nextRow_pos hh]
    by_cases h : n = 124
    · rw [if_pos (by omega), if_pos h, h]
      simp only [pos_eq]
      omega
    · rw [if_neg (by omega), if_neg h]
  unfold handleTail
  rw [ht, hc, hhead, if_pos le_rfl, hnew]
  dsimp only
  rw [hhd, memset_row vt.vtBuf hh]

/-! ### Representation -/

/-- The rows of the terminal lie in the buffer one behind the other, from the head on. -/
structure Rep (vt : Virtterm) (T : Terminal) : Prop where
  aligned : vt.vtHead % 80 = 0
  head : vt.vtHead < SCROLL_BUFSIZE
  tail : vt.vtTail = pos vt.vtHead (80 * T.rows.length)
  cursor : vt.vtCursor = pos vt.vtHead (80 * T.row + T.col)
  cells : ∀ i r, T.rows[i]? = some r → ∀ j : Fin 80, vt.vtBuf (pos vt.vtHead (80 * i + j)) = r j

theorem rep_init : Rep vtInit Terminal.init := by
  refine ⟨rfl, by decide, rfl, rfl, ?_⟩
  intro i r hr j
  obtain ⟨-, rfl⟩ : i = 0 ∧ blank = r := by simpa [Terminal.init, List.getElem?_singleton] using hr
  rfl

theorem Terminal.cursor_lt (T : Terminal) : 80 * T.row + T.col < 80 * T.rows.length := by
  have := T.inside
  omega

theorem pos_inj (hx : x < 10000) (hy : y < 10000) (h : pos head x = pos head y) : x = y :=
  place_inj (by decide) hx hy h

theorem memset_row_apply (buf : Buf) (hh : head % 80 = 0) {i : ℕ} (hi : i < 125) (hn : n < 125) (j : Fin 80) :
    memset buf (pos head (80 * n)) 0 80 (pos head (80 * i + j)) =
      if i = n then 0 else buf (pos head (80 * i + j)) := by
  unfold memset
  congr 1
  simp only [pos_eq, eq_iff_iff]
  omega

theorem append_blank_cases {rows : List Row} {i : ℕ} {r : Row} (h : (rows ++ [blank])[i]? = some r) :
    i < rows.length ∧ rows[i]? = some r ∨ i = rows.length ∧ r = blank := by
  rw [List.getElem?_append] at h
  split_ifs at h with hi
  · exact .inl ⟨hi, h⟩
  obtain ⟨hz, rfl⟩ : i - rows.length = 0 ∧ blank = r := by simpa [List.getElem?_singleton] using h
  exact .inr ⟨by omega, rfl⟩

namespace Rep

section
variable (h : Rep vt T)
include h

/-- A move of the cursor alone. -/
theorem move {c r : ℕ} {col : Fin 80} (hr : r < T.rows.length) (hc : c = pos vt.vtHead (80 * r + col)) :
    Rep { vt with vtCursor := c } { T with row := r, col := col, inside := hr } :=
  ⟨h.aligned, h.head, h.tail, hc, h.cells⟩

theorem back :
    Rep { vt with vtCursor := if vt.vtCursor ≠ vt.vtHead then bufDec vt.vtCursor else vt.vtCursor } T.back := by
  have hlt := T.cursor_lt
  have hheld := T.held
  have hhead : vt.vtCursor = vt.vtHead ↔ 80 * T.row + T.col = 0 := by
    rw [h.cursor]
    constructor
    · intro he
      exact pos_inj (by omega) (by decide) (he.trans (pos_head h.head).symm)
    · intro he
      rw [he, pos_head h.head]
  unfold Terminal.back
  by_cases hcol : T.col.val ≠ 0
  · rw [if_pos hcol, if_pos fun he => by have := hhead.mp he; omega]
    apply h.move T.inside
    rw [h.cursor, bufDec_pos (by omega), Nat.add_sub_assoc (by omega)]
  rw [if_neg hcol]
  by_cases hrow : T.row ≠ 0
  · rw [if_pos hrow, if_pos fun he => by have := hhead.mp he; omega]
    apply h.move
    rw [h.cursor, bufDec_pos (by omega)]
    congr 1
    omega
  · rw [if_neg hrow, if_neg (not_not.mpr (hhead.mpr (by omega)))]
    exact h

theorem carriage :
    Rep { vt with vtCursor := vt.vtCursor / DISPLAY_WIDTH * DISPLAY_WIDTH } { T with col := 0 } := by
  apply h.move T.inside
  rw [h.cursor, rowStart_pos h.aligned]
  congr 1
  omega

theorem write (c : UInt8) : Rep { vt with vtBuf := update vt.vtBuf vt.vtCursor c } (T.write c) := by
  have hheld := T.held
  have hlt := T.cursor_lt
  refine ⟨h.aligned, h.head, ?_, h.cursor, ?_⟩
  · rw [Terminal.write, length_modify]
    exact h.tail
  intro i r hr j
  simp only [Terminal.write, List.getElem?_modify, Option.map_eq_map, Option.map_eq_some_iff] at hr
  obtain ⟨r0, hr0, rfl⟩ := hr
  have hi : i < T.rows.length := (List.getElem?_eq_some_iff.mp hr0).1
  have hcell : pos vt.vtHead (80 * i + j) = pos vt.vtHead (80 * T.row + T.col) ↔ T.row = i ∧ j = T.col := by
    constructor
    · intro he
      have := pos_inj (by omega) (by omega) he
      omega
    · rintro ⟨rfl, rfl⟩
      rfl
  have hold := h.cells i r0 hr0 j
  dsimp only
  rw [update_apply, h.cursor, hold]
  simp only [hcell]
  by_cases hrow : T.row = i
  · simp only [hrow, true_and, if_true, update_apply]
  · simp only [hrow, false_and, if_false]

/-- A newline, or a character behind which the row ends. -/
theorem newline {c : ℕ} (hc : c = pos vt.vtHead (80 * (T.row + 1))) :
    Rep { handleTail vt c with vtCursor := c } T.nextRow := by
  have hheld := T.held
  have hlt := T.cursor_lt
  unfold Terminal.nextRow
  split_ifs with hlast hroom
  · rw [hc, handleTail_inside h.tail h.cursor hheld (by omega) (by omega)]
    exact h.move hlast rfl
  all_goals
    have hrow : T.row + 1 = T.rows.length := by omega
    have happ := handleTail_append h.tail h.cursor rfl h.aligned h.head hheld
    have hclear : ∀ i < 125, ∀ j : Fin 80, memset vt.vtBuf (pos vt.vtHead (80 * T.rows.length)) 0 80
        (pos vt.vtHead (80 * i + j)) = if i = T.rows.length then 0 else vt.vtBuf (pos vt.vtHead (80 * i + j)) :=
      fun i hi j => memset_row_apply vt.vtBuf h.aligned hi (by omega) j
    rw [hrow] at hc
    rw [← hc] at happ hclear
    rw [happ]
  · rw [if_neg (by omega)]
    refine ⟨h.aligned, h.head, ?_, ?_, ?_⟩
    · simp only [length_append, length_singleton, Nat.mul_add]
    · exact hc.trans (congrArg (fun k => pos vt.vtHead (80 * k + 0)) hrow.symm)
    intro i r hr j
    obtain ⟨hi, hr⟩ | ⟨rfl, rfl⟩ := append_blank_cases hr
    · have hi' : i ≠ T.rows.length := by omega
      exact (hclear i (by omega) j).trans ((if_neg hi').trans (h.cells i r hr j))
    · exact (hclear T.rows.length (by omega) j).trans (if_pos rfl)
  have hfull : T.rows.length = 124 := by omega
  have hshift : ∀ x, pos (pos vt.vtHead 80) x = pos vt.vtHead (80 + x) := place_place vt.vtHead 80
  rw [if_pos hfull]
  refine ⟨?_, place_lt (by decide) _ _, ?_, ?_, ?_⟩
  · have := h.aligned
    simp only [pos_eq]
    omega
  · simp only [length_append, length_tail, length_singleton, hshift]
    congr 1
    omega
  · rw [hshift]
    refine hc.trans (congrArg (pos vt.vtHead) ?_)
    change 80 * T.rows.length = 80 + (80 * T.row + 0)
    omega
  intro i r hr j
  have hnext : 80 + (80 * i + j.val) = 80 * (i + 1) + j := by omega
  have hi := (List.getElem?_eq_some_iff.mp hr).1
  simp only [length_append, length_tail, length_singleton] at hi
  have hold := hclear (i + 1) (by omega) j
  dsimp only
  rw [hshift, hnext, hold]
  obtain ⟨hi, hr⟩ | ⟨rfl, rfl⟩ := append_blank_cases hr
  · rw [length_tail] at hi
    rw [List.getElem?_tail] at hr
    rw [if_neg (by omega), h.cells (i + 1) r hr j]
  · rw [length_tail, if_pos (by omega)]
    rfl

theorem right : Rep { handleTail vt (bufInc vt.vtCursor) with vtCursor := bufInc vt.vtCursor } T.right := by
  have hin := T.inside
  have hc : bufInc vt.vtCursor = pos vt.vtHead (80 * T.row + T.col + 1) := by
    rw [h.cursor, bufInc_pos]
  unfold Terminal.right
  split_ifs with hcol
  · rw [hc, handleTail_inside h.tail h.cursor T.held (by omega) (by omega)]
    exact h.move hin rfl
  apply h.newline
  rw [hc]
  exact congrArg (pos vt.vtHead) (by omega)

theorem handle (c : UInt8) : Rep (vtHandleChar vt c).1 (T.handle c) := by
  unfold vtHandleChar Terminal.handle
  by_cases h8 : c = 8
  · rw [if_pos h8, if_pos h8]
    exact h.back
  rw [if_neg h8, if_neg h8]
  by_cases h13 : c = 13
  · rw [if_pos h13, if_pos h13]
    exact h.carriage
  rw [if_neg h13, if_neg h13]
  by_cases h10 : c = 10
  · rw [if_pos h10, if_pos h10]
    apply h.newline
    rw [h.cursor, nextRow_pos h.aligned]
    exact congrArg (pos vt.vtHead) (by omega)
  · rw [if_neg h10, if_neg h10]
    exact (h.write c).right

theorem top (t : ℕ) : Rep { vt with vtTop := t } T :=
  ⟨h.aligned, h.head, h.tail, h.cursor, h.cells⟩

end

end Rep

/-! ### The screen -/

/-- What the screen shows from row `k` on. -/
def Terminal.screen (T : Terminal) (k : ℕ) (i : ℕ) : UInt8 :=
  if h : k + i / 80 < T.rows.length then T.rows[k + i / 80] ⟨i % 80, Nat.mod_lt _ (by decide)⟩ else 0

/-- `vt_redraw` copies the buffer from the top to the tail, in one piece or in two, as far as it fits. -/
theorem vtRedraw_apply {i : ℕ} (htop : vt.vtTop < SCROLL_BUFSIZE) (htail : vt.vtTail < SCROLL_BUFSIZE)
    (hi : i < DISPLAY_SIZE) :
    vtRedraw vt i = if i < circDist vt.vtTail vt.vtTop then vt.vtBuf ((vt.vtTop + i) % SCROLL_BUFSIZE) else 0 := by
  have hsize : DISPLAY_SIZE = 2000 := rfl
  rw [bufsize] at htop htail
  rcases le_or_gt vt.vtTop vt.vtTail with hle | hgt
  · have hdist : circDist vt.vtTail vt.vtTop = vt.vtTail - vt.vtTop := by
      rw [circDist, bufsize]
      omega
    simp only [hdist, vtRedraw, memcpy, ite_apply, hsize, bufsize, if_pos hle]
    split_ifs <;> first | rfl | omega | exact congrArg vt.vtBuf (by omega)
  have hdist : circDist vt.vtTail vt.vtTop = 10000 - vt.vtTop + vt.vtTail := by
    rw [circDist, bufsize]
    omega
  simp only [hdist, vtRedraw, memcpy, ite_apply, hsize, bufsize, if_neg (Nat.not_le.2 hgt)]
  split_ifs <;> first | rfl | omega | exact congrArg vt.vtBuf (by omega)

theorem redraw_apply {k i : ℕ} (hk : k < n) (hn : n ≤ 124) (hi : i < DISPLAY_SIZE)
    (htop : vt.vtTop = pos head (80 * k)) (htail : vt.vtTail = pos head (80 * n)) :
    vtRedraw vt i = if 80 * k + i < 80 * n then vt.vtBuf (pos head (80 * k + i)) else 0 := by
  have hplace : (pos head (80 * k) + i) % SCROLL_BUFSIZE = pos head (80 * k + i) := place_add head (80 * k) i
  have hshown : i < 80 * n - 80 * k ↔ 80 * k + i < 80 * n := by omega
  rw [vtRedraw_apply (htop ▸ place_lt (by decide) _ _) (htail ▸ place_lt (by decide) _ _) hi, htop, htail,
    circDist_pos (by omega) (by omega), hplace]
  simp only [hshown]

theorem Rep.screen (h : Rep vt T) {k : ℕ} (hk : k < T.rows.length) (htop : vt.vtTop = pos vt.vtHead (80 * k))
    {i : ℕ} (hi : i < DISPLAY_SIZE) : vtRedraw vt i = T.screen k i := by
  rw [redraw_apply hk T.held hi htop h.tail]
  unfold Terminal.screen
  by_cases hrow : k + i / 80 < T.rows.length
  · have hcell := h.cells (k + i / 80) T.rows[k + i / 80] (List.getElem?_eq_getElem hrow)
    rw [if_pos (by omega), dif_pos hrow, ← hcell]
    exact congrArg (fun x => vt.vtBuf (pos vt.vtHead x)) (by dsimp only; omega)
  · rw [if_neg (by omega), dif_neg hrow]

/-! ### Every sequence of characters -/

/-- Characters one after the other, with the top of the screen anywhere at each of them. -/
def typed (vt : Virtterm) : List (ℕ × UInt8) → Virtterm
  | [] => vt
  | (top, c) :: cs => typed (vtHandleChar { vt with vtTop := top } c).1 cs

theorem Rep.typed (h : Rep vt T) (cs : List (ℕ × UInt8)) :
    Rep (typed vt cs) ((cs.map Prod.snd).foldl Terminal.handle T) := by
  induction cs generalizing vt T with
  | nil => exact h
  | cons tc cs ih =>
    obtain ⟨t, c⟩ := tc
    exact ih ((h.top t).handle c)

/-- The buffer holds the rows of the terminal, and from any of them on it is what the screen
shows. -/
theorem vt_buffer_is_terminal (cs : List (ℕ × UInt8)) :
    Rep (typed vtInit cs) ((cs.map Prod.snd).foldl Terminal.handle Terminal.init) ∧
      ∀ k top, k < ((cs.map Prod.snd).foldl Terminal.handle Terminal.init).rows.length →
        top = pos (typed vtInit cs).vtHead (80 * k) →
        ∀ i < DISPLAY_SIZE, vtRedraw { typed vtInit cs with vtTop := top } i =
          ((cs.map Prod.snd).foldl Terminal.handle Terminal.init).screen k i := by
  have h := rep_init.typed cs
  refine ⟨h, ?_⟩
  intro k top hk htop i hi
  exact (h.top top).screen hk htop hi

end Weenix.Vt
