import Weenix.Lib.Run
import Weenix.Proofs.Virtterm

/-! The part of a virtual terminal that is on the screen: when the top of the window stays on a row
that is held. -/

namespace Weenix.Vt

open Function

open Runs (Run)

variable {vt : Virtterm} {T : Terminal} {k : ℕ} {c : UInt8} {s s' : Terms} {nterms : ℕ}

/-! ### What a character does -/

def Printable (c : UInt8) : Prop := c ≠ 8 ∧ c ≠ 13 ∧ c ≠ 10

instance (c : UInt8) : Decidable (Printable c) := inferInstanceAs (Decidable (_ ∧ _ ∧ _))

/-- The position of the cursor, from the first row held. -/
def Terminal.at (T : Terminal) : ℕ := 80 * T.row + T.col

def Terminal.target (T : Terminal) (c : UInt8) : ℕ :=
  if c = 8 then T.at - 1 else if c = 13 then 80 * T.row else if c = 10 then 80 * (T.row + 1) else T.at + 1

def written (vt : Virtterm) (c : UInt8) : Virtterm :=
  if Printable c then { vt with vtBuf := update vt.vtBuf vt.vtCursor c } else vt

/-- A blank row comes behind the `n` rows held, and the oldest one goes if there are 124. -/
def extended (vt : Virtterm) (n : ℕ) : Virtterm :=
  { vt with
    vtHead := if n = 124 then pos vt.vtHead 80 else vt.vtHead
    vtTail := pos vt.vtHead (80 * n + 80)
    vtBuf := memset vt.vtBuf (pos vt.vtHead (80 * n)) 0 80 }

/-- The rows after the cursor has moved to a position. -/
def reached (vt : Virtterm) (n y : ℕ) : Virtterm := if y < 80 * n then vt else extended vt n

/-- The terminal after a character. -/
def handled (vt : Virtterm) (T : Terminal) (c : UInt8) : Virtterm :=
  { reached (written vt c) T.rows.length (T.target c) with vtCursor := pos vt.vtHead (T.target c) }

theorem Terminal.at_lt (T : Terminal) : T.at < 80 * T.rows.length := T.cursor_lt

theorem Terminal.bounds (T : Terminal) :
    T.at = 80 * T.row + T.col ∧ T.col.val < 80 ∧ T.row < T.rows.length ∧ T.rows.length ≤ 124 :=
  ⟨rfl, T.col.isLt, T.inside, T.held⟩

theorem Terminal.target_le (T : Terminal) (c : UInt8) : T.target c ≤ 80 * T.rows.length := by
  have hat := T.at_lt
  have hin := T.inside
  unfold Terminal.target
  split_ifs <;> omega

theorem handleTail_to (h : Rep vt T) {y : ℕ} (hx : T.at ≤ y) (hy : y ≤ 80 * T.rows.length) :
    handleTail vt (pos vt.vtHead y) = reached vt T.rows.length y := by
  unfold reached
  by_cases hlt : y < 80 * T.rows.length
  · rw [if_pos hlt]
    exact handleTail_inside h.tail h.cursor T.held hx hlt
  · rw [if_neg hlt, show y = 80 * T.rows.length by omega]
    exact handleTail_append h.tail h.cursor rfl h.aligned h.head T.held

theorem Rep.cursor_eq_head (h : Rep vt T) : vt.vtCursor = vt.vtHead ↔ T.at = 0 := by
  have hheld := T.held
  have hat := T.at_lt
  have hcur : vt.vtCursor = pos vt.vtHead T.at := h.cursor
  rw [hcur]
  constructor
  · intro heq
    exact pos_inj (by omega) (by omega) (heq.trans (pos_head h.head).symm)
  · intro h0
    rw [h0, pos_head h.head]

theorem vtHandleChar_eq (h : Rep vt T) (c : UInt8) : vtHandleChar vt c = (handled vt T c, decide (Printable c)) := by
  have hle := T.target_le c
  obtain ⟨hdef, hcol, hin, -⟩ := T.bounds
  have hcur : vt.vtCursor = pos vt.vtHead T.at := h.cursor
  unfold vtHandleChar handled
  by_cases h8 : c = 8
  · have htar : T.target c = T.at - 1 := by rw [Terminal.target, if_pos h8]
    have hback : (if vt.vtCursor ≠ vt.vtHead then bufDec vt.vtCursor else vt.vtCursor) = pos vt.vtHead (T.at - 1) := by
      by_cases h0 : T.at = 0
      · rw [if_neg (not_not.2 (h.cursor_eq_head.2 h0)), hcur, h0]
      · rw [if_pos (mt h.cursor_eq_head.1 h0), hcur, bufDec_pos (by omega)]
    have hprint : ¬ Printable c := fun hp => hp.1 h8
    rw [if_pos h8, hback, htar, reached, if_pos (by omega), written, if_neg hprint, decide_eq_false hprint]
  rw [if_neg h8]
  by_cases h13 : c = 13
  · have htar : T.target c = 80 * T.row := by rw [Terminal.target, if_neg h8, if_pos h13]
    have hprint : ¬ Printable c := fun hp => hp.2.1 h13
    rw [if_pos h13, hcur, rowStart_pos h.aligned, show T.at / 80 * 80 = 80 * T.row by omega, htar, reached,
      if_pos (by omega), written, if_neg hprint, decide_eq_false hprint]
  rw [if_neg h13]
  by_cases h10 : c = 10
  · have htar : T.target c = 80 * (T.row + 1) := by rw [Terminal.target, if_neg h8, if_neg h13, if_pos h10]
    have hprint : ¬ Printable c := fun hp => hp.2.2 h10
    have hnext : nextRow vt.vtCursor = pos vt.vtHead (T.target c) := by
      rw [hcur, nextRow_pos h.aligned, htar, show (T.at / 80 + 1) * 80 = 80 * (T.row + 1) by omega]
    dsimp only
    rw [if_pos h10, hnext, handleTail_to h (by omega) hle, written, if_neg hprint, decide_eq_false hprint]
  have htar : T.target c = T.at + 1 := by rw [Terminal.target, if_neg h8, if_neg h13, if_neg h10]
  have hprint : Printable c := ⟨h8, h13, h10⟩
  have hnext : bufInc vt.vtCursor = pos vt.vtHead (T.target c) := by rw [hcur, bufInc_pos, htar]
  dsimp only
  rw [if_neg h10, hnext, written, if_pos hprint, decide_eq_true hprint]
  have hlen : (T.write c).rows.length = T.rows.length := List.length_modify ..
  have htail := handleTail_to (h.write c) (y := T.target c) (by change T.at ≤ _; omega) (by omega)
  rw [hlen] at htail
  rw [show handleTail _ (pos vt.vtHead (T.target c)) = _ from htail]

/-! ### Rows -/

theorem circDist_pos_mod {head x : ℕ} (y : ℕ) (hx : x ≤ 10000) :
    circDist (pos head y) (pos head x) = (y + (10000 - x)) % 10000 := by
  simp only [circDist, pos_eq, bufsize]
  omega

theorem circDist_head {head y : ℕ} (hh : head < SCROLL_BUFSIZE) (hy : y < 10000) : circDist (pos head y) head = y := by
  rw [bufsize] at hh
  simp only [circDist, pos_eq, bufsize]
  omega

/-- The buffer holds a terminal and the top is the start of some row of the buffer, held or not. -/
structure Sound (vt : Virtterm) : Prop where
  rep : ∃ T, Rep vt T
  row : vt.vtTop % 80 = 0
  top : vt.vtTop < SCROLL_BUFSIZE

/-- The top of the window is row `k` of the buffer, counted from the head. -/
structure Placed (vt : Virtterm) (T : Terminal) (k : ℕ) : Prop extends Rep vt T where
  row : vt.vtTop = pos vt.vtHead (80 * k)
  lt : k < 125

theorem Sound.row_of (h : Sound vt) (hT : Rep vt T) : ∃ k, Placed vt T k := by
  have hlt := h.top
  have hrow := h.row
  have hhead := hT.head
  have hal := hT.aligned
  rw [bufsize] at hlt hhead
  refine ⟨(vt.vtTop + 10000 - vt.vtHead) / 80 % 125, hT, ?_, Nat.mod_lt _ (by decide)⟩
  rw [pos_eq]
  omega

theorem Sound.placed (h : Sound vt) : ∃ T k, Placed vt T k := by
  obtain ⟨T, hT⟩ := h.rep
  exact ⟨T, h.row_of hT⟩

theorem Placed.sound (h : Placed vt T k) : Sound vt := by
  have hal := h.aligned
  refine ⟨⟨T, h.toRep⟩, ?_, ?_⟩
  · rw [h.row, pos_eq]
    omega
  · rw [h.row, pos_eq, bufsize]
    omega

/-- The top of the window is the start of a row that is held. -/
def Inside (vt : Virtterm) : Prop :=
  vt.vtTop % DISPLAY_WIDTH = 0 ∧ circDist vt.vtTop vt.vtHead < circDist vt.vtTail vt.vtHead

instance (vt : Virtterm) : Decidable (Inside vt) := inferInstanceAs (Decidable (_ ∧ _))

/-- Of the rows from the head on, the cursor is on one of the 25 from the top, or on the row below them. -/
def Near (vt : Virtterm) : Prop :=
  circDist vt.vtTop vt.vtHead ≤ circDist vt.vtCursor vt.vtHead ∧
    circDist vt.vtCursor vt.vtHead < circDist vt.vtTop vt.vtHead + DISPLAY_SIZE + DISPLAY_WIDTH

instance (vt : Virtterm) : Decidable (Near vt) := inferInstanceAs (Decidable (_ ∧ _))

/-- The row of the top after `vt_provide_char` has looked for the cursor. -/
def Terminal.followRow (T : Terminal) (k : ℕ) : ℕ :=
  if (T.at + (10000 - 80 * k)) % 10000 ≥ 2000 then (T.row + 101) % 125 else k

namespace Placed

section
variable (h : Placed vt T k)
include h

theorem topDist : circDist vt.vtTop vt.vtHead = 80 * k := by
  have hk := h.lt
  rw [h.row, circDist_head h.head (by omega)]

theorem tailDist : circDist vt.vtTail vt.vtHead = 80 * T.rows.length := by
  have hheld := T.held
  rw [h.tail, circDist_head h.head (by omega)]

theorem cursorDist : circDist vt.vtCursor vt.vtHead = T.at := by
  have hheld := T.held
  have hat := T.at_lt
  rw [h.cursor, circDist_head h.head (by change T.at < _; omega)]
  rfl

theorem cursorTop : circDist vt.vtCursor vt.vtTop = (T.at + (10000 - 80 * k)) % 10000 := by
  have hk := h.lt
  rw [h.cursor, h.row, circDist_pos_mod _ (by omega)]
  rfl

theorem tailTop : circDist vt.vtTail vt.vtTop = (80 * T.rows.length + (10000 - 80 * k)) % 10000 := by
  have hk := h.lt
  rw [h.tail, h.row, circDist_pos_mod _ (by omega)]

theorem inside_iff : Inside vt ↔ k < T.rows.length := by
  unfold Inside
  rw [h.topDist, h.tailDist]
  have hrow := h.sound.row
  constructor
  · intro hin
    omega
  · intro hlt
    exact ⟨hrow, by omega⟩

theorem follow : Placed (followCursor vt) T (T.followRow k) := by
  unfold followCursor Terminal.followRow
  rw [h.cursorTop]
  by_cases hfar : (T.at + (10000 - 80 * k)) % 10000 ≥ 2000
  · rw [if_pos hfar, if_pos (show _ ≥ DISPLAY_SIZE from hfar)]
    refine ⟨h.toRep.top _, ?_, Nat.mod_lt _ (by decide)⟩
    change bufSub (nextRow vt.vtCursor) DISPLAY_SIZE = pos vt.vtHead _
    rw [h.cursor, nextRow_pos h.aligned, bufSub, pos_eq, pos_eq, bufsize, show DISPLAY_SIZE = 2000 from rfl]
    omega
  · rw [if_neg hfar, if_neg (show ¬ _ ≥ DISPLAY_SIZE from hfar)]
    exact h

end

end Placed

theorem Terminal.followRow_near (T : Terminal) (k : ℕ) :
    (T.at + (10000 - 80 * T.followRow k)) % 10000 < 2000 := by
  obtain ⟨hdef, hcol, hin, hheld⟩ := T.bounds
  unfold Terminal.followRow
  split_ifs with hfar
  · omega
  · omega

@[simp]
theorem handled_vtTop (vt : Virtterm) (T : Terminal) (c : UInt8) : (handled vt T c).vtTop = vt.vtTop := by
  unfold handled reached written
  split_ifs <;> rfl

theorem Sound.handle (h : Sound vt) (c : UInt8) : Sound (vtHandleChar vt c).1 := by
  obtain ⟨T, hT⟩ := h.rep
  have htop : (vtHandleChar vt c).1.vtTop = vt.vtTop := by rw [vtHandleChar_eq hT, handled_vtTop]
  refine ⟨⟨_, hT.handle c⟩, ?_, ?_⟩
  · rw [htop]
    exact h.row
  · rw [htop]
    exact h.top

/-- A row is appended only behind the last one. -/
theorem Terminal.row_of_target (h : ¬ T.target c < 80 * T.rows.length) :
    T.target c = 80 * T.rows.length ∧ T.row + 1 = T.rows.length := by
  obtain ⟨hdef, hcol, hin, -⟩ := T.bounds
  have hle := T.target_le c
  refine ⟨by omega, ?_⟩
  unfold Terminal.target at h
  split_ifs at h <;> omega

theorem written_frame (vt : Virtterm) (c : UInt8) : written vt c = { vt with vtBuf := (written vt c).vtBuf } := by
  unfold written
  split_ifs <;> rfl

/-- A character keeps the window on the text or off it: where a row is appended, the cursor, which
is on the screen, is on the last row. -/
theorem Placed.inside_handled (h : Placed vt T k) (hnear : (T.at + (10000 - 80 * k)) % 10000 < 2000) (c : UInt8) :
    Inside (handled vt T c) ↔ Inside vt := by
  obtain ⟨hdef, hcol, hin, hheld⟩ := T.bounds
  have hrow := h.sound.row
  unfold handled reached
  rw [written_frame]
  by_cases hlt : T.target c < 80 * T.rows.length
  · rw [if_pos hlt]
    exact Iff.rfl
  rw [if_neg hlt]
  obtain ⟨-, hlast⟩ := T.row_of_target hlt
  rw [h.inside_iff]
  unfold Inside extended
  dsimp only
  by_cases hfull : T.rows.length = 124
  · rw [if_pos hfull, h.row, circDist_pos_mod _ (by decide), circDist_pos_mod _ (by decide), ← h.row]
    change _ % 80 = 0 ∧ _ ↔ _
    omega
  rw [if_neg hfull, h.topDist, circDist_head h.head (by omega)]
  change _ % 80 = 0 ∧ _ ↔ _
  omega

/-- The cursor leaves the window only by a backspace at the top, if it is not above the top. -/
theorem Placed.near_handled (h : Placed vt T k) (hnear : (T.at + (10000 - 80 * k)) % 10000 < 2000) (c : UInt8) :
    k < T.rows.length ∧ Near (handled vt T c) ↔ 80 * k ≤ T.at ∧ (c = 8 → T.at = 80 * k → T.at = 0) := by
  have hk := h.lt
  have hle := T.target_le c
  obtain ⟨hdef, hcol, hin, hheld⟩ := T.bounds
  have hcur : (handled vt T c).vtCursor = pos vt.vtHead (T.target c) := rfl
  have hmove : 80 * k ≤ T.target c ∧ T.target c < 80 * k + 2080 ↔
      80 * k ≤ T.at ∧ (c = 8 → T.at = 80 * k → T.at = 0) := by
    unfold Terminal.target
    split_ifs with h8 <;> simp only [h8, true_implies, false_implies, and_true] <;> omega
  rw [← hmove]
  unfold Near
  rw [hcur, handled_vtTop, h.row]
  unfold handled reached
  rw [written_frame]
  change _ ∧ _ ∧ _ < _ + 2000 + 80 ↔ _
  by_cases hlt : T.target c < 80 * T.rows.length
  · rw [if_pos hlt, circDist_head h.head (by omega), circDist_head h.head (by omega)]
    omega
  rw [if_neg hlt]
  unfold extended
  by_cases hfull : T.rows.length = 124
  · rw [if_pos hfull, circDist_pos_mod _ (by decide), circDist_pos_mod _ (by decide)]
    omega
  rw [if_neg hfull, circDist_head h.head (by omega), circDist_head h.head (by omega)]
  omega

/-! ### The calls -/

inductive Call
  | provide (id : ℕ) (c : UInt8)
  | scroll (lines : ℕ) (scrollUp : Bool)
  | switch (term : ℤ)

def CallStep (nterms : ℕ) (s : Terms) : Call → Terms → Prop
  | .provide id c, s' => id < nterms ∧ s' = vtProvideChar s id c
  | .scroll lines scrollUp, s' => s' = vtScroll s lines scrollUp
  | .switch term, s' => s' = (vtSwitch nterms s term).1

theorem provideChar_terms (s : Terms) (id : ℕ) (c : UInt8) : (vtProvideChar s id c).terms =
    update s.terms id (vtHandleChar (followCursor (s.terms id)) c).1 := by
  unfold vtProvideChar
  dsimp only
  split_ifs <;> rfl

theorem provideChar_cur (s : Terms) (id : ℕ) (c : UInt8) : (vtProvideChar s id c).cur = s.cur := by
  unfold vtProvideChar
  dsimp only
  split_ifs <;> rfl

theorem scroll_terms (s : Terms) (lines : ℕ) (scrollUp : Bool) : (vtScroll s lines scrollUp).terms =
    update s.terms s.cur
      { s.terms s.cur with vtTop := scrolledTop (s.terms s.cur) lines scrollUp } := rfl

theorem switch_terms (nterms : ℕ) (s : Terms) (term : ℤ) : (vtSwitch nterms s term).1.terms = s.terms := by
  unfold vtSwitch
  split_ifs <;> rfl

theorem Sound.follow (h : Sound vt) : Sound (followCursor vt) := by
  obtain ⟨T, k, hp⟩ := h.placed
  exact hp.follow.sound

/-- The row of the top after `vt_scroll`, with `n` rows held. -/
def scrolledRow (n k lines : ℕ) (scrollUp : Bool) : ℕ :=
  if scrollUp then k - lines else if (n + (125 - k)) % 125 < lines + 1 then n - 1 else (k + lines) % 125

theorem Placed.scroll (h : Placed vt T k) (lines : ℕ) (scrollUp : Bool) :
    Placed { vt with vtTop := scrolledTop vt lines scrollUp } T (scrolledRow T.rows.length k lines scrollUp) := by
  have hk := h.lt
  have hin := T.inside
  have hheld := T.held
  have hhead := h.head
  refine ⟨h.toRep.top _, ?_, ?_⟩
  · unfold scrolledTop scrolledRow
    dsimp only
    rw [h.topDist, h.tailTop, DISPLAY_WIDTH]
    cases scrollUp with
    | true =>
      by_cases hfit : 80 * k < lines * 80
      · rw [if_pos rfl, if_pos hfit, if_pos rfl, show k - lines = 0 by omega, Nat.mul_zero, pos_head h.head]
      rw [if_pos rfl, if_neg hfit, if_pos rfl, bufSub, h.row, pos_eq, pos_eq, bufsize]
      omega
    | false =>
      rw [if_neg Bool.false_ne_true, if_neg Bool.false_ne_true]
      by_cases hfit : (T.rows.length + (125 - k)) % 125 < lines + 1
      · rw [if_pos hfit, if_pos (by omega), bufSub, h.tail, pos_eq, pos_eq, bufsize]
        omega
      · rw [if_neg hfit, if_neg (by omega), bufAdd, h.row, pos_eq, pos_eq, bufsize]
        omega
  · unfold scrolledRow
    split_ifs <;> omega

theorem sound_step {e : Call} (h : ∀ id, Sound (s.terms id)) (hs : CallStep nterms s e s') :
    ∀ id, Sound (s'.terms id) := by
  cases e with
  | provide id c =>
    obtain ⟨-, rfl⟩ := hs
    rw [provideChar_terms]
    exact (forall_update_iff _ fun _ => Sound).2 ⟨(h id).follow.handle c, fun id _ => h id⟩
  | scroll lines scrollUp =>
    obtain rfl := hs
    obtain ⟨T, k, hp⟩ := (h s.cur).placed
    exact (forall_update_iff _ fun _ => Sound).2 ⟨(hp.scroll lines scrollUp).sound, fun id _ => h id⟩
  | switch term =>
    obtain rfl := hs
    rw [switch_terms]
    exact h

theorem run_provide {es : List Call} {s0 : Terms} (h : Run (CallStep nterms) s0 es s) (id : ℕ) (c : UInt8)
    (hid : id < nterms) : Run (CallStep nterms) s0 (es ++ [.provide id c]) (vtProvideChar s id c) :=
  h.snoc ⟨hid, rfl⟩

theorem run_scroll {es : List Call} {s0 : Terms} (h : Run (CallStep nterms) s0 es s) (lines : ℕ)
    (scrollUp : Bool) : Run (CallStep nterms) s0 (es ++ [.scroll lines scrollUp]) (vtScroll s lines scrollUp) :=
  h.snoc rfl

theorem sound_init (scr : Screen) (id : ℕ) : Sound ((Terms.init scr).terms id) :=
  ⟨⟨_, rep_init⟩, rfl, show 0 < SCROLL_BUFSIZE by decide⟩

theorem sound_run {scr : Screen} {es : List Call} (hrun : Run (CallStep nterms) (Terms.init scr) es s) :
    ∀ id, Sound (s.terms id) :=
  hrun.invariant (I := fun s => ∀ id, Sound (s.terms id)) (sound_init scr) fun _ _ _ h hs => sound_step h hs

/-! ### The window stays on the text -/

/-- Every window is on the text, and that of the terminal a character has come to has the cursor. -/
def Windowed (nterms : ℕ) (e : Call) (s : Terms) : Prop :=
  (∀ id < nterms, Inside (s.terms id)) ∧ match e with
    | .provide id _ => Near (s.terms id)
    | _ => True

/-- When a character comes, the cursor is not above the top if `circ_dist` takes it to be on the screen, and on
row 24 or a later one if not; and no backspace comes at the top of the window, but at the first character held. -/
def Followed (s : Terms) : Call → Prop
  | .provide id c =>
    let vt := s.terms id
    (if circDist vt.vtCursor vt.vtTop < DISPLAY_SIZE then circDist vt.vtTop vt.vtHead ≤ circDist vt.vtCursor vt.vtHead
      else 24 * DISPLAY_WIDTH ≤ circDist vt.vtCursor vt.vtHead) ∧
    (c = 8 → vt.vtCursor = vt.vtTop → vt.vtCursor = vt.vtHead)
  | _ => True

theorem Placed.cursor_eq_top (h : Placed vt T k) : vt.vtCursor = vt.vtTop ↔ T.at = 80 * k := by
  have hk := h.lt
  have hheld := T.held
  have hat := T.at_lt
  have hcur : vt.vtCursor = pos vt.vtHead T.at := h.cursor
  rw [hcur, h.row]
  constructor
  · exact pos_inj (by omega) (by omega)
  intro he
  rw [he]

/-- After a character a window is on the text with the cursor exactly under the condition. -/
theorem provide_windowed {id : ℕ} (h : Sound (s.terms id)) (c : UInt8) :
    Inside (vtHandleChar (followCursor (s.terms id)) c).1 ∧ Near (vtHandleChar (followCursor (s.terms id)) c).1 ↔
      Followed s (.provide id c) := by
  unfold Followed
  dsimp only
  generalize s.terms id = vt at h ⊢
  obtain ⟨T, k, hp⟩ := h.placed
  have hnear := T.followRow_near k
  obtain ⟨hdef, hcol, hin, hheld⟩ := T.bounds
  rw [vtHandleChar_eq hp.follow.toRep, hp.follow.inside_handled hnear c, hp.follow.inside_iff,
    hp.follow.near_handled hnear c, hp.cursorTop, hp.cursorDist, hp.topDist, hp.cursor_eq_top,
    hp.toRep.cursor_eq_head, show DISPLAY_SIZE = 2000 from rfl, DISPLAY_WIDTH]
  have hatTop : T.at = 80 * T.followRow k ↔ T.at = 80 * k := by
    unfold Terminal.followRow
    split_ifs <;> omega
  rw [hatTop]
  refine and_congr_left' ?_
  unfold Terminal.followRow
  split_ifs <;> omega

theorem scroll_inside (h : Sound vt) (hin : Inside vt) (lines : ℕ) (scrollUp : Bool) :
    Inside { vt with vtTop := scrolledTop vt lines scrollUp } := by
  obtain ⟨T, k, hp⟩ := h.placed
  rw [hp.inside_iff] at hin
  rw [(hp.scroll lines scrollUp).inside_iff]
  unfold scrolledRow
  split_ifs <;> omega

theorem followed_of_windowed {e : Call} (hsound : ∀ id, Sound (s.terms id)) (hs : CallStep nterms s e s')
    (hw : Windowed nterms e s') : Followed s e := by
  cases e with
  | provide id c =>
    obtain ⟨hid, rfl⟩ := hs
    have hin := hw.1 id hid
    have hnear : Near _ := hw.2
    rw [provideChar_terms, update_self] at hin hnear
    exact (provide_windowed (hsound id) c).1 ⟨hin, hnear⟩
  | scroll | switch => trivial

theorem windowed_of_followed {e : Call} (hsound : ∀ id, Sound (s.terms id)) (hin : ∀ id < nterms, Inside (s.terms id))
    (hcur : s.cur < nterms) (hs : CallStep nterms s e s') (hf : Followed s e) : Windowed nterms e s' := by
  cases e with
  | provide id' c =>
    obtain ⟨hid', rfl⟩ := hs
    have hafter := (provide_windowed (hsound id') c).2 hf
    unfold Windowed
    dsimp only
    rw [provideChar_terms, update_self]
    refine ⟨(forall_update_iff _ fun id vt => id < nterms → Inside vt).2 ⟨fun _ => hafter.1, fun id _ => hin id⟩, ?_⟩
    exact hafter.2
  | scroll lines scrollUp =>
    obtain rfl := hs
    have htop := scroll_inside (hsound s.cur) (hin s.cur hcur) lines scrollUp
    exact ⟨(forall_update_iff _ fun id vt => id < nterms → Inside vt).2 ⟨fun _ => htop, fun id _ => hin id⟩, trivial⟩
  | switch term =>
    obtain rfl := hs
    refine ⟨?_, trivial⟩
    rw [switch_terms]
    exact hin

theorem cur_lt {e : Call} (h : s.cur < nterms) (hs : CallStep nterms s e s') : s'.cur < nterms := by
  cases e with
  | provide id c =>
    obtain ⟨-, rfl⟩ := hs
    rwa [provideChar_cur]
  | scroll =>
    obtain rfl := hs
    exact h
  | switch term =>
    obtain rfl := hs
    unfold vtSwitch
    split_ifs with hterm
    · exact h
    change term.toNat < nterms
    omega

/-- The windows start on the text, and in every run they stay there with the cursor, exactly if each
character comes under the condition. -/
theorem windowed_iff (hterms : 0 < nterms) (scr : Screen) (es : List Call) (s : Terms) :
    (∀ id, Inside ((Terms.init scr).terms id)) ∧
      (Run (fun x e y => CallStep nterms x e y ∧ Windowed nterms e y) (Terms.init scr) es s ↔
        Run (fun x e y => CallStep nterms x e y ∧ Followed x e) (Terms.init scr) es s) := by
  have hfirst : ∀ id, Inside ((Terms.init scr).terms id) := fun _ => show Inside vtInit by decide
  refine ⟨hfirst, ?_, ?_⟩
  · intro hrun
    have hsound : ∀ {es x}, Run (fun x e y => CallStep nterms x e y ∧ Windowed nterms e y) (Terms.init scr) es x →
        ∀ id, Sound (x.terms id) := fun h => sound_run (h.mono fun _ _ _ hs => hs.1)
    induction hrun with
    | nil => exact .nil
    | snoc h hs ih => exact ih.snoc ⟨hs.1, followed_of_windowed (hsound h) hs.1 hs.2⟩
  intro hrun
  -- The last state has its windows on the text as well.
  suffices hstate : Run _ _ es s ∧ (∀ id, Sound (s.terms id)) ∧ (∀ id < nterms, Inside (s.terms id)) ∧
      s.cur < nterms from hstate.1
  induction hrun with
  | nil => exact ⟨.nil, sound_init scr, fun id _ => hfirst id, hterms⟩
  | snoc _ hs ih =>
    obtain ⟨hbefore, hsound, hin, hcur⟩ := ih
    have hw := windowed_of_followed hsound hin hcur hs.1 hs.2
    exact ⟨hbefore.snoc ⟨hs.1, hw⟩, sound_step hsound hs.1, hw.1, cur_lt hcur hs.1⟩

/-- The terminals over a screen that is blank at the start. -/
def startTerms : Terms := Terms.init ⟨fun _ => 0, 0⟩

/-- A line feed, a scroll by one line and a character. -/
theorem windowed_three : ∃ s, 0 < 3 ∧
    Run (fun x e y => CallStep 3 x e y ∧ Windowed 3 e y) startTerms [.provide 0 10, .scroll 1 false, .provide 0 120] s := by
  let s1 := vtProvideChar startTerms 0 10
  refine ⟨vtProvideChar (vtScroll s1 1 false) 0 120, by decide, (windowed_iff (by decide) ⟨fun _ => 0, 0⟩ _ _).2.2 ?_⟩
  have hline : Followed startTerms (.provide 0 10) := ⟨by decide, by decide⟩
  have hchar : Followed (vtScroll s1 1 false) (.provide 0 120) := ⟨by decide, by decide⟩
  have h1 : CallStep 3 startTerms (.provide 0 10) s1 := ⟨by decide, rfl⟩
  have h2 : CallStep 3 s1 (.scroll 1 false) (vtScroll s1 1 false) := rfl
  exact ((Run.nil.snoc ⟨h1, hline⟩).snoc ⟨h2, trivial⟩).snoc ⟨⟨by decide, rfl⟩, hchar⟩

/-- A line feed, a backspace and a scroll by one line put the cursor above the window, and the next character
moves the top before the first row. If the backspace comes after the scroll, it takes the cursor there itself. -/
theorem window_leaves_text :
    (∃ s, Run (CallStep 3) startTerms [.provide 0 10, .provide 0 8, .scroll 1 false, .provide 0 120] s ∧
      ¬ Inside (s.terms 0)) ∧
    ∃ s, Run (CallStep 3) startTerms [.provide 0 10, .scroll 1 false, .provide 0 8] s ∧ ¬ Near (s.terms 0) := by
  have hline : Run (CallStep 3) startTerms [.provide 0 10] _ := run_provide .nil 0 10 (by decide)
  have hback := run_provide hline 0 8 (by decide)
  have hbackDown := run_scroll hback 1 false
  have hdown := run_scroll hline 1 false
  exact ⟨⟨_, run_provide hbackDown 0 120 (by decide), by decide⟩, ⟨_, run_provide hdown 0 8 (by decide), by decide⟩⟩

end Weenix.Vt
