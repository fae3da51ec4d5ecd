import Mathlib.Tactic

/-! The virtual terminals, `drivers/tty/virtterm.c`: a circular buffer of rows of characters
with a cursor, and the screen that shows a part of it. -/

namespace Weenix.Vt

def DISPLAY_WIDTH : ℕ := 80
def DISPLAY_HEIGHT : ℕ := 25
def DISPLAY_SIZE : ℕ := DISPLAY_WIDTH * DISPLAY_HEIGHT
def SCROLL_BUFSIZE : ℕ := 5 * DISPLAY_SIZE

/-- A buffer of characters, by position. -/
abbrev Buf := ℕ → UInt8

def memset (buf : Buf) (start : ℕ) (c : UInt8) (len : ℕ) : Buf :=
  fun i => if start ≤ i ∧ i < start + len then c else buf i

def memcpy (dst : Buf) (off : ℕ) (src : Buf) (start len : ℕ) : Buf :=
  fun i => if off ≤ i ∧ i < off + len then src (start + (i - off)) else dst i

structure Virtterm where
  vtHead : ℕ
  vtTail : ℕ
  vtTop : ℕ
  vtCursor : ℕ
  vtBuf : Buf

def circDist (dest start : ℕ) : ℕ := (dest + SCROLL_BUFSIZE - start) % SCROLL_BUFSIZE

def nextRow (i : ℕ) : ℕ := ((i / DISPLAY_WIDTH + 1) * DISPLAY_WIDTH) % SCROLL_BUFSIZE

def bufInc (ptr : ℕ) : ℕ := (ptr + 1 + SCROLL_BUFSIZE) % SCROLL_BUFSIZE

def bufDec (ptr : ℕ) : ℕ := (ptr + SCROLL_BUFSIZE - 1) % SCROLL_BUFSIZE

/-- A terminal as `vt_init` leaves it. -/
def vtInit : Virtterm where
  vtHead := 0
  vtTail := DISPLAY_WIDTH
  vtTop := 0
  vtCursor := 0
  vtBuf := fun _ => 0

/-- `vt_handle_char` from the label `handle_tail` to the end of the switch. -/
def handleTail (vt : Virtterm) (newCursor : ℕ) : Virtterm :=
  if circDist newCursor vt.vtCursor ≥ circDist vt.vtTail vt.vtCursor then
    let newTail := nextRow newCursor
    let head := if circDist vt.vtTail vt.vtHead ≥ circDist vt.vtTail newTail then nextRow newTail
      else vt.vtHead
    let buf := if vt.vtTail ≤ newTail then memset vt.vtBuf vt.vtTail 0 (newTail - vt.vtTail)
      else memset (memset vt.vtBuf vt.vtTail 0 (SCROLL_BUFSIZE - vt.vtTail)) 0 0 newTail
    { vt with vtHead := head, vtBuf := buf, vtTail := newTail }
  else vt

/-- `vt_handle_char`: the terminal, and whether the character can be echoed. -/
def vtHandleChar (vt : Virtterm) (c : UInt8) : Virtterm × Bool :=
  if c = 8 then
    ({ vt with vtCursor := if vt.vtCursor ≠ vt.vtHead then bufDec vt.vtCursor else vt.vtCursor }, false)
  else if c = 13 then ({ vt with vtCursor := vt.vtCursor / DISPLAY_WIDTH * DISPLAY_WIDTH }, false)
  else if c = 10 then
    let newCursor := nextRow vt.vtCursor
    ({ handleTail vt newCursor with vtCursor := newCursor }, false)
  else
    let newCursor := bufInc vt.vtCursor
    let vt := { vt with vtBuf := Function.update vt.vtBuf vt.vtCursor c }
    ({ handleTail vt newCursor with vtCursor := newCursor }, true)

/-- The buffer that `vt_redraw` puts on the screen. -/
def vtRedraw (vt : Virtterm) : Buf :=
  let tempbuf : Buf := fun _ => 0
  if vt.vtTop ≤ vt.vtTail then
    if vt.vtTail - vt.vtTop ≤ DISPLAY_SIZE then memcpy tempbuf 0 vt.vtBuf vt.vtTop (vt.vtTail - vt.vtTop)
    else memcpy tempbuf 0 vt.vtBuf vt.vtTop DISPLAY_SIZE
  else
    let firstPartSize := SCROLL_BUFSIZE - vt.vtTop
    if firstPartSize ≥ DISPLAY_SIZE then memcpy tempbuf 0 vt.vtBuf vt.vtTop DISPLAY_SIZE
    else
      let tempbuf := memcpy tempbuf 0 vt.vtBuf vt.vtTop firstPartSize
      if firstPartSize + vt.vtTail ≤ DISPLAY_SIZE then memcpy tempbuf firstPartSize vt.vtBuf 0 vt.vtTail
      else memcpy tempbuf firstPartSize vt.vtBuf 0 (DISPLAY_SIZE - firstPartSize)

/-- Where `vt_cursor_redraw` moves the cursor of the screen: column and row. -/
def vtCursorRedraw (vt : Virtterm) : ℕ × ℕ :=
  let relCursor := circDist vt.vtCursor vt.vtTop
  (relCursor % DISPLAY_WIDTH, relCursor / DISPLAY_WIDTH)

/-! ### The screen -/

structure Screen where
  videoram : ℕ → UInt16
  /-- The position in the registers of the CRT controller. -/
  cursor : ℕ

/-- A character with `DEFAULT_ATTRIB`. A `char` is signed, so that one above 127 sets the attributes too. -/
def screenCell (c : UInt8) : UInt16 := (0x0F : UInt16) <<< 8 ||| c.toInt8.toInt16.toUInt16

/-- The coordinates are of type `uint8_t`. -/
def screenMoveCursor (scr : Screen) (x y : ℕ) : Screen :=
  { scr with cursor := y % 256 * DISPLAY_WIDTH + x % 256 }

def screenPutchar (scr : Screen) (c : UInt8) (x y : ℕ) : Screen :=
  { scr with videoram := Function.update scr.videoram (y % 256 * DISPLAY_WIDTH + x % 256) (screenCell c) }

def screenPutbuf (scr : Screen) (buf : Buf) : Screen :=
  { scr with videoram := fun i => if i < DISPLAY_WIDTH * DISPLAY_HEIGHT then screenCell (buf i) else scr.videoram i }

/-- `vt_terms`, `vt_curterm` and the screen. -/
structure Terms where
  terms : ℕ → Virtterm
  cur : ℕ
  screen : Screen

/-- `vt_redraw` draws the current terminal. -/
def Terms.redraw (s : Terms) : Terms :=
  let vt := s.terms s.cur
  let (x, y) := vtCursorRedraw vt
  { s with screen := screenMoveCursor (screenPutbuf s.screen (vtRedraw vt)) x y }

/-- `vt_cursor_redraw` -/
def Terms.cursorRedraw (s : Terms) : Terms :=
  let (x, y) := vtCursorRedraw (s.terms s.cur)
  { s with screen := screenMoveCursor s.screen x y }

/-- The terminals as `vt_init` leaves them. -/
def Terms.init (scr : Screen) : Terms := Terms.redraw ⟨fun _ => vtInit, 0, scr⟩

/-- `buf_add` of a negative amount. -/
def bufSub (ptr amt : ℕ) : ℕ := (ptr + SCROLL_BUFSIZE - amt) % SCROLL_BUFSIZE

def bufAdd (ptr amt : ℕ) : ℕ := (ptr + amt + SCROLL_BUFSIZE) % SCROLL_BUFSIZE

/-- The top of the window after `vt_scroll`. -/
def scrolledTop (vt : Virtterm) (lines : ℕ) (scrollUp : Bool) : ℕ :=
  if scrollUp then
    if circDist vt.vtTop vt.vtHead < lines * DISPLAY_WIDTH then vt.vtHead
    else bufSub vt.vtTop (lines * DISPLAY_WIDTH)
  else
    if circDist vt.vtTail vt.vtTop < (lines + 1) * DISPLAY_WIDTH then bufSub vt.vtTail DISPLAY_WIDTH
    else bufAdd vt.vtTop (lines * DISPLAY_WIDTH)

def Terms.setTerm (s : Terms) (id : ℕ) (vt : Virtterm) : Terms := { s with terms := Function.update s.terms id vt }

def vtScroll (s : Terms) (lines : ℕ) (scrollUp : Bool) : Terms :=
  let vt := s.terms s.cur
  (s.setTerm s.cur { vt with vtTop := scrolledTop vt lines scrollUp }).redraw

def vtSwitch (nterms : ℕ) (s : Terms) (term : ℤ) : Terms × ℤ :=
  if term < 0 ∨ nterms ≤ term then (s, -1) else ({ s with cur := term.toNat }.redraw, 0)

/-- If the cursor is not on the screen, the top is moved. -/
def followCursor (vt : Virtterm) : Virtterm :=
  if circDist vt.vtCursor vt.vtTop ≥ DISPLAY_SIZE then { vt with vtTop := bufSub (nextRow vt.vtCursor) DISPLAY_SIZE }
  else vt

/-- `vt_provide_char` to the terminal `id`. -/
def vtProvideChar (s : Terms) (id : ℕ) (c : UInt8) : Terms :=
  let oldCursor := (s.terms id).vtCursor
  let oldTop := (s.terms id).vtTop
  let (vt, canWriteChar) := vtHandleChar (followCursor (s.terms id)) c
  let s := s.setTerm id vt
  if s.cur = id then
    if oldTop = vt.vtTop then
      let relCursor := circDist oldCursor vt.vtTop
      let s := if canWriteChar then
        { s with screen := screenPutchar s.screen c (relCursor % DISPLAY_WIDTH) (relCursor / DISPLAY_WIDTH) }
        else s
      s.cursorRedraw
    else s.redraw
  else s

end Weenix.Vt
