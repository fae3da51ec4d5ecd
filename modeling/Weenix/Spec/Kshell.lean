import Mathlib.Tactic

/-! How the kernel shell takes a command line apart: `kshell_next_token` of
`kernel/test/kshell/tokenizer.c`, and `kshell_find_redirection` and `kshell_get_args` of
`kernel/test/kshell/kshell.c`. A line is the bytes before its terminator. -/

namespace Weenix.Kshell

abbrev Line := List UInt8

def space : UInt8 := 32
def less : UInt8 := 60
def greater : UInt8 := 62

/-- The bytes that the table of `ctype.h` marks as white space. -/
def isspace (b : UInt8) : Bool := (9 ≤ b && b ≤ 13) || b = space || b = 160

def isWordByte (b : UInt8) : Bool := !isspace b && b ≠ less && b ≠ greater

inductive TokenType where
  | word
  | redirectIn
  | redirectOut
  | redirectOutAppend
  | eol
  deriving DecidableEq, Repr

/-- `kshell_token_t`, with the text as an offset in the line. -/
structure Token where
  type : TokenType
  text : ℕ
  textlen : ℕ
  deriving DecidableEq, Repr

/-- `kshell_next_token`: the number returned and the token. -/
def nextToken (line : Line) : ℕ × Token :=
  let i := (line.takeWhile isspace).length
  match line.drop i with
  | [] => (0, ⟨.eol, i, 0⟩)
  | b :: rest =>
    if b = less then (1, ⟨.redirectIn, i, 1⟩)
    else if b = greater then
      if rest.head? = some greater then (2, ⟨.redirectOutAppend, i, 2⟩)
      else (1, ⟨.redirectOut, i, 1⟩)
    else
      let n := ((b :: rest).takeWhile isWordByte).length
      (i + n, ⟨.word, i, n⟩)

def Token.read (token : Token) (line : Line) : Line := (line.drop token.text).take token.textlen

/-- The tokens that repeated calls give, each call after the bytes that the one before it returned. -/
def nextTokens : ℕ → Line → Option (List (TokenType × Line))
  | 0, _ => none
  | n + 1, line =>
    let (retval, token) := nextToken line
    if retval = 0 then some []
    else (nextTokens n (line.drop retval)).map ((token.type, token.read line) :: ·)

/-- `kshell_scrub_token` -/
def scrubToken (line : Line) (token : Token) : Line :=
  line.take token.text ++ (List.replicate token.textlen space ++ line.drop (token.text + token.textlen))

/-- The out parameters of `kshell_find_redirection`. -/
structure Redirect where
  redirectIn : Line
  redirectOut : Line
  append : Bool
  deriving DecidableEq, Repr

def Redirect.set (r : Redirect) (type : TokenType) (redirect : Line) : Redirect :=
  match type with
  | .redirectOut => { r with redirectOut := redirect, append := false }
  | .redirectOutAppend => { r with redirectOut := redirect, append := true }
  | .redirectIn => { r with redirectIn := redirect }
  | _ => r

/-- `kshell_find_redirection`: the scrubbed line, or the type of the unexpected token. `none` is more
rounds than were allowed for. -/
def findRedirection : ℕ → Line → Redirect → Option (Except TokenType (Line × Redirect))
  | 0, _, _ => none
  | n + 1, line, r =>
    let (retval, token) := nextToken line
    if retval = 0 then some (.ok (line, r))
    else if token.type = .word then
      (findRedirection n (line.drop retval) r).map (·.map fun x => (line.take retval ++ x.1, x.2))
    else
      let line := scrubToken line token
      let rest := line.drop retval
      let operand := (nextToken rest).2
      -- the end of the line is of type `eol`
      if operand.type = .word then
        (findRedirection n (scrubToken rest operand) (r.set token.type (operand.read rest))).map
          (·.map fun x => (line.take retval ++ x.1, x.2))
      else some (.error operand.type)

def KSH_MAX_ARGS : ℕ := 128

/-- `kshell_get_args`, with `none` for the assertion that the token is a word and for an argument
stored after the end of `argv`. The byte after an argument becomes its terminator; after the last
byte of the line a second terminator is put. -/
def getArgs : ℕ → Line → Option (List Line)
  | 0, line => if (nextToken line).1 = 0 then some [] else none
  | max + 1, line =>
    let (retval, token) := nextToken line
    if retval = 0 then some []
    else if token.type = .word then
      (getArgs max (line.drop (token.text + token.textlen + 1))).map (token.read line :: ·)
    else none

end Weenix.Kshell
