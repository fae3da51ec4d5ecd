import Mathlib.Data.List.TakeWhile
import Weenix.Spec.Kshell

/-! Tokens of a command line. What a line consists of is a relation; one call of
`kshell_next_token` finds the first token of any decomposition, but returns the length of an
operator without the white space before it. -/

namespace Weenix.Kshell

open List

/-- The text is a token of this type if `rest` follows. -/
inductive IsToken : TokenType → Line → Line → Prop
  | word {w rest : Line} : w ≠ [] → (∀ b ∈ w, isWordByte b) → (∀ b ∈ rest.head?, ¬ isWordByte b) →
      IsToken .word w rest
  | redirectIn {rest : Line} : IsToken .redirectIn [less] rest
  | redirectOut {rest : Line} : rest.head? ≠ some greater → IsToken .redirectOut [greater] rest
  | redirectOutAppend {rest : Line} : IsToken .redirectOutAppend [greater, greater] rest

def Blank (ws : Line) : Prop := ∀ b ∈ ws, isspace b

/-- A line and its tokens. -/
inductive Tokens : Line → List (TokenType × Line) → Prop
  | blank {ws : Line} : Blank ws → Tokens ws []
  | token {ws text rest : Line} {type : TokenType} {ts : List (TokenType × Line)} : Blank ws →
      IsToken type text rest → Tokens rest ts → Tokens (ws ++ (text ++ rest)) ((type, text) :: ts)

/-- No operator has white space right before it. -/
def Tight (line : Line) : Prop := line.IsChain fun a b => isspace a → b ≠ less ∧ b ≠ greater

variable {line ws text rest : Line} {type : TokenType} {ts : List (TokenType × Line)} {b : UInt8}

theorem IsToken.ne_nil (h : IsToken type text rest) : text ≠ [] := by
  cases h <;> simp_all

theorem not_isspace_of_word (h : isWordByte b) : ¬ isspace b := by
  simp only [isWordByte, Bool.and_eq_true, Bool.not_eq_true'] at h
  simp [h.1.1]

theorem IsToken.not_isspace (h : IsToken type text rest) : ∀ b ∈ text, ¬ isspace b := by
  cases h with
  | word _ hw _ => exact fun b hb => not_isspace_of_word (hw b hb)
  | _ => simp [isspace, less, greater, space]

theorem takeWhile_isspace (hws : Blank ws) (h : ∀ b ∈ rest.head?, ¬ isspace b) :
    (ws ++ rest).takeWhile isspace = ws := by
  rw [takeWhile_append_of_pos hws]
  cases rest <;> simp_all

theorem nextToken_blank (hws : Blank ws) : nextToken ws = (0, ⟨.eol, ws.length, 0⟩) := by
  simp [nextToken, takeWhile_eq_self_iff.2 hws]

theorem nextToken_token (hws : Blank ws) (ht : IsToken type text rest) : nextToken (ws ++ (text ++ rest)) =
      (if type = .word then ws.length + text.length else text.length, ⟨type, ws.length, text.length⟩) := by
  have htake : (ws ++ (text ++ rest)).takeWhile isspace = ws := by
    refine takeWhile_isspace hws fun b hb => ht.not_isspace b ?_
    obtain ⟨c, l, rfl⟩ := exists_cons_of_ne_nil ht.ne_nil
    simp_all
  rw [nextToken, htake, drop_left]
  cases ht with
  | word hne hw hrest =>
    obtain ⟨c, l, rfl⟩ := exists_cons_of_ne_nil hne
    have hc := hw c mem_cons_self
    have htw : (c :: l ++ rest).takeWhile isWordByte = c :: l := by
      cases rest <;> simp_all
    simp only [isWordByte, Bool.and_eq_true, decide_eq_true_eq] at hc
    rw [cons_append] at htw ⊢
    simp [hc.1.2, hc.2, htw]
  | _ => simp_all [less, greater]

theorem exists_token (line : Line) : Blank line ∨
    ∃ ws type text rest, Blank ws ∧ IsToken type text rest ∧ line = ws ++ (text ++ rest) := by
  induction line with
  | nil => exact .inl (by simp [Blank])
  | cons b l ih =>
    by_cases hb : isspace b
    · refine ih.imp (by simp_all [Blank]) ?_
      rintro ⟨ws, type, text, rest, hws, ht, rfl⟩
      exact ⟨b :: ws, type, text, rest, by simp_all [Blank], ht, rfl⟩
    refine .inr ⟨[], ?_⟩
    by_cases hl : b = less
    · exact ⟨.redirectIn, [b], l, by simp [Blank], hl ▸ .redirectIn, rfl⟩
    by_cases hg : b = greater
    · by_cases hc : l.head? = some greater
      · obtain ⟨l, rfl⟩ := List.head?_eq_some_iff.1 hc
        exact ⟨.redirectOutAppend, [b, greater], l, by simp [Blank], hg ▸ .redirectOutAppend, rfl⟩
      · exact ⟨.redirectOut, [b], l, by simp [Blank], hg ▸ .redirectOut hc, rfl⟩
    have hw : isWordByte b := by simp [isWordByte, hb, hl, hg]
    refine ⟨.word, (b :: l).takeWhile isWordByte, (b :: l).dropWhile isWordByte, by simp [Blank],
      .word (by simp [hw]) (all_eq_true.1 all_takeWhile) fun c hc => ?_,
      by simp [takeWhile_append_dropWhile]⟩
    have := List.head?_dropWhile_not isWordByte (b :: l)
    simp_all

theorem tokens_exist (line : Line) : ∃ ts, Tokens line ts := by
  induction hn : line.length using Nat.strong_induction_on generalizing line with
  | _ n ih =>
    rcases exists_token line with h | ⟨ws, type, text, rest, hws, ht, rfl⟩
    · exact ⟨_, .blank h⟩
    have hpos := length_pos_of_ne_nil ht.ne_nil
    obtain ⟨ts, hts⟩ := ih rest.length (by simp only [length_append] at hn; omega) rest rfl
    exact ⟨_, .token hws ht hts⟩

theorem read_token (ws text rest : Line) (type : TokenType) :
    (Token.mk type ws.length text.length).read (ws ++ (text ++ rest)) = text := by
  simp [Token.read]

/-! ### Repeated calls -/

theorem tight_text (h : ∀ b ∈ text, ¬ isspace b) : Tight (text ++ rest) ↔ Tight rest := by
  induction text with
  | nil => rfl
  | cons b text ih =>
    rw [cons_append, Tight, isChain_cons]
    simp_all [Tight]

theorem not_operator_of_isspace (h : isspace b) : b ≠ less ∧ b ≠ greater := by
  constructor <;> rintro rfl <;> exact absurd h (by decide)

theorem tight_blank (hws : Blank ws) : Tight (ws ++ b :: rest) ↔
    Tight (b :: rest) ∧ (ws = [] ∨ b ≠ less ∧ b ≠ greater) := by
  induction ws with
  | nil => simp
  | cons a ws ih =>
    obtain ⟨ha, hws⟩ := forall_mem_cons.1 hws
    rw [cons_append, Tight, isChain_cons, ← Tight, ih hws]
    cases ws with
    | nil => simp [ha, and_comm]
    | cons c ws =>
      have := not_operator_of_isspace (hws c mem_cons_self)
      simp [this]

theorem tight_token (hws : Blank ws) (ht : IsToken type text rest) :
    Tight (ws ++ (text ++ rest)) ↔ Tight rest ∧ (type ≠ .word → ws = []) := by
  have htext : Tight (text ++ rest) ↔ Tight rest := tight_text ht.not_isspace
  rw [← htext]
  cases ht with
  | word hne hw _ =>
    obtain ⟨c, l, rfl⟩ := exists_cons_of_ne_nil hne
    have hc := hw c mem_cons_self
    simp only [isWordByte, Bool.and_eq_true, decide_eq_true_eq] at hc
    simp [tight_blank hws, hc]
  | _ => simp [tight_blank hws]

def weight (line : Line) : ℕ := line.countP fun b => !isspace b

theorem weight_append (l l' : Line) : weight (l ++ l') = weight l + weight l' := countP_append

theorem weight_blank (hws : Blank ws) : weight ws = 0 :=
  countP_eq_zero.2 fun b hb => by simp [hws b hb]

theorem weight_text (h : ∀ b ∈ text, ¬ isspace b) : weight text = text.length :=
  countP_eq_length.2 fun b hb => by simpa using h b hb

theorem weight_token (hws : Blank ws) (ht : IsToken type text rest) :
    weight (ws ++ (text ++ rest)) = text.length + weight rest := by
  rw [weight_append, weight_append, weight_blank hws, weight_text ht.not_isspace, Nat.zero_add]

def total (ts : List (TokenType × Line)) : ℕ := (ts.map fun t => t.2.length).sum

theorem Tokens.total (h : Tokens line ts) : total ts = weight line := by
  induction h with
  | blank hws => exact (weight_blank hws).symm
  | token hws ht _ ih => rw [weight_token hws ht, ← ih]; rfl

/-- One call on a line that has a token. -/
theorem nextTokens_token {n : ℕ} (hws : Blank ws) (ht : IsToken type text rest) :
    nextTokens (n + 1) (ws ++ (text ++ rest)) = (nextTokens n ((ws ++ (text ++ rest)).drop
      (if type = .word then ws.length + text.length else text.length))).map ((type, text) :: ·) := by
  have hpos := length_pos_of_ne_nil ht.ne_nil
  have hret : (if type = .word then ws.length + text.length else text.length) ≠ 0 := by
    split <;> omega
  simp only [nextTokens, nextToken_token hws ht, hret, if_false, read_token]

theorem drop_retval (hop : type ≠ .word → ws = []) : (ws ++ (text ++ rest)).drop
    (if type = .word then ws.length + text.length else text.length) = rest := by
  split <;> simp_all

theorem nextTokens_of_tight {n : ℕ} (h : Tokens line ts) (hn : line.length < n) (htight : Tight line) :
    nextTokens n line = some ts := by
  induction h generalizing n with
  | blank hws =>
    obtain ⟨n, rfl⟩ := Nat.exists_eq_add_of_lt hn
    simp [nextTokens, nextToken_blank hws]
  | @token ws text rest type ts hws ht _ ih =>
    obtain ⟨htr, hop⟩ := (tight_token hws ht).1 htight
    have hpos := length_pos_of_ne_nil ht.ne_nil
    simp only [length_append] at hn
    obtain ⟨n, rfl⟩ : ∃ m, n = m + 1 := ⟨n - 1, by omega⟩
    rw [nextTokens_token hws ht, drop_retval hop, ih (by omega) htr]
    rfl

theorem tight_of_blank (hws : Blank ws) : Tight ws :=
  List.Pairwise.isChain
    (pairwise_of_forall_mem_list fun _ _ b hb _ => not_operator_of_isspace (hws b hb))

/-- Skipping an operator's length before it leaves its last byte to be read again. -/
theorem weight_drop (rest : Line) (hne : text ≠ []) (h : ∀ b ∈ text, ¬ isspace b) (hws : ws ≠ []) :
    weight rest < weight ((ws ++ (text ++ rest)).drop text.length) := by
  obtain ⟨init, c, rfl⟩ := (eq_nil_or_concat text).resolve_left hne
  have hpos := length_pos_of_ne_nil hws
  have hc : weight [c] = 1 := weight_text fun b hb => h b (by simp_all)
  have hsplit : ws ++ (init.concat c ++ rest) = (ws ++ init) ++ ([c] ++ rest) := by simp
  rw [hsplit, drop_append_of_le_length (by simp; omega), weight_append, weight_append, hc]
  omega

/-- Whatever repeated calls give covers the line, and more than it if an operator has white space
right before it. -/
theorem weight_le_total {n : ℕ} (h : nextTokens n line = some ts) :
    weight line ≤ total ts ∧ (¬ Tight line → weight line < total ts) := by
  induction n generalizing line ts with
  | zero => simp [nextTokens] at h
  | succ n ih =>
    rcases exists_token line with hws | ⟨ws, type, text, rest, hws, ht, rfl⟩
    · exact ⟨(weight_blank hws).trans_le (Nat.zero_le _), fun hn => absurd (tight_of_blank hws) hn⟩
    rw [nextTokens_token hws ht] at h
    obtain ⟨ts, hts, rfl⟩ := Option.map_eq_some_iff.1 h
    obtain ⟨hle, hlt⟩ := ih hts
    have htotal : total ((type, text) :: ts) = text.length + total ts := rfl
    rw [weight_token hws ht, tight_token hws ht, htotal]
    by_cases hskip : type ≠ .word ∧ ws ≠ []
    · have := weight_drop rest ht.ne_nil ht.not_isspace hskip.2
      rw [if_neg hskip.1] at hle
      omega
    have hop : type ≠ .word → ws = [] := by simpa using hskip
    rw [drop_retval hop] at hle hlt
    exact ⟨by omega, fun hn => by have := hlt fun htr => hn ⟨htr, hop⟩; omega⟩

/-- Repeated calls give the tokens of a line just if no operator has white space right before it. -/
theorem nextTokens_eq_tokens_iff (line : Line) :
    (∃ ts, Tokens line ts ∧ nextTokens (line.length + 1) line = some ts) ↔ Tight line := by
  constructor
  · rintro ⟨ts, hts, h⟩
    by_contra hn
    have := (weight_le_total h).2 hn
    have := hts.total
    omega
  · intro h
    obtain ⟨ts, hts⟩ := tokens_exist line
    exact ⟨ts, hts, nextTokens_of_tight hts (Nat.lt_succ_self _) h⟩

theorem nextTokens_space_less : nextTokens 3 [space, less] =
    some [(.redirectIn, [less]), (.redirectIn, [less])] ∧ Tokens [space, less] [(.redirectIn, [less])] :=
  ⟨by decide, @Tokens.token [space] _ _ _ _ (by simp [Blank, isspace]) .redirectIn (.blank (by simp [Blank]))⟩

/-! ### Redirection -/

/-- Some operator is not followed by a word. -/
def Dangling : List (TokenType × Line) → Prop
  | [] => False
  | t :: ts => (t.1 ≠ .word ∧ ∀ u ∈ ts.head?, u.1 ≠ .word) ∨ Dangling ts

/-- The operators and their operands; `prev` is the type of the token before. -/
def operands : TokenType → List (TokenType × Line) → List (TokenType × Line)
  | _, [] => []
  | prev, t :: ts =>
    if prev ≠ .word ∧ t.1 = .word then (prev, t.2) :: operands t.1 ts else operands t.1 ts

def arguments : TokenType → List (TokenType × Line) → List Line
  | _, [] => []
  | prev, t :: ts =>
    if prev = .word ∧ t.1 = .word then t.2 :: arguments t.1 ts else arguments t.1 ts

theorem scrubToken_token (ws text rest : Line) (type : TokenType) :
    scrubToken (ws ++ (text ++ rest)) ⟨type, ws.length, text.length⟩ =
      ws ++ (List.replicate text.length space ++ rest) := by
  simp [scrubToken]

theorem blank_replicate (n : ℕ) : Blank (List.replicate n space) :=
  fun _ hb => (eq_of_mem_replicate hb) ▸ rfl

theorem Blank.append {ws ws' : Line} (h : Blank ws) (h' : Blank ws') : Blank (ws ++ ws') :=
  fun b hb => (mem_append.1 hb).elim (h b) (h' b)

theorem Tokens.pad (hws : Blank ws) (h : Tokens rest ts) : Tokens (ws ++ rest) ts := by
  cases h with
  | blank h' => exact .blank (hws.append h')
  | token h' ht hts =>
    rw [← append_assoc]
    exact .token (hws.append h') ht hts

variable {n : ℕ} {r : Redirect}

theorem findRedirection_word (hws : Blank ws) (ht : IsToken .word text rest) :
    findRedirection (n + 1) (ws ++ (text ++ rest)) r =
      (findRedirection n rest r).map (·.map fun x => (ws ++ (text ++ x.1), x.2)) := by
  have hret : (ws ++ text).length ≠ 0 := by simp [ht.ne_nil]
  simp only [findRedirection, nextToken_token hws ht, if_true, ← length_append, hret, if_false]
  simp only [← append_assoc, take_left, drop_left]

/-- Skipping less than the white space and the operator does no harm, for both are blank by then. -/
theorem findRedirection_operator (hws : Blank ws) (ht : IsToken type text rest) (hop : type ≠ .word) :
    ∃ pad pad', Blank pad ∧ Blank pad' ∧ pad ≠ [] ∧ pad'.length = ws.length ∧
      findRedirection (n + 1) (ws ++ (text ++ rest)) r =
        if (nextToken (pad' ++ rest)).2.type = .word then
          (findRedirection n (scrubToken (pad' ++ rest) (nextToken (pad' ++ rest)).2)
            (r.set type ((nextToken (pad' ++ rest)).2.read (pad' ++ rest)))).map
            (·.map fun x => (pad ++ x.1, x.2))
        else some (.error (nextToken (pad' ++ rest)).2.type) := by
  have hpos := length_pos_of_ne_nil ht.ne_nil
  obtain ⟨pad, pad', hsplit, hlen⟩ : ∃ pad pad', ws ++ List.replicate text.length space = pad ++ pad' ∧
      pad.length = text.length := ⟨_, _, (take_append_drop text.length _).symm, by simp⟩
  have hblank := hws.append (blank_replicate text.length)
  rw [hsplit] at hblank
  refine ⟨pad, pad', fun b hb => hblank b (mem_append_left _ hb),
    fun b hb => hblank b (mem_append_right _ hb), ne_nil_of_length_pos (hlen ▸ hpos), ?_, ?_⟩
  · have := congrArg List.length hsplit
    simp only [length_append, length_replicate] at this
    omega
  · simp only [findRedirection, nextToken_token hws ht, hop, if_false, hpos.ne', scrubToken_token]
    rw [← append_assoc ws, hsplit, append_assoc, ← hlen, take_left, drop_left]

/-- What the search for redirections makes of the tokens of a line. The last part says that no word
gets longer. -/
theorem findRedirection_spec (h : Tokens line ts) (hn : line.length < n) :
    (Dangling ts ∧ ∃ t, findRedirection n line r = some (.error t)) ∨
    ¬ Dangling ts ∧ ∃ line', findRedirection n line r =
        some (.ok (line', (operands .word ts).foldl (fun r x => r.set x.1 x.2) r)) ∧
      Tokens line' ((arguments .word ts).map (TokenType.word, ·)) ∧
      ∀ b ∈ line'.head?, isWordByte b → b ∈ line.head? := by
  induction n generalizing line ts r with
  | zero => omega
  | succ n ih =>
    cases h with
    | blank hws =>
      refine .inr ⟨id, line, ?_, .blank hws, fun b hb _ => hb⟩
      simp [findRedirection, nextToken_blank hws, operands]
    | @token ws text rest type ts hws ht hts =>
      have hpos := length_pos_of_ne_nil ht.ne_nil
      simp only [length_append] at hn
      by_cases hw : type = .word
      · subst hw
        rw [findRedirection_word hws ht]
        rcases ih hts (by omega) with ⟨hd, t, he⟩ | ⟨hd, line', he, htok, hhead⟩
        · exact .inl ⟨.inr hd, t, by rw [he]; rfl⟩
        refine .inr ⟨by simpa [Dangling] using hd, _, by rw [he]; rfl, ?_, ?_⟩
        · cases ht with
          | word hne hwb hrest =>
            exact .token hws (.word hne hwb fun b hb hbw => hrest b (hhead b hb hbw) hbw) htok
        · obtain ⟨c, l, rfl⟩ := exists_cons_of_ne_nil ht.ne_nil
          cases ws <;> simp_all
      obtain ⟨pad, pad', hpad, hpad', hne, hlen, hfind⟩ := findRedirection_operator (n := n) (r := r) hws ht hw
      rw [hfind]
      cases hts with
      | blank hws' =>
        rw [nextToken_blank (hpad'.append hws')]
        exact .inl ⟨.inl ⟨hw, by simp⟩, _, rfl⟩
      | @token ws' operand rest' type' ts hws' ht' hts =>
        rw [← append_assoc, nextToken_token (hpad'.append hws') ht']
        by_cases hw' : type' = .word
        · subst hw'
          rw [if_pos rfl, scrubToken_token, read_token]
          simp only [length_append] at hn
          have hline := hts.pad (((hpad'.append hws').append (blank_replicate operand.length)))
          rw [append_assoc] at hline
          rcases ih (r := r.set type operand) hline (by simp; omega) with
            ⟨hd, t, he⟩ | ⟨hd, line', he, htok, hhead⟩
          · exact .inl ⟨.inr (.inr hd), t, by rw [he]; rfl⟩
          refine .inr ⟨by simpa [Dangling] using hd, _, by rw [he]; simp [operands, hw]; rfl, ?_, ?_⟩
          · simpa [arguments, hw] using htok.pad hpad
          obtain ⟨c, l, rfl⟩ := exists_cons_of_ne_nil hne
          intro b hb hbw
          obtain rfl : c = b := by simpa using hb
          exact absurd (hpad c mem_cons_self) (not_isspace_of_word hbw)
        · rw [if_neg hw']
          exact .inl ⟨.inl ⟨hw, by simpa using hw'⟩, _, rfl⟩

/-- The byte after a word can be skipped if only words follow. -/
theorem Tokens.tail {args : List Line} (h : Tokens rest (args.map (TokenType.word, ·)))
    (hrest : ∀ b ∈ rest.head?, ¬ isWordByte b) : Tokens rest.tail (args.map (TokenType.word, ·)) := by
  generalize hts : args.map (TokenType.word, ·) = ts at h
  cases h with
  | blank hws => exact .blank fun b hb => hws b (mem_of_mem_tail hb)
  | @token ws text rest type ts hws ht htok =>
    obtain ⟨_, args, rfl, hw, -⟩ := map_eq_cons_iff.1 hts
    cases hw
    cases ws with
    | nil =>
      cases ht with
      | word hne hwb _ =>
        obtain ⟨c, l, rfl⟩ := exists_cons_of_ne_nil hne
        exact absurd (hwb c mem_cons_self) (hrest c rfl)
    | cons a ws => exact .token (fun b hb => hws b (mem_cons_of_mem _ hb)) ht htok

theorem getArgs_spec {max : ℕ} {args : List Line} (h : Tokens line (args.map (TokenType.word, ·)))
    (hmax : args.length ≤ max) : getArgs max line = some args := by
  induction args generalizing line max with
  | nil =>
    cases h with
    | blank hws => cases max <;> simp [getArgs, nextToken_blank hws]
  | cons w args ih =>
    obtain ⟨max, rfl⟩ := Nat.exists_eq_add_of_lt (Nat.lt_of_succ_le hmax)
    cases h with
    | @token ws _ rest _ _ hws ht hts =>
      have htail : (ws ++ (w ++ rest)).drop (ws.length + w.length + 1) = rest.tail := by
        rw [← append_assoc, ← length_append, drop_length_add_append, drop_one]
      have hrest : Tokens rest.tail (args.map (TokenType.word, ·)) := by
        cases ht with
        | word _ _ hhead => exact hts.tail hhead
      simp [getArgs, nextToken_token hws ht, ht.ne_nil, read_token, htail, ih hrest]

theorem length_arguments (prev : TokenType) (ts : List (TokenType × Line)) :
    (arguments prev ts).length ≤ (ts.filter (·.1 = .word)).length := by
  induction ts generalizing prev with
  | nil => simp [arguments]
  | cons t ts ih =>
    simp only [arguments, filter_cons]
    split_ifs <;> grind

def lastOperand (l : List (TokenType × Line)) (p : TokenType → Bool) : Option (TokenType × Line) :=
  (l.filter fun x => p x.1).getLast?

def isOut (type : TokenType) : Bool := type = .redirectOut || type = .redirectOutAppend

theorem foldl_set (l : List (TokenType × Line)) (r : Redirect) :
    l.foldl (fun r x => r.set x.1 x.2) r =
      { redirectIn := (lastOperand l (· = .redirectIn)).elim r.redirectIn (·.2)
        redirectOut := (lastOperand l isOut).elim r.redirectOut (·.2)
        append := (lastOperand l isOut).elim r.append (·.1 = .redirectOutAppend) } := by
  induction l using List.reverseRecOn with
  | nil => rfl
  | append_singleton l x ih =>
    obtain ⟨type, w⟩ := x
    rw [foldl_append, ih]
    cases type <;> simp [Redirect.set, lastOperand, isOut, filter_append]

/-- The search for redirections and the arguments that are left on the line it has scrubbed. -/
theorem findRedirection_getArgs (r : Redirect) (h : Tokens line ts)
    (hwords : (ts.filter (·.1 = .word)).length < KSH_MAX_ARGS) :
    ((∃ t, findRedirection (line.length + 1) line r = some (.error t)) ↔ Dangling ts) ∧
    (¬ Dangling ts → ∃ line', findRedirection (line.length + 1) line r = some (.ok (line',
        { redirectIn := (lastOperand (operands .word ts) (· = .redirectIn)).elim r.redirectIn (·.2)
          redirectOut := (lastOperand (operands .word ts) isOut).elim r.redirectOut (·.2)
          append := (lastOperand (operands .word ts) isOut).elim r.append (·.1 = .redirectOutAppend) })) ∧
      getArgs KSH_MAX_ARGS line' = some (arguments .word ts)) := by
  have hlen := length_arguments .word ts
  rcases findRedirection_spec (r := r) h (Nat.lt_succ_self _) with ⟨hd, he⟩ | ⟨hd, line', he, htok, -⟩
  · exact ⟨iff_of_true he hd, fun hn => absurd hd hn⟩
  rw [foldl_set] at he
  exact ⟨iff_of_false (by simp [he]) hd, fun _ => ⟨line', he, getArgs_spec htok (by omega)⟩⟩

/-- The line `a<b`. -/
theorem findRedirection_getArgs_less : ∃ line', findRedirection 4 [97, 60, 98] ⟨[], [], true⟩ =
    some (.ok (line', ⟨[98], [], true⟩)) ∧ getArgs KSH_MAX_ARGS line' = some [[97]] :=
  have hb : Tokens [98] [(.word, [98])] := @Tokens.token [] [98] [] _ _ (by simp [Blank])
    (.word (by decide) (by simp; decide) (by simp)) (.blank (by simp [Blank]))
  have hline : Tokens [97, 60, 98] [(.word, [97]), (.redirectIn, [60]), (.word, [98])] :=
    @Tokens.token [] [97] _ _ _ (by simp [Blank]) (.word (by decide) (by simp; decide) (by simp; decide))
      (@Tokens.token [] [60] _ _ _ (by simp [Blank]) .redirectIn hb)
  (findRedirection_getArgs ⟨[], [], true⟩ hline (by decide)).2 (by simp [Dangling])

end Weenix.Kshell
