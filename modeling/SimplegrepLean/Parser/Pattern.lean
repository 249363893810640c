import SimplegrepLean.Parser.Grammar

/-!
# SimplegrepLean — printing a tree as a pattern

`toPattern` writes a grammatical tree back as a pattern string: each token of `toTokens` as
the characters the lexer reads it from, a literal that is not plain after a backslash.
`LexesAs text toks` says that the character lexer turns `text` into `toks`, whatever follows;
it composes along `++`, so the lexer reads the printed pattern back token by token.

* **`lexes_toPattern`** — the lexer reads the printed pattern of a tree as its tokens, when
  the pattern is ASCII;
* **`parsePattern_toPattern`** — the printer/parser round trip: every grammatical tree whose
  printed pattern is ASCII is what `Parser::new(toPattern t).parse()` returns, and the parser
  ends on `EOF`;
* **`parsePattern_unclosed_group`** — `(` before a printed tree is rejected with
  `Expected CloseParen, got EOF`;
* **`parsePattern_ignores_after_close`** — a `)` after a printed tree ends the parse with
  `Ok`, whatever text follows it;
* **`parsePattern_double_quantifier`** — a quantifier after a quantified atom is rejected
  with `Unexpected token`;
* **`parsePattern_range_one_digit`** — after `{` and a digit, any character but `,` and `]`
  (a second digit, or `}`) is rejected with `Expected CloseBracket`;
* **`parsePattern_range_unbounded`** — `{d]` parses as `{d,]`, with no upper bound, and the
  empty range `{]` as `{0,]`;
* **`parsePattern_empty_branch`** — an empty branch, first, between two `|`, last, or as the
  group `()`, is rejected with `Unexpected token`.
-/

namespace Simplegrep

namespace Parser

/-- How a literal `c` is written: itself, or after a backslash when it is not plain. -/
def charText (c : Char) : List Char := if plainChar c then [c] else ['\\', c]

/-- A range after its `{`. -/
def rangeText : RepeatRange → List Char
  | ⟨min, none⟩ => [digitChar min, ',', ']']
  | ⟨min, some max⟩ => [digitChar min, ',', digitChar max, ']']

mutual

/-- The characters of a tree's pattern. -/
def toText : RegexNode → List Char
  | .Char c => charText c
  | .AnyChar => ['.']
  | .Digit => ['\\', 'd']
  | .WordChar => ['\\', 'w']
  | .Whitespace => ['\\', 's']
  | .Concat nodes => concatText nodes
  | .Alternation [] => []
  | .Alternation (node :: nodes) => toText node ++ alternativesText nodes
  | .Star node => toText node ++ ['*']
  | .Plus node => toText node ++ ['+']
  | .Question node => toText node ++ ['?']
  | .Repeat node range => toText node ++ '{' :: rangeText range
  | .Group node => '(' :: (toText node ++ [')'])
  | .StartLine => ['^']
  | .EndLine => ['$']
  | .StartInput => ['\\', 'A']
  | .EndInput => ['\\', 'z']
  | .WordBoundary => ['\\', 'b']

/-- The atoms of a concatenation, one after the other. -/
def concatText : List RegexNode → List Char
  | [] => []
  | node :: nodes => toText node ++ concatText nodes

/-- The branches of an alternation after the first, each after a `|`. -/
def alternativesText : List RegexNode → List Char
  | [] => []
  | node :: nodes => '|' :: (toText node ++ alternativesText nodes)

end

/-- The pattern of a tree. -/
def toPattern (t : RegexNode) : String := ⟨toText t⟩

/-! ## §1 — lexing a piece of pattern -/

/-- The character lexer turns `text` into `toks`, whatever follows. -/
def LexesAs (text : List Char) (toks : List Token) : Prop :=
  ∀ rest, lexChars (text ++ rest) = (lexChars rest).map (toks ++ ·)

theorem LexesAs.nil : LexesAs [] [] := fun rest => by simp

theorem LexesAs.append {a b : List Char} {x y : List Token} (h₁ : LexesAs a x)
    (h₂ : LexesAs b y) : LexesAs (a ++ b) (x ++ y) := fun rest => by
  rw [List.append_assoc, h₁, h₂, Option.map_map]
  congr 1
  funext zs
  simp

theorem LexesAs.symbol {c : Char} (hc : ¬Skipped c) (hb : c ≠ '\\') (hs : c.utf8Size = 1) :
    LexesAs [c] [symbolToken c] := fun rest => by
  rw [List.singleton_append, lexChars_other _ hc hb, if_pos hs]
  rfl

theorem LexesAs.escape {c : Char} (hs : c.utf8Size = 1) :
    LexesAs ['\\', c] [escapeToken c] := fun rest => by
  rw [show ['\\', c] ++ rest = '\\' :: c :: rest from rfl, lexChars_backslash, if_pos hs]
  rfl

/-- Characters that each make a one-character token. -/
theorem LexesAs.symbols : ∀ {qs : List Char},
    (∀ q ∈ qs, ¬Skipped q ∧ q ≠ '\\' ∧ q.utf8Size = 1) → LexesAs qs (qs.map symbolToken)
  | [], _ => .nil
  | q :: qs, h =>
    let ⟨h₁, h₂, h₃⟩ := h q (List.mem_cons_self _ _)
    (LexesAs.symbol h₁ h₂ h₃).append
      (@LexesAs.symbols qs fun q hq => h q (List.mem_cons_of_mem _ hq))

/-- A character that is not plain is none of `d w s A z b`, so `\c` lexes as `Escape(c)`. -/
theorem escapeToken_of_not_plain {c : Char} (h : plainChar c = false) :
    escapeToken c = .Escape c := by
  unfold escapeToken
  split <;> first | rfl | exact absurd h (by decide)

theorem charText_lexesAs {c : Char} (hs : c.utf8Size = 1) :
    LexesAs (charText c) [charToken c] := by
  unfold charText charToken
  by_cases h : plainChar c = true
  · rw [if_pos h, if_pos h]
    simp only [plainChar, Bool.and_eq_true, beq_iff_eq, Bool.not_eq_true',
      decide_eq_false_iff_not, bne_iff_ne, ne_eq] at h
    exact h.1.1 ▸ LexesAs.symbol h.1.2 h.2 hs
  · rw [if_neg h, if_neg h, ← escapeToken_of_not_plain (by simpa using h)]
    exact LexesAs.escape hs

theorem digitChar_plain : ∀ d < 10, ¬Skipped (digitChar d) ∧ digitChar d ≠ '\\' ∧
    (digitChar d).utf8Size = 1 ∧ symbolToken (digitChar d) = .Char (digitChar d) := by
  decide

theorem digit_lexesAs {d : Nat} (hd : d < 10) : LexesAs [digitChar d] [.Char (digitChar d)] :=
  let ⟨h₁, h₂, h₃, h₄⟩ := digitChar_plain d hd
  h₄ ▸ .symbol h₁ h₂ h₃

theorem rangeText_lexesAs {r : RepeatRange} (hmin : r.min < 10)
    (hmax : r.max.all (· < 10) = true) : LexesAs (rangeText r) (rangeTokens r) := by
  obtain ⟨min, max⟩ := r
  have comma : LexesAs [','] [.Char ','] := .symbol (by decide) (by decide) rfl
  have close : LexesAs [']'] [.CloseBracket] := .symbol (by decide) (by decide) rfl
  cases max with
  | none => exact (digit_lexesAs hmin).append (comma.append close)
  | some max =>
    exact (digit_lexesAs hmin).append
      (comma.append ((digit_lexesAs (by simpa using hmax)).append close))

theorem mem_charText (c : Char) : c ∈ charText c := by
  unfold charText; split <;> simp

/-- A text the character lexer reads as `toks`, lexed to its end by `next_token`. -/
theorem LexesAs.lexes {text : List Char} {toks : List Token} (h : LexesAs text toks) :
    Lexes (Lexer.new ⟨text⟩) toks :=
  (lexes_iff_lexChars _ (Lexer.at_new _) _).2 (by simpa [lexChars] using h [])

/-- The same text followed by one the character lexer reads as `toks'`. -/
theorem LexesAs.lexes_append {text : List Char} {toks : List Token} (h : LexesAs text toks)
    {u : String} {toks' : List Token} (hu : lexChars u.data = some toks') :
    Lexes (Lexer.new (⟨text⟩ ++ u)) (toks ++ toks') :=
  (lexes_iff_lexChars _ (Lexer.at_new _) _).2 (by rw [String.data_append]; simp [h _, hu])

/-! ## §2 — the printed pattern lexes as the tree's tokens -/

mutual

/-- **The lexer reads a printed tree as its tokens**, by structural recursion: each piece of
the pattern lexes as the matching piece of `toTokens`. -/
theorem toText_lexesAs : ∀ t, grammatical t = true → (∀ c ∈ toText t, c.utf8Size = 1) →
    LexesAs (toText t) (toTokens t)
  | .Char c, _, hs => charText_lexesAs (hs c (mem_charText c))
  | .AnyChar, _, _ | .StartLine, _, _ | .EndLine, _, _ => .symbol (by decide) (by decide) rfl
  | .Digit, _, _ | .WordChar, _, _ | .Whitespace, _, _ | .StartInput, _, _ | .EndInput, _, _
  | .WordBoundary, _, _ => .escape rfl
  | .Concat nodes, hg, hs => by
    simp only [grammatical, Bool.and_eq_true] at hg
    exact concatText_lexesAs nodes hg.2 hs
  | .Alternation [], _, _ => .nil
  | .Alternation (node :: nodes), hg, hs => by
    simp only [grammatical, Bool.and_eq_true, allGrammatical] at hg
    have hs' := List.forall_mem_append.1 hs
    exact (toText_lexesAs node hg.2.1 hs'.1).append (alternativesText_lexesAs nodes hg.2.2 hs'.2)
  | .Star node, hg, hs | .Plus node, hg, hs | .Question node, hg, hs => by
    simp only [grammatical, Bool.and_eq_true] at hg
    exact (toText_lexesAs node hg.2 (List.forall_mem_append.1 hs).1).append
      (.symbol (by decide) (by decide) rfl)
  | .Repeat node ⟨min, max⟩, hg, hs => by
    simp only [grammatical, Bool.and_eq_true, decide_eq_true_eq] at hg
    exact (toText_lexesAs node hg.2 (List.forall_mem_append.1 hs).1).append
      ((@LexesAs.symbol '{' (by decide) (by decide) rfl).append
        (rangeText_lexesAs hg.1.1.2 hg.1.2))
  | .Group node, hg, hs =>
    (@LexesAs.symbol '(' (by decide) (by decide) rfl).append
      ((toText_lexesAs node hg (fun c hc => hs c (List.mem_cons_of_mem _
        (List.mem_append_left _ hc)))).append (.symbol (by decide) (by decide) rfl))

theorem concatText_lexesAs : ∀ nodes, allGrammatical nodes = true →
    (∀ c ∈ concatText nodes, c.utf8Size = 1) → LexesAs (concatText nodes) (concatTokens nodes)
  | [], _, _ => .nil
  | node :: nodes, hg, hs => by
    simp only [allGrammatical, Bool.and_eq_true] at hg
    have hs' := List.forall_mem_append.1 hs
    exact (toText_lexesAs node hg.1 hs'.1).append (concatText_lexesAs nodes hg.2 hs'.2)

theorem alternativesText_lexesAs : ∀ nodes, allGrammatical nodes = true →
    (∀ c ∈ alternativesText nodes, c.utf8Size = 1) →
    LexesAs (alternativesText nodes) (alternativesTokens nodes)
  | [], _, _ => .nil
  | node :: nodes, hg, hs => by
    simp only [allGrammatical, Bool.and_eq_true] at hg
    have hs' := List.forall_mem_append.1 (List.forall_mem_cons.1 hs).2
    exact (@LexesAs.symbol '|' (by decide) (by decide) rfl).append
      ((toText_lexesAs node hg.1 hs'.1).append (alternativesText_lexesAs nodes hg.2 hs'.2))

end

/-- **The lexer reads a printed tree back.** On the pattern of a grammatical tree, when it is
ASCII, the calls to `next_token` return the tree's tokens and then `EOF`, without panicking. -/
theorem lexes_toPattern {t : RegexNode} (ht : grammatical t = true)
    (hs : ∀ c ∈ (toPattern t).data, c.utf8Size = 1) :
    Lexes (Lexer.new (toPattern t)) (toTokens t) :=
  (toText_lexesAs t ht hs).lexes

/-- **Printing then parsing gives the tree back.** For every grammatical tree whose pattern is
ASCII, `Parser::new(toPattern t).parse()` returns `Ok(t)` and ends on `EOF`. -/
theorem parsePattern_toPattern {t : RegexNode} (ht : grammatical t = true)
    (hs : ∀ c ∈ (toPattern t).data, c.utf8Size = 1) :
    ∃ p, parsePattern (toPattern t) = .ok t p ∧ p.currentToken = .EOF :=
  parsePattern_toTokens ht (lexes_toPattern ht hs)

/-- `parsePattern_toPattern` on `(\\.)\x7b2,5]`: a group around an escaped `.`, two to five
times. -/
theorem parsePattern_toPattern_repeat :
    grammatical (.Repeat (.Group (.Char '.')) ⟨2, some 5⟩) = true ∧
      (∀ c ∈ (toPattern (.Repeat (.Group (.Char '.')) ⟨2, some 5⟩)).data, c.utf8Size = 1) ∧
      ∃ p, parsePattern (toPattern (.Repeat (.Group (.Char '.')) ⟨2, some 5⟩)) =
        .ok (.Repeat (.Group (.Char '.')) ⟨2, some 5⟩) p ∧ p.currentToken = .EOF :=
  have ht : grammatical (.Repeat (.Group (.Char '.')) ⟨2, some 5⟩) = true := by decide
  have hs : ∀ c ∈ (toPattern (.Repeat (.Group (.Char '.')) ⟨2, some 5⟩)).data,
      c.utf8Size = 1 := by
    decide
  ⟨ht, hs, parsePattern_toPattern ht hs⟩

/-! ## §3 — unbalanced parentheses and doubled quantifiers

`parse` stops at a `)` it does not consume and leaves it to its caller; only `parse_primary`,
for a group, consumes the `)` it expects. So an unclosed group is an error that names the `)`,
while an extra `)` at the top level ends the parse with everything after it unread.
`parse_atom` reads at most one quantifier, so a second one reaches `parse_primary`, which has
no case for it. -/

variable {α β : Type}

/-- `o` exhausts its budget, or fails with `e`. -/
def Fails (o : Outcome α) (e : ParseError) : Prop := o = .outOfFuel ∨ o = .err e

theorem Fails.bind {m : ParseM α} {f : α → ParseM β} {p : Parser} {e : ParseError}
    (h : Fails (m p) e) : Fails ((m >>= f) p) e := by
  rcases h with h | h <;> rw [bind_apply, h]
  exacts [.inl rfl, .inr rfl]

theorem Yields.bind_fails {m : ParseM α} {f : α → ParseM β} {p : Parser} {a : α}
    {ts : List Token} {e : ParseError} (hm : Yields (m p) a ts)
    (hf : ∀ p', Rest p' ts → Fails (f a p') e) : Fails ((m >>= f) p) e := by
  rcases hm with h | ⟨p', h, hr⟩ <;> rw [bind_apply, h]
  exacts [.inl rfl, hf p' hr]

/-- A failure of `parse_alternation` is a failure of `parse`. -/
theorem parse_fails_of_alternation {p : Parser} {e : ParseError}
    (h : ∀ n, Fails (parseAlternation n p) e) : ∀ n, Fails (parse n p) e
  | 0 => .inl rfl
  | n + 1 => by rw [Parser.parse]; exact h n

/-- A failure of `parse_concat` is a failure of `parse`. -/
theorem parse_fails_of_concat {p : Parser} {e : ParseError} (h : ∀ n, Fails (parseConcat n p) e) :
    ∀ n, Fails (parse n p) e :=
  parse_fails_of_alternation fun
    | 0 => .inl rfl
    | n + 1 => by rw [parseAlternation]; exact (h n).bind

/-- A failure of `parse_atom` is a failure of `parse_concat`. -/
theorem parseConcat_fails_of_atom {p : Parser} {e : ParseError}
    (h : ∀ n, Fails (parseAtom n p) e) : ∀ n, Fails (parseConcat n p) e
  | 0 => .inl rfl
  | n + 1 => by rw [parseConcat]; exact (h n).bind

/-- A failure of `parse_primary` is a failure of `parse_atom`. -/
theorem parseAtom_fails_of_primary {p : Parser} {e : ParseError}
    (h : ∀ n, Fails (parsePrimary n p) e) : ∀ n, Fails (parseAtom n p) e
  | 0 => .inl rfl
  | n + 1 => by rw [parseAtom]; exact (h n).bind

/-- A failure of `parse_atom` is a failure of `parse`. -/
theorem parse_fails_of_atom {p : Parser} {e : ParseError} (h : ∀ n, Fails (parseAtom n p) e) :
    ∀ n, Fails (parse n p) e :=
  parse_fails_of_concat (parseConcat_fails_of_atom h)

/-- A failure of `parse_primary` is a failure of `parse`: each level calls the one below
first. -/
theorem parse_fails_of_primary {p : Parser} {e : ParseError}
    (h : ∀ n, Fails (parsePrimary n p) e) : ∀ n, Fails (parse n p) e :=
  parse_fails_of_atom (parseAtom_fails_of_primary h)

/-- A pattern that lexes to `toks`, on which `parse` fails with `e` whatever the budget, is
rejected with `e`: the budget of `Parser::new` is always enough. -/
theorem parsePattern_eq_err {s : String} {toks : List Token} {e : ParseError}
    (hl : Lexes (Lexer.new s) toks) (h : ∀ p, Rest p toks → ∀ n, Fails (parse n p) e) :
    parsePattern s = .err e :=
  let ⟨p, hp, he⟩ := parsePattern_of_lexes hl
  he.trans ((h p hp _).resolve_left (parse_budget_ne_outOfFuel _))

/-- `(` and a grammatical tree, then the end: `parse_primary` reads the inside of the group,
then expects `)` and finds `EOF`. -/
theorem parsePrimary_unclosed {t : RegexNode} (ht : grammatical t = true) {p : Parser}
    (hp : Rest p (.OpenParen :: toTokens t)) :
    ∀ n, Fails (parsePrimary n p) (.Expected .CloseParen .EOF)
  | 0 => .inl rfl
  | n + 1 => by
    rw [parsePrimary, current_bind, hp.currentToken]
    refine (Yields.consume hp).bind_fails fun p₁ h₁ =>
      ((complete_of_grammatical t ht).alternation.parse n p₁ [] (by simpa using h₁)
        (.inr rfl)).bind_fails fun p₂ h₂ => Fails.bind (.inr ?_)
    rw [consumeToken, show p₂.currentToken = .EOF from h₂, if_neg (by decide)]

/-- **An unclosed group is rejected, naming the `)`.** For every grammatical tree whose
pattern is ASCII, `Parser::new` on `(` and that pattern returns
`Err("Expected CloseParen, got EOF")`. -/
theorem parsePattern_unclosed_group {t : RegexNode} (ht : grammatical t = true)
    (hs : ∀ c ∈ (toPattern t).data, c.utf8Size = 1) :
    parsePattern ("(" ++ toPattern t) = .err (.Expected .CloseParen .EOF) := by
  have hl : Lexes (Lexer.new ("(" ++ toPattern t)) (.OpenParen :: toTokens t) :=
    ((@LexesAs.symbol '(' (by decide) (by decide) rfl).append (toText_lexesAs t ht hs)).lexes
  exact parsePattern_eq_err hl fun _ hp => parse_fails_of_primary (parsePrimary_unclosed ht hp)

/-- `parsePattern_unclosed_group` on `(a|b`. -/
theorem parsePattern_unclosed_group_alternation :
    grammatical (.Alternation [.Char 'a', .Char 'b']) = true ∧
      (∀ c ∈ (toPattern (.Alternation [.Char 'a', .Char 'b'])).data, c.utf8Size = 1) ∧
      parsePattern ("(" ++ toPattern (.Alternation [.Char 'a', .Char 'b'])) =
        .err (.Expected .CloseParen .EOF) :=
  have ht : grammatical (.Alternation [.Char 'a', .Char 'b']) = true := by decide
  have hs : ∀ c ∈ (toPattern (.Alternation [.Char 'a', .Char 'b'])).data, c.utf8Size = 1 := by
    decide
  ⟨ht, hs, parsePattern_unclosed_group ht hs⟩

/-- The lexer reads a printed tree, then characters `qs` that each make a one-character
token, then an ASCII text. -/
theorem lexes_toPattern_symbols {t : RegexNode} (ht : grammatical t = true)
    (hs : ∀ c ∈ (toPattern t).data, c.utf8Size = 1) {qs : List Char}
    (hq : ∀ q ∈ qs, ¬Skipped q ∧ q ≠ '\\' ∧ q.utf8Size = 1) {u : String}
    (hu : ∀ c ∈ u.data, c.utf8Size = 1) :
    ∃ toks, Lexes (Lexer.new (toPattern t ++ ⟨qs⟩ ++ u))
      (toTokens t ++ (qs.map symbolToken ++ toks)) := by
  obtain ⟨toks, hu'⟩ := Option.isSome_iff_exists.1 ((lexChars_isSome_iff _).2 hu)
  exact ⟨toks, by simpa only [List.append_assoc] using
    ((toText_lexesAs t ht hs).append (LexesAs.symbols hq)).lexes_append hu'⟩

/-- **Whatever follows an unmatched `)` is never read.** For every grammatical tree whose
pattern is ASCII, and every ASCII text `u`, `Parser::new` on the pattern, `)` and `u` returns
`Ok(t)`, stopped on the `)`. -/
theorem parsePattern_ignores_after_close {t : RegexNode} (ht : grammatical t = true)
    (hs : ∀ c ∈ (toPattern t).data, c.utf8Size = 1) {u : String}
    (hu : ∀ c ∈ u.data, c.utf8Size = 1) :
    ∃ p, parsePattern (toPattern t ++ ")" ++ u) = .ok t p ∧ p.currentToken = .CloseParen := by
  obtain ⟨toks, hl⟩ := @lexes_toPattern_symbols t ht hs [')'] (by decide) u hu
  obtain ⟨p, h, hr⟩ := parsePattern_reads ht hl (.inl rfl)
  exact ⟨p, h, hr.currentToken⟩

/-- `parsePattern_ignores_after_close` on `a*` followed by `)(`. -/
theorem parsePattern_ignores_after_close_star :
    grammatical (.Star (.Char 'a')) = true ∧
      (∀ c ∈ (toPattern (.Star (.Char 'a'))).data, c.utf8Size = 1) ∧
      (∀ c ∈ "(".data, c.utf8Size = 1) ∧
      ∃ p, parsePattern (toPattern (.Star (.Char 'a')) ++ ")" ++ "(") = .ok (.Star (.Char 'a')) p ∧
        p.currentToken = .CloseParen :=
  have ht : grammatical (.Star (.Char 'a')) = true := by decide
  have hs : ∀ c ∈ (toPattern (.Star (.Char 'a'))).data, c.utf8Size = 1 := by decide
  have hu : ∀ c ∈ "(".data, c.utf8Size = 1 := by decide
  ⟨ht, hs, hu, parsePattern_ignores_after_close ht hs hu⟩

/-- A quantified atom is read by `parse_atom` whatever follows it. -/
theorem reads_quantified_atom {t : RegexNode} (ht : grammatical t = true) (hr : rank t = 1)
    (follow : Token → Prop) : Reads parseAtom follow t := by
  cases t
  case Star node | Plus node | Question node =>
    simp only [grammatical, Bool.and_eq_true, beq_iff_eq] at ht
    exact Reads.quantified ((complete_of_grammatical node ht.2).primary ht.1) _ (by simp)
  case Repeat node range =>
    obtain ⟨min, max⟩ := range
    simp only [grammatical, Bool.and_eq_true, beq_iff_eq, decide_eq_true_eq] at ht
    exact Reads.repeat ((complete_of_grammatical node ht.2).primary ht.1.1.1) ht.1.1.2 ht.1.2
  all_goals simp [rank] at hr

/-- The tokens a primary starts with: the cases of `parse_primary` before its last. -/
def startsPrimary : Token → Bool
  | .Char _ | .Escape _ | .AnyChar | .Digit | .WordChar | .Whitespace | .OpenParen | .StartLine
  | .EndLine | .StartInput | .EndInput | .WordBoundary => true
  | _ => false

/-- `parse_primary` on a token no primary starts with: `Unexpected token`. -/
theorem parsePrimary_unexpected {p : Parser} {q : Token} (hq : startsPrimary q = false)
    (hp : p.currentToken = q) : ∀ n, Fails (parsePrimary n p) (.UnexpectedToken q)
  | 0 => .inl rfl
  | n + 1 => .inr <| by
    rw [parsePrimary, current_bind, hp]
    cases q
    case Char | Escape | AnyChar | Digit | WordChar | Whitespace | OpenParen | StartLine
      | EndLine | StartInput | EndInput | WordBoundary => cases hq
    all_goals rfl

/-- The loop of `parse_concat` on a quantifier: it does not end there, and the next atom has
no primary. -/
theorem concatLoop_quantifier {p : Parser} {q : Token}
    (hq : q ∈ [Token.Star, .Plus, .Question, .Range]) (hp : p.currentToken = q) :
    ∀ n acc, Fails (concatLoop n acc p) (.UnexpectedToken q)
  | 0, _ => .inl rfl
  | n + 1, _ => by
    have hcont : (q ≠ .Alternation ∧ q ≠ .CloseParen ∧ q ≠ .EOF) ∧ startsPrimary q = false := by
      simp only [List.mem_cons, List.not_mem_nil, or_false] at hq
      rcases hq with rfl | rfl | rfl | rfl <;> decide
    rw [concatLoop, current_bind, hp, if_pos hcont.1]
    exact Fails.bind (parseAtom_fails_of_primary (parsePrimary_unexpected hcont.2 hp) n)

/-- **A second quantifier is rejected.** For every quantified atom (`Star`, `Plus`, `Question`
or `Repeat` of a primary) whose pattern is ASCII, one more `*`, `+`, `?` or `{` after it,
whatever ASCII text follows, makes `Parser::new(..).parse()` return
`Err("Unexpected token: ..")` naming that quantifier. -/
theorem parsePattern_double_quantifier {t : RegexNode} (ht : grammatical t = true)
    (hr : rank t = 1) (hs : ∀ c ∈ (toPattern t).data, c.utf8Size = 1) {q : Char}
    (hq : q ∈ ['*', '+', '?', '\x7b']) {u : String} (hu : ∀ c ∈ u.data, c.utf8Size = 1) :
    parsePattern (toPattern t ++ q.toString ++ u) = .err (.UnexpectedToken (symbolToken q)) := by
  have hq' : symbolToken q ∈ [Token.Star, .Plus, .Question, .Range] ∧ ¬Skipped q ∧
      q ≠ '\\' ∧ q.utf8Size = 1 := by
    simp only [List.mem_cons, List.not_mem_nil, or_false] at hq
    rcases hq with rfl | rfl | rfl | rfl <;> decide
  obtain ⟨hqt, hq₁, hq₂, hq₃⟩ := hq'
  obtain ⟨toks, hl⟩ := @lexes_toPattern_symbols t ht hs [q] (by simpa using ⟨hq₁, hq₂, hq₃⟩) u hu
  replace hl : Lexes (Lexer.new (toPattern t ++ q.toString ++ u))
      (toTokens t ++ symbolToken q :: toks) := hl
  refine parsePattern_eq_err hl fun p hp => parse_fails_of_concat fun
    | 0 => .inl rfl
    | n + 1 => by
      rw [parseConcat]
      exact (reads_quantified_atom ht hr (fun _ => True) n p _ hp trivial).bind_fails
        fun _ hp' => (concatLoop_quantifier hqt hp'.currentToken n _).bind

/-- `parsePattern_double_quantifier` on `a**`. -/
theorem parsePattern_double_quantifier_star :
    grammatical (.Star (.Char 'a')) = true ∧ rank (.Star (.Char 'a')) = 1 ∧
      (∀ c ∈ (toPattern (.Star (.Char 'a'))).data, c.utf8Size = 1) ∧ '*' ∈ ['*', '+', '?', '\x7b'] ∧
      (∀ c ∈ "".data, c.utf8Size = 1) ∧
      parsePattern (toPattern (.Star (.Char 'a')) ++ '*'.toString ++ "") =
        .err (.UnexpectedToken (symbolToken '*')) :=
  have ht : grammatical (.Star (.Char 'a')) = true := by decide
  have hs : ∀ c ∈ (toPattern (.Star (.Char 'a'))).data, c.utf8Size = 1 := by decide
  have hq : '*' ∈ ['*', '+', '?', '\x7b'] := by decide
  have hu : ∀ c ∈ "".data, c.utf8Size = 1 := by decide
  ⟨ht, rfl, hs, hq, hu, parsePattern_double_quantifier ht rfl hs hq hu⟩

/-! ## §4 — the ranges `parse_range` reads

`parse_range` reads an optional digit as the lower bound, then, only if there was one, an
optional `,` and digit as the upper, and then always expects `]`. Any other character after
the first digit is read as the token it lexes to, and `consume_token(Token::CloseBracket)`
rejects it; without the `,`, the range has no upper bound. -/

theorem symbolToken_eq_char {c x : Char} (h : symbolToken c = .Char x) : c = x := by
  unfold symbolToken at h; split at h <;> simp_all

theorem symbolToken_eq_closeBracket {c : Char} (h : symbolToken c = .CloseBracket) : c = ']' := by
  unfold symbolToken at h; split at h <;> simp_all

/-- A digit, then a token other than `,`: the bounds are the digit and no upper one. -/
theorem rangeBounds_one_digit {p : Parser} {d : Nat} {tok : Token} {ts : List Token}
    (hd : d < 10) (hcomma : tok ≠ .Char ',') (h : Rest p (.Char (digitChar d) :: tok :: ts)) :
    Yields (rangeBounds p) (d, none) (tok :: ts) :=
  (digitBound_digit hd h).bind fun p₁ h₁ => by
    dsimp only
    rw [current_bind, h₁.currentToken, List.headD_cons, if_neg hcomma]
    exact .pure h₁ _

/-- A digit, then a token that is neither `,` nor `]`: `parse_range` takes the digit as the
lower bound with no upper one, and `consume_token(Token::CloseBracket)` fails on that token. -/
theorem parseRange_one_digit {p : Parser} {d : Nat} {tok : Token} {ts : List Token}
    (hd : d < 10) (hcomma : tok ≠ .Char ',') (hclose : tok ≠ .CloseBracket)
    (h : Rest p (.Char (digitChar d) :: tok :: ts)) :
    Fails (parseRange p) (.Expected .CloseBracket tok) := by
  refine (rangeBounds_one_digit hd hcomma h).bind_fails fun p₂ h₂ => Fails.bind (.inr ?_)
  rw [consumeToken, h₂.currentToken, List.headD_cons, if_neg hclose]

/-- A digit, then `]`: `parse_range` returns `{min: d, max: None}`. -/
theorem parseRange_digit_close {p : Parser} {d : Nat} {ts : List Token} (hd : d < 10)
    (h : Rest p (.Char (digitChar d) :: .CloseBracket :: ts)) :
    Yields (parseRange p) ⟨d, none⟩ ts :=
  (rangeBounds_one_digit hd (by simp) h).bind fun _ h₁ =>
    (Yields.consume h₁).bind fun _ h₂ => .pure h₂ _

/-- `]` at once: `parse_range` returns `{min: 0, max: None}`. -/
theorem parseRange_close {p : Parser} {ts : List Token} (h : Rest p (.CloseBracket :: ts)) :
    Yields (parseRange p) ⟨0, none⟩ ts :=
  ((digitBound_closeBracket h).bind fun _ h₁ => .pure h₁ (0, none)).bind fun _ h₁ =>
    (Yields.consume h₁).bind fun _ h₂ => .pure h₂ _

/-- A primary, `{`, a digit, then a token that is neither `,` nor `]`: `parse_atom` fails
there, whatever the budget. -/
theorem parseAtom_range_one_digit {t : RegexNode} (ht : grammatical t = true)
    (hr : rank t = 0) {p : Parser} {d : Nat} {tok : Token} {ts : List Token} (hd : d < 10)
    (hcomma : tok ≠ .Char ',') (hclose : tok ≠ .CloseBracket)
    (hp : Rest p (toTokens t ++ .Range :: .Char (digitChar d) :: tok :: ts)) :
    ∀ n, Fails (parseAtom n p) (.Expected .CloseBracket tok)
  | 0 => .inl rfl
  | n + 1 => by
    rw [parseAtom]
    refine ((complete_of_grammatical t ht).primary hr n p _ hp trivial).bind_fails
      fun p₁ h₁ => ?_
    rw [current_bind, h₁.currentToken]
    exact (Yields.consume h₁).bind_fails fun _ h₂ =>
      (parseRange_one_digit hd hcomma hclose h₂).bind

/-- **A range bound is one digit, and a range closes only on `]`.** For every primary whose
pattern is ASCII, `{`, a digit, then any character but `,` and `]` (a second digit, or the
`}` that the lexer reads as a literal), whatever ASCII text follows, make
`Parser::new(..).parse()` return `Err("Expected CloseBracket, got ..")` naming the token of
that character. -/
theorem parsePattern_range_one_digit {t : RegexNode} (ht : grammatical t = true)
    (hr : rank t = 0) (hs : ∀ c ∈ (toPattern t).data, c.utf8Size = 1) {d : Nat} (hd : d < 10)
    {c : Char} (hc : c ≠ ',' ∧ c ≠ ']') (hc' : ¬Skipped c ∧ c ≠ '\\' ∧ c.utf8Size = 1)
    {u : String} (hu : ∀ c ∈ u.data, c.utf8Size = 1) :
    parsePattern (toPattern t ++ ⟨['\x7b', digitChar d, c]⟩ ++ u) =
      .err (.Expected .CloseBracket (symbolToken c)) := by
  obtain ⟨h₁, h₂, h₃, h₄⟩ := digitChar_plain d hd
  obtain ⟨toks, hl⟩ := @lexes_toPattern_symbols t ht hs ['\x7b', digitChar d, c]
    (by
      simp only [List.mem_cons, List.not_mem_nil, or_false, forall_eq_or_imp, forall_eq]
      exact ⟨⟨by decide, by decide, rfl⟩, ⟨h₁, h₂, h₃⟩, hc'⟩) u hu
  simp only [List.map_cons, List.map_nil, h₄, List.cons_append, List.nil_append] at hl
  exact parsePattern_eq_err hl fun _ hp => parse_fails_of_atom <| parseAtom_range_one_digit ht hr
    hd (fun h => hc.1 (symbolToken_eq_char h)) (fun h => hc.2 (symbolToken_eq_closeBracket h)) hp

/-- `parsePattern_range_one_digit` on `a{12]`: a two-digit bound. -/
theorem parsePattern_range_one_digit_two_digits :
    grammatical (.Char 'a') = true ∧ rank (.Char 'a') = 0 ∧
      (∀ c ∈ (toPattern (.Char 'a')).data, c.utf8Size = 1) ∧ 1 < 10 ∧ ('2' ≠ ',' ∧ '2' ≠ ']') ∧
      (¬Skipped '2' ∧ '2' ≠ '\\' ∧ '2'.utf8Size = 1) ∧ (∀ c ∈ "]".data, c.utf8Size = 1) ∧
      parsePattern (toPattern (.Char 'a') ++ ⟨['\x7b', digitChar 1, '2']⟩ ++ "]") =
        .err (.Expected .CloseBracket (symbolToken '2')) :=
  have ht : grammatical (.Char 'a') = true := rfl
  have hs : ∀ c ∈ (toPattern (.Char 'a')).data, c.utf8Size = 1 := by decide
  have hc : '2' ≠ ',' ∧ '2' ≠ ']' := by decide
  have hc' : ¬Skipped '2' ∧ '2' ≠ '\\' ∧ '2'.utf8Size = 1 := by decide
  have hu : ∀ c ∈ "]".data, c.utf8Size = 1 := by decide
  ⟨ht, rfl, hs, by decide, hc, hc', hu,
    parsePattern_range_one_digit ht rfl hs (by decide) hc hc' hu⟩

/-- **A range closed after its first digit, or at once, has no upper bound.** For every
primary whose pattern is ASCII and every digit `d`, `Parser::new(..).parse()` returns
`Ok(Repeat(t, {min: d, max: None}))` on the pattern followed by `{`, `d` and `]`, and
`Ok(Repeat(t, {min: 0, max: None}))` on the pattern followed by `{` and `]`, stopping on `EOF`
both times: `{d]` reads as `{d,]`, and the empty range `{]` is accepted as `{0,]`. -/
theorem parsePattern_range_unbounded {t : RegexNode} (ht : grammatical t = true)
    (hr : rank t = 0) (hs : ∀ c ∈ (toPattern t).data, c.utf8Size = 1) {d : Nat} (hd : d < 10) :
    (∃ p, parsePattern (toPattern t ++ ⟨['\x7b', digitChar d, ']']⟩) =
        .ok (.Repeat t ⟨d, none⟩) p ∧ p.currentToken = .EOF) ∧
      ∃ p, parsePattern (toPattern t ++ ⟨['\x7b', ']']⟩) = .ok (.Repeat t ⟨0, none⟩) p ∧
        p.currentToken = .EOF := by
  have hprim := (complete_of_grammatical t ht).primary hr
  have hlex : ∀ qs : List Char, (∀ q ∈ qs, ¬Skipped q ∧ q ≠ '\\' ∧ q.utf8Size = 1) →
      Lexes (Lexer.new (toPattern t ++ ⟨qs⟩)) (toTokens t ++ qs.map symbolToken ++ []) :=
    fun qs hq => by
      rw [List.append_nil]; exact ((toText_lexesAs t ht hs).append (LexesAs.symbols hq)).lexes
  obtain ⟨h₁, h₂, h₃, h₄⟩ := digitChar_plain d hd
  have hdigit := hlex ['\x7b', digitChar d, ']'] (by
    simp only [List.mem_cons, List.not_mem_nil, or_false, forall_eq_or_imp, forall_eq]
    exact ⟨⟨by decide, by decide, rfl⟩, ⟨h₁, h₂, h₃⟩, by decide, by decide, rfl⟩)
  simp only [List.map_cons, List.map_nil, h₄] at hdigit
  constructor
  · obtain ⟨p, h, hp⟩ := parsePattern_readsOn
      (ReadsOn.repeat hprim fun _ _ => parseRange_digit_close hd).concat.alternation.parse
      hdigit (.inr rfl)
    exact ⟨p, h, hp⟩
  · obtain ⟨p, h, hp⟩ := parsePattern_readsOn
      (ReadsOn.repeat hprim fun _ _ => parseRange_close).concat.alternation.parse
      (hlex ['\x7b', ']'] (by decide)) (.inr rfl)
    exact ⟨p, h, hp⟩

/-- `parsePattern_range_unbounded` on `a\x7b3]` and `a\x7b]`. -/
theorem parsePattern_range_unbounded_three :
    grammatical (.Char 'a') = true ∧ rank (.Char 'a') = 0 ∧
      (∀ c ∈ (toPattern (.Char 'a')).data, c.utf8Size = 1) ∧ 3 < 10 ∧
      ((∃ p, parsePattern (toPattern (.Char 'a') ++ ⟨['\x7b', digitChar 3, ']']⟩) =
          .ok (.Repeat (.Char 'a') ⟨3, none⟩) p ∧ p.currentToken = .EOF) ∧
        ∃ p, parsePattern (toPattern (.Char 'a') ++ ⟨['\x7b', ']']⟩) =
          .ok (.Repeat (.Char 'a') ⟨0, none⟩) p ∧ p.currentToken = .EOF) :=
  have ht : grammatical (.Char 'a') = true := rfl
  have hs : ∀ c ∈ (toPattern (.Char 'a')).data, c.utf8Size = 1 := by decide
  ⟨ht, rfl, hs, by decide, parsePattern_range_unbounded ht rfl hs (by decide)⟩

/-! ## §5 — empty branches

`parse_concat` starts with `parse_atom`, and `parse_atom` with `parse_primary`, before it
looks at the token: every branch of an alternation, and the inside of every group, must start
with a primary, and the token that stands where it is due is rejected. -/

/-- The loop of `parse_alternation` on `|` followed by no primary: the branch after the `|`
is empty, and `parse_primary` rejects the token in its place. -/
theorem alternationLoop_empty {p : Parser} {ts : List Token}
    (hq : startsPrimary (ts.headD .EOF) = false) (hp : Rest p (.Alternation :: ts)) :
    ∀ n nodes, Fails (alternationLoop n nodes p) (.UnexpectedToken (ts.headD .EOF))
  | 0, _ => .inl rfl
  | n + 1, _ => by
    rw [alternationLoop, current_bind, hp.currentToken, List.headD_cons, if_pos rfl]
    exact (Yields.consume hp).bind_fails fun _ hp' => Fails.bind <|
      parseConcat_fails_of_atom (parseAtom_fails_of_primary
        (parsePrimary_unexpected hq hp'.currentToken)) n

/-- `(` then `)`: `parse_primary` reads the inside of the group with `parse`, which meets the
`)` where a primary is due. -/
theorem parsePrimary_empty_group {p : Parser} {ts : List Token}
    (hp : Rest p (.OpenParen :: .CloseParen :: ts)) :
    ∀ n, Fails (parsePrimary n p) (.UnexpectedToken .CloseParen)
  | 0 => .inl rfl
  | n + 1 => by
    rw [parsePrimary, current_bind, hp.currentToken]
    exact (Yields.consume hp).bind_fails fun _ h₁ =>
      (parse_fails_of_primary (parsePrimary_unexpected (by rfl) h₁.currentToken) n).bind

/-- **An empty branch is rejected, wherever it stands.** For every tree of the level of a
concatenation whose pattern is ASCII, and every ASCII text `u`: a pattern that starts with
`|`, one with `||` after the tree, one that ends with `|` after it, and one that starts with
the empty group `()`, make `Parser::new(..).parse()` return `Err("Unexpected token: ..")`
naming the `|`, the `|`, `EOF` and the `)` that stand where a primary is due. -/
theorem parsePattern_empty_branch {t : RegexNode} (ht : grammatical t = true)
    (hr : rank t ≤ 2) (hs : ∀ c ∈ (toPattern t).data, c.utf8Size = 1) {u : String}
    (hu : ∀ c ∈ u.data, c.utf8Size = 1) :
    parsePattern ("|" ++ u) = .err (.UnexpectedToken .Alternation) ∧
      parsePattern (toPattern t ++ "||" ++ u) = .err (.UnexpectedToken .Alternation) ∧
      parsePattern (toPattern t ++ "|") = .err (.UnexpectedToken .EOF) ∧
      parsePattern ("()" ++ u) = .err (.UnexpectedToken .CloseParen) := by
  obtain ⟨toks, hu'⟩ := Option.isSome_iff_exists.1 ((lexChars_isSome_iff _).2 hu)
  have hsym : ∀ qs : List Char, (∀ q ∈ qs, ¬Skipped q ∧ q ≠ '\\' ∧ q.utf8Size = 1) →
      Lexes (Lexer.new (⟨qs⟩ ++ u)) (qs.map symbolToken ++ toks) :=
    fun qs hq => (LexesAs.symbols hq).lexes_append hu'
  have hbranch : ∀ ts, startsPrimary (ts.headD .EOF) = false →
      ∀ p, Rest p (toTokens t ++ .Alternation :: ts) →
        ∀ n, Fails (parse n p) (.UnexpectedToken (ts.headD .EOF)) := fun ts hq p hp =>
    parse_fails_of_alternation fun
      | 0 => .inl rfl
      | n + 1 => by
        rw [parseAlternation]
        exact ((complete_of_grammatical t ht).concat hr n p _ hp (.inl rfl)).bind_fails
          fun _ hp' => (alternationLoop_empty hq hp' n _).bind
  refine ⟨parsePattern_eq_err (hsym ['|'] (by decide)) fun _ hp =>
      parse_fails_of_primary (parsePrimary_unexpected (by rfl) hp.currentToken), ?_, ?_,
    parsePattern_eq_err (hsym ['(', ')'] (by decide)) fun _ hp =>
      parse_fails_of_primary (parsePrimary_empty_group hp)⟩
  · obtain ⟨toks, hl⟩ := @lexes_toPattern_symbols t ht hs ['|', '|'] (by decide) u hu
    exact parsePattern_eq_err hl (hbranch (.Alternation :: toks) rfl)
  · exact parsePattern_eq_err ((toText_lexesAs t ht hs).append
      (@LexesAs.symbols ['|'] (by decide))).lexes (hbranch [] rfl)

/-- `parsePattern_empty_branch` on the tree `ab` and the text `c`: `|c`, `ab||c`, `ab|` and
`()c`. -/
theorem parsePattern_empty_branch_concat :
    grammatical (.Concat [.Char 'a', .Char 'b']) = true ∧
      rank (.Concat [.Char 'a', .Char 'b']) ≤ 2 ∧
      (∀ c ∈ (toPattern (.Concat [.Char 'a', .Char 'b'])).data, c.utf8Size = 1) ∧
      (∀ c ∈ "c".data, c.utf8Size = 1) ∧
      (parsePattern ("|" ++ "c") = .err (.UnexpectedToken .Alternation) ∧
        parsePattern (toPattern (.Concat [.Char 'a', .Char 'b']) ++ "||" ++ "c") =
          .err (.UnexpectedToken .Alternation) ∧
        parsePattern (toPattern (.Concat [.Char 'a', .Char 'b']) ++ "|") =
          .err (.UnexpectedToken .EOF) ∧
        parsePattern ("()" ++ "c") = .err (.UnexpectedToken .CloseParen)) :=
  have ht : grammatical (.Concat [.Char 'a', .Char 'b']) = true := by decide
  have hs : ∀ c ∈ (toPattern (.Concat [.Char 'a', .Char 'b'])).data, c.utf8Size = 1 := by decide
  have hu : ∀ c ∈ "c".data, c.utf8Size = 1 := by decide
  ⟨ht, by decide, hs, hu, parsePattern_empty_branch ht (by decide) hs hu⟩

end Parser

end Simplegrep
