import SimplegrepLean.Parser.Pattern

/-!
# SimplegrepLean — the errors the parser reports, and the tokens it never sees

`parse` returns `Err` from two places only: the last arm of `parse_primary`, on a token that
starts no primary, and `consume_token`, when the current token is not the one it expects.
Most `consume_token` calls cannot fail, since they consume the token just read: the leaves of
`parse_primary`, the `(` of a group, the quantifiers of `parse_atom`, the digits and the `,`
of `parse_range`, the `|` of `parse_alternation`. Two can: the `)` after a group and the `]`
after a range. A group's body is read by `parse`, which stops only on `)` or `EOF`
(`parse_eq_ok`), so a `)` can be missing only at the end of the pattern.

* **`parsePattern_refusal`** — every `Err` of `Parser::new(s).parse()` is
  `Expected CloseParen, got EOF`, `Expected CloseBracket, got t` for a token `t` other than
  `]`, or `Unexpected token: t` for a token `t` no primary starts with;
* **`lexes_lexable`** — the lexer never returns `Concat`, nor an `Escape` that
  `escape_to_node` reads as a class: its class arms are dead.
-/

namespace Simplegrep

namespace Parser

/-- The errors `parse` reports, each with the token it refused. -/
inductive Refusal : ParseError → Prop
  /-- `Expected CloseParen, got EOF`: a group still open at the end of the pattern. -/
  | unclosedGroup : Refusal (.Expected .CloseParen .EOF)
  /-- `Expected CloseBracket, got t`: the bounds of a range followed by `t`, not `]`. -/
  | unclosedRange {got : Token} : got ≠ .CloseBracket → Refusal (.Expected .CloseBracket got)
  /-- `Unexpected token: t`: a primary is due and none starts with `t`. -/
  | unexpected {tok : Token} : startsPrimary tok = false → Refusal (.UnexpectedToken tok)

variable {α β : Type}

/-- Every `Err` of `o` is a refusal. -/
def Refuses (o : Outcome α) : Prop := ∀ e, o = .err e → Refusal e

theorem Refuses.exhausted (p : Parser) : Refuses ((exhausted : ParseM α) p) :=
  fun _ h => by cases h

theorem Refuses.pure {a : α} {p : Parser} : Refuses ((Pure.pure a : ParseM α) p) :=
  fun _ h => by cases h

theorem Refuses.bind {m : ParseM α} {f : α → ParseM β} {p : Parser} (hm : Refuses (m p))
    (hf : ∀ a p', m p = .ok a p' → Refuses (f a p')) : Refuses ((m >>= f) p) := by
  intro e h
  rw [bind_apply] at h
  cases hmp : m p with
  | ok a p' => rw [hmp] at h; exact hf a p' hmp e h
  | err e' => rw [hmp] at h; cases h; exact hm _ hmp
  | panic | outOfFuel => rw [hmp] at h; cases h

/-- `consume_token` fails only on a token other than the one it expects, and names both. -/
theorem consumeToken_eq_err {tok : Token} {p : Parser} {e : ParseError}
    (h : consumeToken tok p = .err e) :
    p.currentToken ≠ tok ∧ e = .Expected tok p.currentToken := by
  unfold consumeToken at h
  split at h
  · split at h <;> cases h
  · cases h; exact ⟨‹_›, rfl⟩

theorem consumeToken_refuses {tok : Token} {p : Parser}
    (h : p.currentToken ≠ tok → Refusal (.Expected tok p.currentToken)) :
    Refuses (consumeToken tok p) := fun _ he => by
  obtain ⟨hne, rfl⟩ := consumeToken_eq_err he
  exact h hne

/-- Consuming the token just read never fails. -/
theorem consumeToken_current {tok : Token} {p : Parser} (h : p.currentToken = tok) :
    Refuses (consumeToken tok p) :=
  consumeToken_refuses fun hne => absurd h hne

theorem leaf_refuses {tok : Token} {node : RegexNode} {p : Parser} (h : p.currentToken = tok) :
    Refuses (leaf tok node p) :=
  (consumeToken_current h).bind fun _ _ _ => .pure

/-! ## §1 — ranges -/

theorem digitBound_refuses (p : Parser) : Refuses (digitBound p) := by
  rw [digitBound, current_bind]
  generalize htok : p.currentToken = tok
  cases tok
  case Char ch =>
    dsimp only
    split
    · exact (consumeToken_current htok).bind fun _ _ _ => .pure
    · exact .pure
  all_goals exact .pure

theorem rangeBounds_refuses (p : Parser) : Refuses (rangeBounds p) := by
  refine (digitBound_refuses p).bind fun x p₁ _ => ?_
  cases x with
  | none => exact .pure
  | some min =>
    show Refuses ((current >>= _) p₁)
    rw [current_bind]
    split
    · exact (consumeToken_current ‹_›).bind fun _ p₂ _ =>
        (digitBound_refuses p₂).bind fun _ _ _ => .pure
    · exact .pure

/-- `parse_range` fails only on the token after its bounds, when that is not `]`. -/
theorem parseRange_refuses (p : Parser) : Refuses (parseRange p) :=
  (rangeBounds_refuses p).bind fun _ _ _ =>
    (consumeToken_refuses Refusal.unclosedRange).bind fun _ _ _ => .pure

/-! ## §2 — every method, over the recursion budget -/

mutual

theorem parse_refuses : ∀ n p, Refuses (parse n p)
  | 0, p => .exhausted p
  | n + 1, p => by rw [Parser.parse]; exact parseAlternation_refuses n p

theorem parseAlternation_refuses : ∀ n p, Refuses (parseAlternation n p)
  | 0, p => .exhausted p
  | n + 1, p => by
    rw [parseAlternation]
    exact (parseConcat_refuses n p).bind fun node p₁ _ =>
      (alternationLoop_refuses n [node] p₁).bind fun _ _ _ => .pure

theorem alternationLoop_refuses : ∀ n nodes p, Refuses (alternationLoop n nodes p)
  | 0, _, p => .exhausted p
  | n + 1, nodes, p => by
    rw [alternationLoop, current_bind]
    split
    · exact (consumeToken_current ‹_›).bind fun _ p₁ _ =>
        (parseConcat_refuses n p₁).bind fun node p₂ _ => alternationLoop_refuses n _ p₂
    · exact .pure

theorem parseConcat_refuses : ∀ n p, Refuses (parseConcat n p)
  | 0, p => .exhausted p
  | n + 1, p => by
    rw [parseConcat]
    exact (parseAtom_refuses n p).bind fun node p₁ _ =>
      (concatLoop_refuses n [node] p₁).bind fun _ _ _ => .pure

theorem concatLoop_refuses : ∀ n nodes p, Refuses (concatLoop n nodes p)
  | 0, _, p => .exhausted p
  | n + 1, nodes, p => by
    rw [concatLoop, current_bind]
    split
    · exact (parseAtom_refuses n p).bind fun node p₁ _ => concatLoop_refuses n _ p₁
    · exact .pure

theorem parseAtom_refuses : ∀ n p, Refuses (parseAtom n p)
  | 0, p => .exhausted p
  | n + 1, p => by
    rw [parseAtom]
    refine (parsePrimary_refuses n p).bind fun node p₁ _ => ?_
    show Refuses ((current >>= _) p₁)
    rw [current_bind]
    generalize htok : p₁.currentToken = tok
    cases tok
    case Range =>
      exact (consumeToken_current htok).bind fun _ p₂ _ =>
        (parseRange_refuses p₂).bind fun _ _ _ => .pure
    case Star | Plus | Question => exact leaf_refuses htok
    all_goals exact .pure

/-- `parse_primary`: a leaf consumes the token it read; a group's `)` is missing only at
`EOF`, where its body stopped; every other token is `Unexpected`. -/
theorem parsePrimary_refuses : ∀ n p, Refuses (parsePrimary n p)
  | 0, p => .exhausted p
  | n + 1, p => by
    rw [parsePrimary, current_bind]
    generalize htok : p.currentToken = tok
    cases tok
    case OpenParen =>
      refine (consumeToken_current htok).bind fun _ p₁ _ =>
        (parse_refuses n p₁).bind fun _ p₂ h₂ =>
          (consumeToken_refuses fun hne => ?_).bind fun _ _ _ => .pure
      rw [(parse_eq_ok h₂).2.resolve_left hne]
      exact .unclosedGroup
    case Char | Escape | AnyChar | Digit | WordChar | Whitespace | StartLine | EndLine
      | StartInput | EndInput | WordBoundary => exact leaf_refuses htok
    all_goals rintro _ ⟨⟩; exact .unexpected rfl

end

/-- **The parser's errors.** Every `Err` that `Parser::new(s).parse()` returns is one of three:
`Expected CloseParen, got EOF` (a group still open at the end of the pattern),
`Expected CloseBracket, got t` with `t` not `]`, or `Unexpected token: t` with `t` a token no
primary starts with. No other `consume_token` call fails, and a group's `)` is never found
missing before the end of the pattern. -/
theorem parsePattern_refusal {s : String} {e : ParseError} (h : parsePattern s = .err e) :
    Refusal e := by
  unfold parsePattern at h
  split at h
  · exact parse_refuses _ _ e h
  · cases h

/-- `parsePattern_refusal` on `"(a|b"`: the alternation inside the group is read to `EOF`. -/
theorem parsePattern_refusal_unclosed :
    parsePattern "(a|b" = .err (.Expected .CloseParen .EOF) ∧
      Refusal (.Expected .CloseParen .EOF) :=
  have h : parsePattern "(a|b" = .err (.Expected .CloseParen .EOF) := rfl
  ⟨h, parsePattern_refusal h⟩

/-! ## §3 — the tokens the lexer never returns

`handle_escape` turns `\d`, `\w`, `\s`, `\A`, `\z` and `\b` into their class tokens, so an
`Escape` token never carries one of those six letters: the class arms of `escape_to_node` are
dead, and the `Escape` arm of `parse_primary` always builds a literal. No arm of `next_token`
returns `Concat`, so `Unexpected token: Concat` is never reported. -/

/-- A token `next_token` can return: not `Concat`, and an `Escape` only of a letter that
`escape_to_node` reads as a literal. -/
def Lexable (tok : Token) : Prop :=
  tok ≠ .Concat ∧ ∀ c, tok = .Escape c → escapeToNode c = .Char c

theorem symbolToken_lexable (c : Char) : Lexable (symbolToken c) := by
  unfold symbolToken; split <;> exact ⟨(nomatch ·), fun _ h => nomatch h⟩

theorem escapeToken_lexable (c : Char) : Lexable (escapeToken c) := by
  unfold escapeToken
  split
  case h_7 =>
    refine ⟨(nomatch ·), fun _ h => ?_⟩
    cases h
    unfold escapeToNode
    split <;> simp_all
  all_goals exact ⟨(nomatch ·), fun _ h => nomatch h⟩

theorem lexChars_lexable (cs : List Char) :
    ∀ {toks : List Token}, lexChars cs = some toks → ∀ tok ∈ toks, Lexable tok := by
  induction cs using lexChars.induct with
  | case1 => rintro _ ⟨⟩ _ ⟨⟩
  | case2 c cs hc ih => rw [lexChars_skipped cs hc]; exact ih
  | case3 => rintro _ ⟨⟩ _ (_ | ⟨_, ⟨⟩⟩); exact ⟨(nomatch ·), fun _ h => nomatch h⟩
  | case4 e cs he _ ih =>
    intro _ h
    rw [lexChars_backslash, if_pos he, Option.map_eq_some'] at h
    obtain ⟨toks, h, rfl⟩ := h
    exact List.forall_mem_cons.2 ⟨escapeToken_lexable e, ih h⟩
  | case5 e cs he _ => intro _ h; rw [lexChars_backslash, if_neg he] at h; cases h
  | case6 c cs hc hb he ih =>
    intro _ h
    rw [lexChars_other cs hc hb, if_pos he, Option.map_eq_some'] at h
    obtain ⟨toks, h, rfl⟩ := h
    exact List.forall_mem_cons.2 ⟨symbolToken_lexable c, ih h⟩
  | case7 c cs hc hb he => intro _ h; rw [lexChars_other cs hc hb, if_neg he] at h; cases h

/-- **What the lexer never returns.** Lexing a pattern returns no `Concat` token, and no
`Escape` of a class letter: on every `Escape` token it returns, `escape_to_node` builds the
literal, so the six class arms of `escape_to_node` are never reached from a pattern. -/
theorem lexes_lexable {s : String} {toks : List Token} (h : Lexes (Lexer.new s) toks) :
    ∀ tok ∈ toks, tok ≠ .Concat ∧ ∀ c, tok = .Escape c → escapeToNode c = .Char c :=
  lexChars_lexable s.data ((lexes_iff_lexChars _ (Lexer.at_new s) toks).1 h)

/-- `lexes_lexable` on `\d\(`: the class escape is a `Digit` token, the other an `Escape`
that `escape_to_node` reads as the literal `(`. -/
theorem lexes_lexable_escapes :
    Lexes (Lexer.new "\\d\\(") [.Digit, .Escape '('] ∧
      ∀ tok ∈ [Token.Digit, .Escape '('],
        tok ≠ .Concat ∧ ∀ c, tok = .Escape c → escapeToNode c = .Char c :=
  have h : Lexes (Lexer.new "\\d\\(") [.Digit, .Escape '('] :=
    (lexes_iff_lexChars _ (Lexer.at_new _) _).2 rfl
  ⟨h, lexes_lexable h⟩

end Parser

end Simplegrep
