import SimplegrepLean.Parser.Termination
import SimplegrepLean.Tokens.Chars

/-!
# SimplegrepLean — what the parser's answer depends on

Every parser method reads its state only through `self.current_token` and
`consume_token`. So two runs agree when they start from states with the same current token
and lexers that lex the same tokens to their end (`Parser.SameTokens`): the left answer, unless
its budget ran out, is the right one, and neither panics (`Parser.Agree`). Every step keeps
the relation, with any larger budget on the right (`parse_agree`).

* `parse_budget_enough` — a lemma on the model's recursion budget: any budget past
  `Parser.budget` gives the same answer;
* **`parsePattern_ends`** — on a pattern that lexes without panicking,
  `Parser::new(s).parse()` returns `Ok` or `Err`;
* **`parsePattern_padded`** — blanks inserted at token starts change neither the tokens nor
  the answer of `Parser::new(s).parse()`.
-/

namespace Simplegrep

/-- Two lexers that lex the same tokens return the same next token, and lex the same tokens
after it. -/
theorem Lexes.step_both {lx lx' : Lexer} {toks : List Token} (h : Lexes lx toks)
    (h' : Lexes lx' toks) :
    ∃ tok l l', lx.nextToken = some (tok, l) ∧ lx'.nextToken = some (tok, l') ∧
      Lexes l (toks.drop 1) ∧ Lexes l' (toks.drop 1) := by
  obtain ⟨tok, l, hn, hl, h₁, h₂⟩ := h.step
  obtain ⟨tok', l', hn', hl', h₁', h₂'⟩ := h'.step
  obtain rfl : tok = tok' := by
    cases toks with
    | nil => rw [h₁ rfl, h₁' rfl]
    | cons t ts => rw [h₂ t ts rfl, h₂' t ts rfl]
  exact ⟨tok, l, l', hn, hn', hl, hl'⟩

namespace Parser

/-- Same current token, and lexers that lex the same tokens to their end. -/
def SameTokens (p q : Parser) : Prop :=
  p.currentToken = q.currentToken ∧ ∃ toks, Lexes p.lexer toks ∧ Lexes q.lexer toks

theorem SameTokens.symm {p q : Parser} (h : SameTokens p q) : SameTokens q p :=
  ⟨h.1.symm, h.2.imp fun _ h => ⟨h.2, h.1⟩⟩

theorem SameTokens.of_good {p : Parser} (h : p.Good) : SameTokens p p :=
  let ⟨toks, hl⟩ := h
  ⟨rfl, toks, hl, hl⟩

/-- The left outcome, unless its budget ran out, is the right one; a panic agrees with
nothing. -/
def Agree {α : Type} : Outcome α → Outcome α → Prop
  | .ok a p, o => ∃ q, o = .ok a q ∧ SameTokens p q
  | .err e, o => o = .err e
  | .panic, _ => False
  | .outOfFuel, _ => True

/-- From states with the same tokens, `m` and `m'` agree. -/
def Sim {α : Type} (m m' : ParseM α) : Prop :=
  ∀ p q, SameTokens p q → Agree (m p) (m' q)

variable {α β : Type}

theorem Agree.ne_panic {x y : Outcome α} (h : Agree x y) : x ≠ .panic := by
  rintro rfl; exact h

theorem Agree.result_eq {x y : Outcome α} (h : Agree x y) (hx : x ≠ .outOfFuel) :
    x.result = y.result := by
  cases x with
  | ok a p => obtain ⟨q, rfl, -⟩ := h; rfl
  | err e => rw [show y = .err e from h]
  | panic => exact h.elim
  | outOfFuel => exact absurd rfl hx

/-! ## §1 — the steps keep the relation -/

theorem Sim.exhausted (m : ParseM α) : Sim exhausted m := fun _ _ _ => trivial

theorem Sim.pure (a : α) : Sim (pure a : ParseM α) (pure a) := fun _ q h => ⟨q, rfl, h⟩

theorem Sim.current : Sim current current := fun _ q h => ⟨q, by rw [h.1]; rfl, h⟩

theorem Sim.fail (e : ParseError) : Sim (fail e : ParseM α) (fail e) := fun _ _ _ => rfl

/-- `consume_token` on the same tokens: the same test, then the same next token. -/
theorem Sim.consumeToken (t : Token) : Sim (consumeToken t) (consumeToken t) := by
  rintro p q ⟨hc, toks, hp, hq⟩
  obtain ⟨tok, l, l', hn, hn', hl, hl'⟩ := hp.step_both hq
  unfold Parser.consumeToken
  rw [hc, hn, hn']
  split
  · exact ⟨_, rfl, rfl, _, hl, hl'⟩
  · rfl

theorem Sim.bind {m m' : ParseM α} {f f' : α → ParseM β} (hm : Sim m m')
    (hf : ∀ a, Sim (f a) (f' a)) : Sim (m >>= f) (m' >>= f') := by
  intro p q h
  rw [bind_apply, bind_apply]
  have hpq := hm p q h
  generalize m p = x at hpq ⊢
  generalize m' q = y at hpq ⊢
  cases x with
  | ok a p' => obtain ⟨q', rfl, h'⟩ := hpq; exact hf a p' q' h'
  | err e => subst hpq; rfl
  | panic => exact hpq.elim
  | outOfFuel => trivial

theorem Sim.ite {c : Prop} [Decidable c] {m₁ m₁' m₂ m₂' : ParseM α} (h₁ : Sim m₁ m₁')
    (h₂ : Sim m₂ m₂') : Sim (if c then m₁ else m₂) (if c then m₁' else m₂') := by
  split <;> assumption

theorem Sim.leaf (t : Token) (node : RegexNode) : Sim (leaf t node) (leaf t node) :=
  (Sim.consumeToken t).bind fun _ => .pure node

theorem digitBound_sim : Sim digitBound digitBound :=
  Sim.current.bind fun t => by
    cases t
    case Char ch => exact .ite ((Sim.consumeToken _).bind fun _ => .pure _) (.pure _)
    all_goals exact .pure _

theorem rangeBounds_sim : Sim rangeBounds rangeBounds :=
  digitBound_sim.bind fun
    | none => .pure _
    | some _ => Sim.current.bind fun _ => .ite
      ((Sim.consumeToken _).bind fun _ => digitBound_sim.bind fun _ => .pure _) (.pure _)

theorem parseRange_sim : Sim parseRange parseRange :=
  rangeBounds_sim.bind fun _ => (Sim.consumeToken _).bind fun _ => .pure _

/-! ## §2 — every method, with a budget at least as large on the right -/

mutual

theorem parse_agree : ∀ {n m : Nat}, n ≤ m → Sim (parse n) (parse m)
  | 0, _, _ => .exhausted _
  | _ + 1, 0, h => absurd h (by omega)
  | _ + 1, _ + 1, h => by
    rw [parse, parse]; exact parseAlternation_agree (by omega)
  termination_by structural n _ _ => n

theorem parseAlternation_agree : ∀ {n m : Nat}, n ≤ m →
    Sim (parseAlternation n) (parseAlternation m)
  | 0, _, _ => .exhausted _
  | _ + 1, 0, h => absurd h (by omega)
  | _ + 1, _ + 1, h => by
    rw [parseAlternation, parseAlternation]
    exact (parseConcat_agree (by omega)).bind fun _ =>
      (alternationLoop_agree (by omega) _).bind fun _ => .pure _
  termination_by structural n _ _ => n

theorem alternationLoop_agree : ∀ {n m : Nat}, n ≤ m → ∀ nodes,
    Sim (alternationLoop n nodes) (alternationLoop m nodes)
  | 0, _, _, _ => .exhausted _
  | _ + 1, 0, h, _ => absurd h (by omega)
  | _ + 1, _ + 1, h, _ => by
    rw [alternationLoop, alternationLoop]
    exact Sim.current.bind fun _ => .ite
      ((Sim.consumeToken _).bind fun _ => (parseConcat_agree (by omega)).bind fun _ =>
        alternationLoop_agree (by omega) _)
      (.pure _)
  termination_by structural n _ _ _ => n

theorem parseConcat_agree : ∀ {n m : Nat}, n ≤ m → Sim (parseConcat n) (parseConcat m)
  | 0, _, _ => .exhausted _
  | _ + 1, 0, h => absurd h (by omega)
  | _ + 1, _ + 1, h => by
    rw [parseConcat, parseConcat]
    exact (parseAtom_agree (by omega)).bind fun _ =>
      (concatLoop_agree (by omega) _).bind fun _ => .pure _
  termination_by structural n _ _ => n

theorem concatLoop_agree : ∀ {n m : Nat}, n ≤ m → ∀ nodes,
    Sim (concatLoop n nodes) (concatLoop m nodes)
  | 0, _, _, _ => .exhausted _
  | _ + 1, 0, h, _ => absurd h (by omega)
  | _ + 1, _ + 1, h, _ => by
    rw [concatLoop, concatLoop]
    exact Sim.current.bind fun _ => .ite
      ((parseAtom_agree (by omega)).bind fun _ => concatLoop_agree (by omega) _) (.pure _)
  termination_by structural n _ _ _ => n

theorem parseAtom_agree : ∀ {n m : Nat}, n ≤ m → Sim (parseAtom n) (parseAtom m)
  | 0, _, _ => .exhausted _
  | _ + 1, 0, h => absurd h (by omega)
  | _ + 1, _ + 1, h => by
    rw [parseAtom, parseAtom]
    refine (parsePrimary_agree (by omega)).bind fun _ => Sim.current.bind fun t => ?_
    cases t
    case Range =>
      exact (Sim.consumeToken _).bind fun _ => parseRange_sim.bind fun _ => .pure _
    case Star | Plus | Question => exact .leaf _ _
    all_goals exact .pure _
  termination_by structural n _ _ => n

theorem parsePrimary_agree : ∀ {n m : Nat}, n ≤ m → Sim (parsePrimary n) (parsePrimary m)
  | 0, _, _ => .exhausted _
  | _ + 1, 0, h => absurd h (by omega)
  | _ + 1, _ + 1, h => by
    rw [parsePrimary, parsePrimary]
    refine Sim.current.bind fun t => ?_
    cases t
    case OpenParen =>
      exact (Sim.consumeToken _).bind fun _ => (parse_agree (by omega)).bind fun _ =>
        (Sim.consumeToken _).bind fun _ => .pure _
    case Char | Escape | AnyChar | Digit | WordChar | Whitespace | StartLine | EndLine
      | StartInput | EndInput | WordBoundary => exact .leaf _ _
    all_goals exact .fail _
  termination_by structural n _ _ => n

end

/-! ## §3 — what follows -/

/-- The model's recursion budget, which `parser.rs` does not have, is enough at
`Parser.budget`: from a parser whose lexer lexes to its end, any larger budget returns the
same `Ok` or `Err`. So `parsePattern` may run `parse` at `Parser.budget`. -/
theorem parse_budget_enough {p : Parser} (hp : p.Good) {n : Nat} (hn : p.budget ≤ n) :
    (parse n p).result = (parse p.budget p).result :=
  ((parse_agree hn p p (.of_good hp)).result_eq (parse_budget_ne_outOfFuel p)).symm

/-- `Parser::new` on two patterns that lex the same tokens: no panic, and the same tokens. -/
theorem new_sameTokens {s s' : String} {toks : List Token} (h : Lexes (Lexer.new s) toks)
    (h' : Lexes (Lexer.new s') toks) :
    ∃ p q, Parser.new s = some p ∧ Parser.new s' = some q ∧ SameTokens p q := by
  obtain ⟨tok, l, l', hn, hn', hl, hl'⟩ := h.step_both h'
  exact ⟨⟨l, tok⟩, ⟨l', tok⟩, by rw [Parser.new, hn]; rfl, by rw [Parser.new, hn']; rfl, rfl, _, hl,
    hl'⟩

/-- Two patterns that lex the same tokens to their end get the same answer from
`Parser::new(s).parse()`. -/
theorem parsePattern_result_eq {s s' : String} {toks : List Token}
    (h : Lexes (Lexer.new s) toks) (h' : Lexes (Lexer.new s') toks) :
    (parsePattern s).result = (parsePattern s').result := by
  obtain ⟨p, q, hp, hq, hpq⟩ := new_sameTokens h h'
  simp only [parsePattern, hp, hq]
  rcases le_total p.budget q.budget with hb | hb
  · exact (parse_agree hb p q hpq).result_eq (parse_budget_ne_outOfFuel p)
  · exact ((parse_agree hb q p hpq.symm).result_eq (parse_budget_ne_outOfFuel q)).symm

end Parser

/-- **The parser always ends.** On every pattern that lexes to its end without panicking,
`Parser::new(s).parse()` returns `Ok` or `Err`: the budget is enough, and no
`next_token` call panics. -/
theorem parsePattern_ends {s : String} (h : LexesOk s) :
    (∃ t p, parsePattern s = .ok t p) ∨ ∃ e, parsePattern s = .err e := by
  obtain ⟨toks, hl⟩ := h
  obtain ⟨p, q, hp, hq, hpq⟩ := Parser.new_sameTokens hl hl
  obtain rfl : p = q := Option.some.inj (hp.symm.trans hq)
  have hpanic := (Parser.parse_agree (le_refl p.budget) p p hpq).ne_panic
  have hfuel := Parser.parse_budget_ne_outOfFuel p
  simp only [parsePattern, hp]
  rcases h : Parser.parse p.budget p with ⟨t, p'⟩ | e | _ | _
  exacts [.inl ⟨t, p', rfl⟩, .inr ⟨e, rfl⟩, absurd h hpanic, absurd h hfuel]

/-- `parsePattern_ends` on `"(a|b)*"`. -/
theorem parsePattern_ends_star_group :
    LexesOk "(a|b)*" ∧
      ((∃ t p, parsePattern "(a|b)*" = .ok t p) ∨ ∃ e, parsePattern "(a|b)*" = .err e) :=
  have h : LexesOk "(a|b)*" := ⟨_, (lexes_iff_lexChars _ (Lexer.at_new _) _).2 rfl⟩
  ⟨h, parsePattern_ends h⟩

/-- **Blanks do not change the answer.** If lexing `s` does not panic and `s'` is `s` with
blanks inserted at token starts, lexing `s'` returns the same tokens up to `EOF`, and
`Parser::new(s').parse()` returns what `Parser::new(s).parse()` returns. -/
theorem parsePattern_padded {s s' : String} (h : LexesOk s) (hpad : Padded false s.data s'.data) :
    (∀ toks, Lexes (Lexer.new s') toks ↔ Lexes (Lexer.new s) toks) ∧
      (parsePattern s').result = (parsePattern s).result := by
  obtain ⟨toks, hl⟩ := h
  exact ⟨lexes_padded hpad, Parser.parsePattern_result_eq ((lexes_padded hpad toks).2 hl) hl⟩

/-- `parsePattern_padded` on `"\\d+"` padded to `" \\d +"`: a blank before the escape and one
before the quantifier, none inside the escape. -/
theorem parsePattern_padded_escape :
    LexesOk "\\d+" ∧ Padded false "\\d+".data " \\d +".data ∧
      ((∀ toks, Lexes (Lexer.new " \\d +") toks ↔ Lexes (Lexer.new "\\d+") toks) ∧
        (parsePattern " \\d +").result = (parsePattern "\\d+").result) :=
  have h : LexesOk "\\d+" := ⟨_, (lexes_iff_lexChars _ (Lexer.at_new _) _).2 rfl⟩
  have hpad : Padded false "\\d+".data " \\d +".data :=
    .blank (.inl rfl) (.char (.char (.blank (.inl rfl) (.char (.nil _)))))
  ⟨h, hpad, parsePattern_padded h hpad⟩

end Simplegrep
