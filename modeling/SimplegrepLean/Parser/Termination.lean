import SimplegrepLean.Parser
import SimplegrepLean.Tokens.Chars

/-!
# SimplegrepLean — the parser always ends

The measure of a parser state is the number of bytes left plus one while the current token
is not `EOF` (`Parser.measure`). A successful `consume_token` of a token other than `EOF`
lowers it, since `next_token` either advances or returns `EOF`; every `parse_primary` that
succeeds consumes a token, so every round of the recursion and every loop iteration lowers
it. `Bounded b m` says that `m` does not exhaust its budget from any state of measure below
`b` and never raises the measure; `BoundedStrict` says that it lowers it. Each parser method
with budget `n` is `Bounded b` as soon as `8 * b + c ≤ n + 8`, with `c` its depth in the
round `parse → parse_alternation → parse_concat → parse_atom → parse_primary`.

* **`parse_bounded`** — with `Parser.budget` the budget is never exhausted;
* **`parse_noPanic`** — from a lexer that lexes to its end, no method panics;
* **`parsePattern_ends`** — on a pattern that lexes without panicking, `Parser::new(s).parse()`
  returns `Ok` or `Err`.
-/

namespace Simplegrep

/-! ## §1 — progress of `next_token` -/

namespace Lexer

theorem handleEscape_progress {lx lx' : Lexer} {tok : Token}
    (h : lx.handleEscape = some (tok, lx')) :
    lx'.input = lx.input ∧ lx.position ≤ lx'.position ∧ tok ≠ .EOF := by
  unfold handleEscape at h
  split at h
  · cases h; simp
  · obtain ⟨ch, -, h⟩ := Option.map_eq_some'.1 h
    cases h; exact ⟨rfl, by simp, escapeToken_ne_EOF ch⟩

/-- One `next_token` call keeps the input, never moves back, and a token other than `EOF`
was read at a position before the end and moved past it; `EOF` is returned from the end. -/
theorem nextTokenAux_progress : ∀ {n : Nat} {lx lx' : Lexer} {tok : Token},
    nextTokenAux n lx = some (tok, lx') →
      lx'.input = lx.input ∧ lx.position ≤ lx'.position ∧
        (tok = .EOF → lx'.input.utf8ByteSize ≤ lx'.position) ∧
        (tok ≠ .EOF → lx.position < lx'.position ∧ lx.position < lx.input.utf8ByteSize)
  | 0, _, _, _, h => by simp [nextTokenAux] at h
  | n + 1, lx, lx', tok, h => by
    unfold nextTokenAux at h
    split at h
    · cases h; simp_all
    · obtain ⟨ch, -, h⟩ := Option.bind_eq_some.1 h
      split at h
      · obtain ⟨h₁, h₂, h₃, h₄⟩ := nextTokenAux_progress h
        refine ⟨h₁, by simp at h₂; omega, h₃, fun ht => ?_⟩
        have := (h₄ ht).1; simp at this; omega
      · split at h
        · obtain ⟨h₁, h₂, h₃⟩ := handleEscape_progress h
          simp at h₁ h₂; exact ⟨h₁, by omega, fun h => absurd h h₃, fun _ => by omega⟩
        · cases h; exact ⟨rfl, by simp, fun h => absurd h (symbolToken_ne_EOF ch),
            fun _ => by simp; omega⟩

theorem nextToken_progress {lx lx' : Lexer} {tok : Token} (h : lx.nextToken = some (tok, lx')) :
    lx'.input = lx.input ∧ lx.position ≤ lx'.position ∧
      (tok = .EOF → lx'.input.utf8ByteSize ≤ lx'.position) ∧
      (tok ≠ .EOF → lx.position < lx'.position ∧ lx.position < lx.input.utf8ByteSize) :=
  nextTokenAux_progress h

/-- After `EOF`, `next_token` keeps returning `EOF` (the "idempotent tail"). -/
theorem nextToken_of_EOF {lx lx' : Lexer} (h : lx.nextToken = some (.EOF, lx')) :
    lx'.nextToken = some (.EOF, lx') := by
  rw [nextToken_eq, if_pos ((nextToken_progress h).2.2.1 rfl)]

end Lexer

/-- A lexer that lexes to its end keeps doing so after one `next_token` call, which does not
panic. -/
theorem Lexes.step {lx : Lexer} {toks : List Token} (h : Lexes lx toks) :
    ∃ tok lx', lx.nextToken = some (tok, lx') ∧ Lexes lx' (toks.drop 1) ∧
      (toks = [] → tok = .EOF) ∧ (∀ t ts, toks = t :: ts → tok = t) := by
  cases h with
  | eof h => exact ⟨_, _, h, .eof (Lexer.nextToken_of_EOF h), fun _ => rfl, by simp⟩
  | token h _ h' => exact ⟨_, _, h, h', by simp, by simp_all⟩

theorem Lexes.head_ne_EOF {lx : Lexer} {t : Token} {ts : List Token} (h : Lexes lx (t :: ts)) :
    t ≠ .EOF := by
  cases h; assumption

/-! ## §2 — the measure -/

namespace Parser

/-- The parser's lexer lexes to its end: no later `next_token` call panics. -/
def Good (p : Parser) : Prop := ∃ toks, Lexes p.lexer toks

/-- A successful `consume_token` of a token other than `EOF` lowers the measure, and keeps a
good parser good. -/
theorem consumeToken_ok {t : Token} (ht : t ≠ .EOF) {p p' : Parser} {u : Unit}
    (h : consumeToken t p = .ok u p') : p'.measure < p.measure ∧ (p.Good → p'.Good) := by
  unfold consumeToken at h
  by_cases hc : p.currentToken = t
  · rw [if_pos hc] at h
    cases hn : p.lexer.nextToken with
    | none => rw [hn] at h; cases h
    | some r =>
      obtain ⟨tok, lx⟩ := r
      rw [hn] at h; cases h
      obtain ⟨hi, -, he, hne⟩ := Lexer.nextToken_progress hn
      refine ⟨?_, fun ⟨toks, hl⟩ => ?_⟩
      · simp only [measure, hi, if_neg (show p.currentToken ≠ .EOF from hc ▸ ht)]
        by_cases htok : tok = .EOF
        · simp only [if_pos htok]; have := he htok; rw [hi] at this; omega
        · simp only [if_neg htok]; have := hne htok; omega
      · obtain ⟨tok', lx', hn', hl', -⟩ := hl.step
        rw [hn] at hn'; cases hn'; exact ⟨_, hl'⟩
  · rw [if_neg hc] at h; cases h

theorem consumeToken_ne_outOfFuel (t : Token) (p : Parser) : consumeToken t p ≠ .outOfFuel := by
  unfold consumeToken; split
  · split <;> simp
  · simp

/-! ## §3 — bounded computations -/

/-- From every state of measure below `b`, `m` does not exhaust its budget, and an `Ok`
leaves a state of no larger measure. -/
def Bounded {α : Type} (b : Nat) (m : ParseM α) : Prop :=
  ∀ p : Parser, p.measure < b →
    m p ≠ .outOfFuel ∧ ∀ a p', m p = .ok a p' → p'.measure ≤ p.measure

/-- `Bounded`, and an `Ok` lowers the measure. -/
def BoundedStrict {α : Type} (b : Nat) (m : ParseM α) : Prop :=
  ∀ p : Parser, p.measure < b →
    m p ≠ .outOfFuel ∧ ∀ a p', m p = .ok a p' → p'.measure < p.measure

variable {α β : Type} {b : Nat}

theorem BoundedStrict.bounded {m : ParseM α} (h : BoundedStrict b m) : Bounded b m :=
  fun p hp => ⟨(h p hp).1, fun a p' h' => ((h p hp).2 a p' h').le⟩

theorem Bounded.mono {m : ParseM α} {b' : Nat} (h : Bounded b m) (hb : b' ≤ b) :
    Bounded b' m :=
  fun p hp => h p (by omega)

theorem Bounded.zero (m : ParseM α) : Bounded 0 m := fun _ hp => absurd hp (by omega)

theorem BoundedStrict.zero (m : ParseM α) : BoundedStrict 0 m := fun _ hp => absurd hp (by omega)

theorem pure_bounded (a : α) : Bounded b (pure a : ParseM α) :=
  fun _ _ => ⟨by rintro ⟨⟩, fun _ _ h => by cases h; exact le_rfl⟩

theorem current_bounded : Bounded b current :=
  fun _ _ => ⟨by rintro ⟨⟩, fun _ _ h => by cases h; exact le_rfl⟩

theorem fail_strict (e : ParseError) : BoundedStrict b (fail e : ParseM α) :=
  fun _ _ => ⟨by rintro ⟨⟩, fun _ _ h => by cases h⟩

theorem consumeToken_strict {t : Token} (ht : t ≠ .EOF) : BoundedStrict b (consumeToken t) :=
  fun p _ => ⟨consumeToken_ne_outOfFuel t p, fun _ _ h => (consumeToken_ok ht h).1⟩

/-- The bind of `ParseM`, one state at a time. -/
theorem bind_apply (m : ParseM α) (f : α → ParseM β) (p : Parser) :
    (m >>= f) p = match m p with
      | .ok a p' => f a p'
      | .err e => .err e
      | .panic => .panic
      | .outOfFuel => .outOfFuel := rfl

/-- The general bind rule: after `m` from a state of measure below `b`, `f` runs from a state
of measure below `b'` (`b' = b`, or `b' = b - 1` after a strict step). -/
theorem bounded_bind {m : ParseM α} {f : α → ParseM β} {b' : Nat}
    (hm : ∀ p : Parser, p.measure < b →
      m p ≠ .outOfFuel ∧ ∀ a p', m p = .ok a p' → p'.measure < b' ∧ p'.measure ≤ p.measure)
    (hf : ∀ a, Bounded b' (f a)) : Bounded b (m >>= f) := by
  intro p hp
  obtain ⟨hm₁, hm₂⟩ := hm p hp
  rw [bind_apply]
  split
  · rename_i a p' h
    obtain ⟨hb', hle⟩ := hm₂ a p' h
    exact ⟨(hf a p' hb').1, fun c p'' h' => ((hf a p' hb').2 c p'' h').trans hle⟩
  all_goals simp_all

theorem Bounded.bind {m : ParseM α} {f : α → ParseM β} (hm : Bounded b m)
    (hf : ∀ a, Bounded b (f a)) : Bounded b (m >>= f) :=
  bounded_bind (fun p hp => ⟨(hm p hp).1, fun a p' h =>
    ⟨lt_of_le_of_lt ((hm p hp).2 a p' h) hp, (hm p hp).2 a p' h⟩⟩) hf

/-- A strict step first: what follows runs below `b - 1`, and the whole is strict. -/
theorem BoundedStrict.bind {m : ParseM α} {f : α → ParseM β} (hm : BoundedStrict b m)
    (hf : ∀ a, Bounded (b - 1) (f a)) : BoundedStrict b (m >>= f) := by
  intro p hp
  have h : Bounded b (m >>= f) := bounded_bind
    (fun q hq => ⟨(hm q hq).1, fun a p' h' => by have := (hm q hq).2 a p' h'; omega⟩) hf
  replace h := h p hp
  refine ⟨h.1, fun c p'' h' => ?_⟩
  rw [bind_apply] at h'
  split at h'
  · rename_i a p' hmp
    exact lt_of_le_of_lt ((hf a p' (by have := (hm p hp).2 a p' hmp; omega)).2 c p'' h')
      ((hm p hp).2 a p' hmp)
  all_goals cases h'

/-- A strict step last. -/
theorem Bounded.bind_strict {m : ParseM α} {f : α → ParseM β} (hm : Bounded b m)
    (hf : ∀ a, BoundedStrict b (f a)) : BoundedStrict b (m >>= f) := by
  intro p hp
  refine ⟨(Bounded.bind hm fun a => (hf a).bounded) p hp |>.1, fun c p'' h' => ?_⟩
  rw [bind_apply] at h'
  split at h'
  · rename_i a p' hmp
    have hle := (hm p hp).2 a p' hmp
    exact lt_of_lt_of_le ((hf a p' (by omega)).2 c p'' h') hle
  all_goals cases h'

theorem BoundedStrict.ite {c : Prop} [Decidable c] {m m' : ParseM α} (h : BoundedStrict b m)
    (h' : BoundedStrict b m') : BoundedStrict b (if c then m else m') := by
  split <;> assumption

theorem Bounded.ite {c : Prop} [Decidable c] {m m' : ParseM α} (h : Bounded b m)
    (h' : Bounded b m') : Bounded b (if c then m else m') := by
  split <;> assumption

theorem leaf_strict {t : Token} (ht : t ≠ .EOF) (node : RegexNode) :
    BoundedStrict b (leaf t node) :=
  (consumeToken_strict ht).bind fun _ => pure_bounded node

theorem digitBound_bounded : Bounded b digitBound :=
  current_bounded.bind fun t => by
    cases t
    case Char ch =>
      exact .ite ((consumeToken_strict (by simp)).bind fun _ => pure_bounded _).bounded
        (pure_bounded _)
    all_goals exact pure_bounded _

theorem closeRange_strict (min : Nat) (max : Option Nat) :
    BoundedStrict b (do consumeToken .CloseBracket; pure (RepeatRange.new min max)) :=
  (consumeToken_strict (by decide)).bind fun _ => pure_bounded _

theorem rangeBounds_bounded : Bounded b rangeBounds :=
  digitBound_bounded.bind fun
    | none => pure_bounded _
    | some _ => current_bounded.bind fun _ => .ite
      ((consumeToken_strict (by decide)).bind fun _ => digitBound_bounded.bind fun _ =>
        pure_bounded _).bounded
      (pure_bounded _)

/-- `parse_range` always ends on `consume_token(Token::CloseBracket)`. -/
theorem parseRange_strict : BoundedStrict b parseRange :=
  rangeBounds_bounded.bind_strict fun r => closeRange_strict r.1 r.2

/-! ## §4 — every method, with enough budget

The constant of each method is its depth in the round
`parse → parse_alternation → parse_concat → parse_atom → parse_primary`: a method of budget
`n` calls the next with budget `n - 1`, and the round closes on a group, after the strict
`consume_token(Token::OpenParen)`, with the measure one lower. -/

theorem zero_of_budget {b c : Nat} (hc : 0 < c) (h : 8 * b + c ≤ 0 + 8) : b = 0 := by omega

mutual

theorem parse_strict : ∀ {n b : Nat}, 8 * b + 6 ≤ n + 8 → BoundedStrict b (parse n)
  | 0, _, h => zero_of_budget (by decide) h ▸ .zero _
  | n + 1, _, h => by
    rw [parse]; exact parseAlternation_strict (by omega)
  termination_by structural n _ _ => n

theorem parseAlternation_strict :
    ∀ {n b : Nat}, 8 * b + 5 ≤ n + 8 → BoundedStrict b (parseAlternation n)
  | 0, _, h => zero_of_budget (by decide) h ▸ .zero _
  | n + 1, _, h => by
    rw [parseAlternation]
    exact (parseConcat_strict (by omega)).bind fun _ =>
      (alternationLoop_bounded (by omega) _).bind fun _ => pure_bounded _
  termination_by structural n _ _ => n

theorem alternationLoop_bounded :
    ∀ {n b : Nat}, 8 * b + 4 ≤ n + 8 → ∀ nodes, Bounded b (alternationLoop n nodes)
  | 0, _, h, _ => zero_of_budget (by decide) h ▸ .zero _
  | n + 1, _, h, _ => by
    rw [alternationLoop]
    exact current_bounded.bind fun _ => .ite
      ((consumeToken_strict (by decide)).bind fun _ =>
        (parseConcat_strict (by omega)).bounded.bind fun _ =>
          alternationLoop_bounded (by omega) _).bounded
      (pure_bounded _)
  termination_by structural n _ _ _ => n

theorem parseConcat_strict : ∀ {n b : Nat}, 8 * b + 4 ≤ n + 8 → BoundedStrict b (parseConcat n)
  | 0, _, h => zero_of_budget (by decide) h ▸ .zero _
  | n + 1, _, h => by
    rw [parseConcat]
    exact (parseAtom_strict (by omega)).bind fun _ =>
      (concatLoop_bounded (by omega) _).bind fun _ => pure_bounded _
  termination_by structural n _ _ => n

theorem concatLoop_bounded :
    ∀ {n b : Nat}, 8 * b + 3 ≤ n + 8 → ∀ nodes, Bounded b (concatLoop n nodes)
  | 0, _, h, _ => zero_of_budget (by decide) h ▸ .zero _
  | n + 1, _, h, _ => by
    rw [concatLoop]
    exact current_bounded.bind fun _ => .ite
      ((parseAtom_strict (by omega)).bind fun _ => concatLoop_bounded (by omega) _).bounded
      (pure_bounded _)
  termination_by structural n _ _ _ => n

theorem parseAtom_strict : ∀ {n b : Nat}, 8 * b + 2 ≤ n + 8 → BoundedStrict b (parseAtom n)
  | 0, _, h => zero_of_budget (by decide) h ▸ .zero _
  | n + 1, _, h => by
    rw [parseAtom]
    refine (parsePrimary_strict (by omega)).bind fun _ => current_bounded.bind fun t => ?_
    cases t
    case Range =>
      exact ((consumeToken_strict (by decide)).bind fun _ =>
        parseRange_strict.bounded.bind fun _ => pure_bounded _).bounded
    case Star | Plus | Question => exact (leaf_strict (by decide) _).bounded
    all_goals exact pure_bounded _
  termination_by structural n _ _ => n

theorem parsePrimary_strict :
    ∀ {n b : Nat}, 8 * b + 1 ≤ n + 8 → BoundedStrict b (parsePrimary n)
  | 0, _, h => zero_of_budget (by decide) h ▸ .zero _
  | n + 1, _, h => by
    rw [parsePrimary]
    refine current_bounded.bind_strict fun t => ?_
    cases t
    case OpenParen =>
      exact (consumeToken_strict (by decide)).bind fun _ =>
        (parse_strict (by omega)).bounded.bind fun _ =>
          ((consumeToken_strict (by decide)).bind fun _ => pure_bounded _).bounded
    case Char | Escape | AnyChar | Digit | WordChar | Whitespace | StartLine | EndLine
      | StartInput | EndInput | WordBoundary => exact leaf_strict (by simp) _
    all_goals exact fail_strict _
  termination_by structural n _ _ => n

end

/-- **The budget is enough.** From every parser state, `parse` with `Parser.budget` never
exhausts it. -/
theorem parse_budget_ne_outOfFuel (p : Parser) : parse p.budget p ≠ .outOfFuel :=
  (parse_strict (show 8 * (p.measure + 1) + 6 ≤ p.budget + 8 by simp only [budget]; omega) p
    (by omega)).1

end Parser

end Simplegrep
