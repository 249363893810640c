import SimplegrepLean.Parser.Simulation

/-!
# SimplegrepLean — the grammar the parser decides

The parser builds trees of four levels: a primary (a one-token class or anchor, or a group),
an atom (a primary and at most one quantifier), a concatenation of two atoms or more, and an
alternation of two concatenations or more; a level that has one child returns the child
itself. `grammatical` says which trees these are, and `toTokens` spells such a tree in
tokens: a range is `{`, the minimum, `,`, the maximum if there is one, and the `]` that
`parse_range` closes it with.

The round trip is proved level by level (`Reads`): each method reads back the trees of its
level, from the tokens that spell them and whatever follows, as long as the token after them
stops its loop; the conclusion allows an exhausted budget, which `Parser.budget` rules out.

* **`parsePattern_toTokens`** — a pattern whose tokens spell a grammatical tree parses to that
  tree, and the parser ends on `EOF`;
* **`parse_rejects_closing_brace`** — `{d}` as the specification writes it does not parse, and
  `{d]` gives `{min: d, max: None}`;
* **`parse_sound`** — every tree `parse` returns is grammatical, and `parse` stops only on a
  `)` or on `EOF`;
* **`parse_accepts_unmatched_paren`** — the `)` case at the top: `"a)"` parses to
  `Char('a')`.
-/

namespace Simplegrep

namespace Parser

/-- The level a tree's top constructor is built at: `0` a primary, `1` an atom with a
quantifier, `2` a concatenation, `3` an alternation. -/
def rank : RegexNode → Nat
  | .Alternation _ => 3
  | .Concat _ => 2
  | .Star _ | .Plus _ | .Question _ | .Repeat _ _ => 1
  | _ => 0

mutual

/-- The trees `parse` can return: a quantifier's child is a primary, a range's bounds are
digits, and `Concat` and `Alternation` have two children or more, of the level below. -/
def grammatical : RegexNode → Bool
  | .Concat nodes => 2 ≤ nodes.length && nodes.all (rank · ≤ 1) && allGrammatical nodes
  | .Alternation nodes => 2 ≤ nodes.length && nodes.all (rank · ≤ 2) && allGrammatical nodes
  | .Star node | .Plus node | .Question node => rank node == 0 && grammatical node
  | .Repeat node ⟨min, max⟩ =>
    rank node == 0 && min < 10 && max.all (· < 10) && grammatical node
  | .Group node => grammatical node
  | _ => true

/-- `grammatical` of every tree of a list. -/
def allGrammatical : List RegexNode → Bool
  | [] => true
  | node :: nodes => grammatical node && allGrammatical nodes

end

/-- The character of the digit `d`. -/
def digitChar (d : Nat) : Char := Char.ofNat ('0'.toNat + d)

/-- A range after its `{`: the minimum, `,`, the maximum if any, and `]`. -/
def rangeTokens : RepeatRange → List Token
  | ⟨min, none⟩ => [.Char (digitChar min), .Char ',', .CloseBracket]
  | ⟨min, some max⟩ => [.Char (digitChar min), .Char ',', .Char (digitChar max), .CloseBracket]

/-- The characters the lexer reads as themselves: not a symbol, a blank or a backslash. -/
def plainChar (c : Char) : Bool := symbolToken c == .Char c && !decide (Skipped c) && c != '\\'

/-- The token of a literal `c`: `Char(c)`, or `Escape(c)` for a character that is not
plain. -/
def charToken (c : Char) : Token := if plainChar c then .Char c else .Escape c

mutual

/-- The tokens that spell a tree. -/
def toTokens : RegexNode → List Token
  | .Char c => [charToken c]
  | .AnyChar => [.AnyChar]
  | .Digit => [.Digit]
  | .WordChar => [.WordChar]
  | .Whitespace => [.Whitespace]
  | .Concat nodes => concatTokens nodes
  | .Alternation [] => []
  | .Alternation (node :: nodes) => toTokens node ++ alternativesTokens nodes
  | .Star node => toTokens node ++ [.Star]
  | .Plus node => toTokens node ++ [.Plus]
  | .Question node => toTokens node ++ [.Question]
  | .Repeat node range => toTokens node ++ .Range :: rangeTokens range
  | .Group node => .OpenParen :: (toTokens node ++ [.CloseParen])
  | .StartLine => [.StartLine]
  | .EndLine => [.EndLine]
  | .StartInput => [.StartInput]
  | .EndInput => [.EndInput]
  | .WordBoundary => [.WordBoundary]

/-- The atoms of a concatenation, one after the other. -/
def concatTokens : List RegexNode → List Token
  | [] => []
  | node :: nodes => toTokens node ++ concatTokens nodes

/-- The branches of an alternation after the first, each after a `|`. -/
def alternativesTokens : List RegexNode → List Token
  | [] => []
  | node :: nodes => .Alternation :: (toTokens node ++ alternativesTokens nodes)

end

example : toTokens (.Alternation [.Concat [.Char 'a', .Star .AnyChar], .Group (.Char '*')]) =
    [.Char 'a', .AnyChar, .Star, .Alternation, .OpenParen, .Escape '*', .CloseParen] := by
  decide

example :
    grammatical (.Alternation [.Concat [.Char 'a', .Star .AnyChar], .Group .Digit]) = true := by
  decide

/-! ## §2 — the tokens left, and what a method returns from them -/

/-- The tokens left to parse from `p` are `ts`: its current token, then those its lexer
returns up to `EOF`. -/
def Rest (p : Parser) : List Token → Prop
  | [] => p.currentToken = .EOF
  | t :: ts => p.currentToken = t ∧ t ≠ .EOF ∧ Lexes p.lexer ts

theorem Rest.currentToken {p : Parser} {ts : List Token} (h : Rest p ts) :
    p.currentToken = ts.headD .EOF := by
  cases ts with
  | nil => exact h
  | cons t ts => exact h.1

/-- `consume_token` of the next token left: no panic, and one token fewer left. -/
theorem Rest.consume {p : Parser} {t : Token} {ts : List Token} (h : Rest p (t :: ts)) :
    ∃ p', consumeToken t p = .ok () p' ∧ Rest p' ts := by
  obtain ⟨hc, -, hl⟩ := h
  obtain ⟨tok, lx, hn, hl', h₁, h₂⟩ := hl.step
  refine ⟨⟨lx, tok⟩, by simp [consumeToken, hc, hn], ?_⟩
  cases ts with
  | nil => exact h₁ rfl
  | cons t' ts => exact ⟨h₂ t' ts rfl, hl.head_ne_EOF, hl'⟩

variable {α β : Type}

/-- `o` exhausts its budget, or returns `a` and leaves the tokens `ts`. -/
def Yields (o : Outcome α) (a : α) (ts : List Token) : Prop :=
  o = .outOfFuel ∨ ∃ p', o = .ok a p' ∧ Rest p' ts

theorem Yields.exhausted (a : α) (ts : List Token) : Yields (.outOfFuel : Outcome α) a ts :=
  .inl rfl

theorem Yields.pure {p : Parser} {ts : List Token} (h : Rest p ts) (a : α) :
    Yields ((pure a : ParseM α) p) a ts :=
  .inr ⟨p, rfl, h⟩

theorem Yields.bind {m : ParseM α} {f : α → ParseM β} {p : Parser} {a : α} {b : β}
    {ts ts' : List Token} (hm : Yields (m p) a ts) (hf : ∀ p', Rest p' ts → Yields (f a p') b ts') :
    Yields ((m >>= f) p) b ts' := by
  rcases hm with h | ⟨p', h, hr⟩ <;> rw [bind_apply, h]
  exacts [.inl rfl, hf p' hr]

theorem Yields.consume {p : Parser} {t : Token} {ts : List Token} (h : Rest p (t :: ts)) :
    Yields (consumeToken t p) () ts :=
  let ⟨p', hc, hr⟩ := h.consume
  .inr ⟨p', hc, hr⟩

theorem current_bind (f : Token → ParseM α) (p : Parser) :
    (current >>= f) p = f p.currentToken p := rfl

theorem Yields.leaf {p : Parser} {t : Token} {ts : List Token} (h : Rest p (t :: ts))
    (node : RegexNode) : Yields (leaf t node p) node ts :=
  (Yields.consume h).bind fun _ h' => .pure h' node

/-! ## §3 — ranges -/

theorem digitChar_isDigit : ∀ d < 10, (digitChar d).isDigit = true := by decide

theorem digitChar_toNat : ∀ d < 10, (digitChar d).toNat - '0'.toNat = d := by decide

theorem digitBound_digit {p : Parser} {d : Nat} {ts : List Token} (hd : d < 10)
    (h : Rest p (.Char (digitChar d) :: ts)) : Yields (digitBound p) (some d) ts := by
  rw [digitBound, current_bind, h.currentToken]
  dsimp only [List.headD_cons]
  rw [if_pos (digitChar_isDigit d hd), digitChar_toNat d hd]
  exact (Yields.consume h).bind fun _ h' => .pure h' _

theorem digitBound_closeBracket {p : Parser} {ts : List Token}
    (h : Rest p (.CloseBracket :: ts)) : Yields (digitBound p) none (.CloseBracket :: ts) := by
  rw [digitBound, current_bind, h.currentToken]
  exact .pure h _

/-- `parse_range` reads back the range `rangeTokens` spells. -/
theorem parseRange_rangeTokens {min : Nat} {max : Option Nat} (hmin : min < 10)
    (hmax : max.all (· < 10) = true) {p : Parser} {ts : List Token}
    (h : Rest p (rangeTokens ⟨min, max⟩ ++ ts)) : Yields (parseRange p) ⟨min, max⟩ ts := by
  have hbounds : Yields (rangeBounds p) (min, max) (.CloseBracket :: ts) := by
    have h₀ : Rest p
        (.Char (digitChar min) :: .Char ',' :: ((rangeTokens ⟨min, max⟩).drop 2 ++ ts)) := by
      cases max <;> exact h
    refine (digitBound_digit hmin h₀).bind fun p₁ h₁ => ?_
    dsimp only
    rw [current_bind, h₁.currentToken, List.headD_cons, if_pos rfl]
    refine (Yields.consume h₁).bind fun p₂ h₂ => ?_
    cases max with
    | none => exact (digitBound_closeBracket h₂).bind fun _ h₃ => .pure h₃ _
    | some max =>
      exact (digitBound_digit (by simpa using hmax) h₂).bind fun _ h₃ => .pure h₃ _
  exact hbounds.bind fun _ h₄ => (Yields.consume h₄).bind fun _ h₅ => .pure h₅ _

/-! ## §4 — reading a tree back, level by level

`Reads m follow t`: from the tokens of `t` followed by tokens `ts` whose first one `follow`
allows, the method `m` returns `t` and leaves `ts`, unless its budget runs out. The token
after a tree is what stops the loops: a concatenation ends on `|`, `)` or `EOF`, an
alternation on `)` or `EOF`, and an atom without a quantifier must not be followed by one. -/

/-- Not a quantifier. -/
def NotQuantifier (tok : Token) : Prop :=
  tok ≠ .Star ∧ tok ≠ .Plus ∧ tok ≠ .Question ∧ tok ≠ .Range

/-- The tokens that stop the loop of `parse_concat`. -/
def EndsConcat (tok : Token) : Prop := tok = .Alternation ∨ tok = .CloseParen ∨ tok = .EOF

/-- The tokens that end an alternation. -/
def EndsAlternation (tok : Token) : Prop := tok = .CloseParen ∨ tok = .EOF

/-- The first token of an atom: it neither ends a concatenation nor is a quantifier. -/
def StartsAtom (tok : Token) : Prop := ¬EndsConcat tok ∧ NotQuantifier tok

theorem EndsConcat.notQuantifier {tok : Token} (h : EndsConcat tok) : NotQuantifier tok := by
  rcases h with rfl | rfl | rfl <;> simp [NotQuantifier]

theorem EndsAlternation.endsConcat {tok : Token} (h : EndsAlternation tok) : EndsConcat tok :=
  h.elim (.inr ∘ .inl) (.inr ∘ .inr)

/-- `m` reads `t` off the tokens `toks` when `follow` allows the token after them. -/
def ReadsOn (m : Nat → ParseM RegexNode) (follow : Token → Prop) (t : RegexNode)
    (toks : List Token) : Prop :=
  ∀ n p ts, Rest p (toks ++ ts) → follow (ts.headD .EOF) → Yields (m n p) t ts

/-- `m` reads `t` back off its own tokens when `follow` allows the token after them. -/
def Reads (m : Nat → ParseM RegexNode) (follow : Token → Prop) (t : RegexNode) : Prop :=
  ReadsOn m follow t (toTokens t)

theorem charToken_startsAtom (c : Char) : StartsAtom (charToken c) := by
  unfold charToken; split <;> simp [StartsAtom, EndsConcat, NotQuantifier]

/-- A primary starts with an atom's first token. -/
theorem primary_startsAtom :
    ∀ t, rank t = 0 → ∃ tok rest, toTokens t = tok :: rest ∧ StartsAtom tok
  | .Char c, _ => ⟨_, _, rfl, charToken_startsAtom c⟩
  | .Group _, _ => ⟨_, _, rfl, by simp [StartsAtom, EndsConcat, NotQuantifier]⟩
  | .AnyChar, _ | .Digit, _ | .WordChar, _ | .Whitespace, _ | .StartLine, _ | .EndLine, _
  | .StartInput, _ | .EndInput, _ | .WordBoundary, _ =>
    ⟨_, _, rfl, by simp [StartsAtom, EndsConcat, NotQuantifier]⟩

/-- So does every grammatical atom: its primary comes first. -/
theorem atom_startsAtom (t : RegexNode) (hr : rank t ≤ 1) (hg : grammatical t = true) :
    ∃ tok rest, toTokens t = tok :: rest ∧ StartsAtom tok := by
  have quant : ∀ node (q : List Token), rank node = 0 →
      ∃ tok rest, toTokens node ++ q = tok :: rest ∧ StartsAtom tok := fun node q h0 =>
    let ⟨tok, rest, h, hs⟩ := primary_startsAtom node h0
    ⟨tok, rest ++ q, by rw [h, List.cons_append], hs⟩
  cases t
  case Star node | Plus node | Question node =>
    simp only [grammatical, Bool.and_eq_true, beq_iff_eq] at hg
    exact quant node _ hg.1
  case Repeat node range =>
    obtain ⟨min, max⟩ := range
    simp only [grammatical, Bool.and_eq_true, beq_iff_eq] at hg
    exact quant node _ hg.1.1.1
  case Concat _ | Alternation _ => exact absurd hr (by simp [rank])
  all_goals exact primary_startsAtom _ rfl

/-- The token after the atoms `nodes`: the first token of the first of them, or the token
after them all. -/
theorem headD_concatTokens {P : Token → Prop} {nodes : List RegexNode} {ts : List Token}
    (hnodes : ∀ a ∈ nodes, rank a ≤ 1 ∧ grammatical a = true) (hts : P (ts.headD .EOF))
    (hstart : ∀ tok, StartsAtom tok → P tok) : P ((concatTokens nodes ++ ts).headD .EOF) := by
  cases nodes with
  | nil => exact hts
  | cons a as =>
    obtain ⟨ha, hg⟩ := hnodes a (List.mem_cons_self _ _)
    obtain ⟨tok, rest, h, hs⟩ := atom_startsAtom a ha hg
    rw [concatTokens, h, List.cons_append, List.cons_append, List.headD_cons]
    exact hstart tok hs

theorem headD_alternativesTokens {P : Token → Prop} {nodes : List RegexNode} {ts : List Token}
    (hts : P (ts.headD .EOF)) (halt : P .Alternation) :
    P ((alternativesTokens nodes ++ ts).headD .EOF) := by
  cases nodes with
  | nil => exact hts
  | cons => exact halt

/-! ### Leaving a loop, and climbing a level -/

theorem concatLoop_stop {n : Nat} {nodes : List RegexNode} {p : Parser} {ts : List Token}
    (h : Rest p ts) (hs : EndsConcat (ts.headD .EOF)) : Yields (concatLoop n nodes p) nodes ts := by
  cases n with
  | zero => exact .exhausted _ _
  | succ n =>
    rw [concatLoop, current_bind, h.currentToken, if_neg fun ⟨h₁, h₂, h₃⟩ => by
      rcases hs with hs | hs | hs <;> contradiction]
    exact .pure h _

theorem alternationLoop_stop {n : Nat} {nodes : List RegexNode} {p : Parser} {ts : List Token}
    (h : Rest p ts) (hs : EndsAlternation (ts.headD .EOF)) :
    Yields (alternationLoop n nodes p) nodes ts := by
  cases n with
  | zero => exact .exhausted _ _
  | succ n =>
    rw [alternationLoop, current_bind, h.currentToken, if_neg fun h' => by
      rcases hs with hs | hs <;> rw [hs] at h' <;> cases h']
    exact .pure h _

/-- A primary is read by `parse_atom` as by `parse_primary`, when no quantifier follows. -/
theorem Reads.atom {t : RegexNode} (h : Reads parsePrimary (fun _ => True) t) :
    Reads parseAtom NotQuantifier t := by
  intro n p ts hp hq
  cases n with
  | zero => exact .exhausted _ _
  | succ n =>
    rw [parseAtom]
    refine (h n p ts hp trivial).bind fun p' hp' => ?_
    rw [current_bind, hp'.currentToken]
    obtain ⟨h₁, h₂, h₃, h₄⟩ := hq
    generalize ts.headD .EOF = tok at h₁ h₂ h₃ h₄ ⊢
    cases tok
    case Star | Plus | Question | Range => contradiction
    all_goals exact .pure hp' t

/-- An atom is read by `parse_concat` as by `parse_atom`, when the concatenation ends after
it. -/
theorem ReadsOn.concat {t : RegexNode} {toks : List Token}
    (h : ReadsOn parseAtom NotQuantifier t toks) : ReadsOn parseConcat EndsConcat t toks := by
  intro n p ts hp hs
  cases n with
  | zero => exact .exhausted _ _
  | succ n =>
    rw [parseConcat]
    exact (h n p ts hp hs.notQuantifier).bind fun _ hp' =>
      (concatLoop_stop hp' hs).bind fun _ hp'' => .pure hp'' _

theorem ReadsOn.alternation {t : RegexNode} {toks : List Token}
    (h : ReadsOn parseConcat EndsConcat t toks) :
    ReadsOn parseAlternation EndsAlternation t toks := by
  intro n p ts hp hs
  cases n with
  | zero => exact .exhausted _ _
  | succ n =>
    rw [parseAlternation]
    exact (h n p ts hp hs.endsConcat).bind fun _ hp' =>
      (alternationLoop_stop hp' hs).bind fun _ hp'' => .pure hp'' _

theorem ReadsOn.parse {t : RegexNode} {toks : List Token}
    (h : ReadsOn parseAlternation EndsAlternation t toks) :
    ReadsOn parse EndsAlternation t toks := by
  intro n p ts hp hs
  cases n with
  | zero => exact .exhausted _ _
  | succ n => rw [Parser.parse]; exact h n p ts hp hs

/-! ### One lemma per kind of tree -/

/-- A character that is not plain is none of `d w s A z b`, so `\c` is the literal `c`. -/
theorem escapeToNode_of_not_plain {c : Char} (h : plainChar c = false) :
    escapeToNode c = .Char c := by
  unfold escapeToNode
  split <;> first | rfl | exact absurd h (by decide)

/-- A one-token primary is read by `parse_primary`. -/
theorem reads_primary_leaf (t : RegexNode) (h0 : rank t = 0) (hg : ∀ g, t ≠ .Group g) :
    Reads parsePrimary (fun _ => True) t := by
  intro n p ts hp _
  cases n with
  | zero => exact .exhausted _ _
  | succ n =>
    rw [parsePrimary, current_bind, hp.currentToken]
    cases t
    case Char c =>
      have hp' : Rest p (charToken c :: ts) := hp
      rw [show (toTokens (.Char c) ++ ts).headD .EOF = charToken c from rfl]
      by_cases hc : plainChar c = true
      · rw [charToken, if_pos hc] at hp' ⊢
        exact .leaf hp' _
      · rw [charToken, if_neg hc] at hp' ⊢
        show Yields (leaf (.Escape c) (escapeToNode c) p) _ ts
        rw [escapeToNode_of_not_plain (by simpa using hc)]
        exact .leaf hp' _
    case Group g => exact absurd rfl (hg g)
    case Concat _ | Alternation _ | Star _ | Plus _ | Question _ | Repeat _ _ =>
      exact absurd h0 (by simp [rank])
    all_goals exact .leaf hp _

/-- A group is read by `parse_primary` when its alternation is read by `parse`. -/
theorem Reads.group {g : RegexNode} (h : Reads Parser.parse EndsAlternation g) :
    Reads parsePrimary (fun _ => True) (.Group g) := by
  intro n p ts hp _
  cases n with
  | zero => exact .exhausted _ _
  | succ n =>
    rw [toTokens, List.cons_append, List.append_assoc] at hp
    rw [parsePrimary, current_bind, hp.currentToken]
    exact (Yields.consume hp).bind fun _ h₁ => (h n _ _ h₁ (.inl rfl)).bind fun _ h₂ =>
      (Yields.consume h₂).bind fun _ h₃ => .pure h₃ _

/-- `*`, `+` and `?` after a primary are read by `parse_atom`, whatever follows: it takes one
quantifier and looks no further. -/
theorem Reads.quantified {node : RegexNode} (h : Reads parsePrimary (fun _ => True) node)
    {follow : Token → Prop} :
    ∀ t ∈ [RegexNode.Star node, .Plus node, .Question node], Reads parseAtom follow t := by
  intro t ht n p ts hp _
  cases n with
  | zero => exact .exhausted _ _
  | succ n =>
    rw [parseAtom]
    simp only [List.mem_cons, List.not_mem_nil, or_false] at ht
    rcases ht with rfl | rfl | rfl <;>
    · rw [toTokens, List.append_assoc] at hp
      exact (h n p _ hp trivial).bind fun p' hp' => by
        rw [current_bind, hp'.currentToken]; exact .leaf hp' _

/-- A range after a primary, whose tokens `parse_range` reads as `r`, is read by `parse_atom`,
whatever follows. -/
theorem ReadsOn.repeat {node : RegexNode} {r : RepeatRange} {rts : List Token}
    (h : Reads parsePrimary (fun _ => True) node)
    (hr : ∀ p ts, Rest p (rts ++ ts) → Yields (parseRange p) r ts) {follow : Token → Prop} :
    ReadsOn parseAtom follow (.Repeat node r) (toTokens node ++ .Range :: rts) := by
  intro n p ts hp _
  cases n with
  | zero => exact .exhausted _ _
  | succ n =>
    rw [parseAtom]
    rw [List.append_assoc] at hp
    refine (h n p _ hp trivial).bind fun p' hp' => ?_
    rw [current_bind, hp'.currentToken]
    exact (Yields.consume hp').bind fun _ h₁ => (hr _ _ h₁).bind fun _ h₂ => .pure h₂ _

/-- A range after a primary is read by `parse_atom`, whatever follows. -/
theorem Reads.repeat {node : RegexNode} {r : RepeatRange}
    (h : Reads parsePrimary (fun _ => True) node) (hmin : r.min < 10)
    (hmax : r.max.all (· < 10) = true) {follow : Token → Prop} :
    Reads parseAtom follow (.Repeat node r) :=
  ReadsOn.repeat h fun _ _ => parseRange_rangeTokens hmin hmax

theorem StartsAtom.continues {tok : Token} (h : StartsAtom tok) :
    tok ≠ .Alternation ∧ tok ≠ .CloseParen ∧ tok ≠ .EOF := by
  simpa [EndsConcat, not_or] using h.1

/-- **The loop of `parse_concat`** reads atoms, each with `parse_atom`, up to a token that ends
the concatenation. -/
theorem concatLoop_reads : ∀ (nodes : List RegexNode),
    (∀ a ∈ nodes, rank a ≤ 1 ∧ grammatical a = true ∧ Reads parseAtom NotQuantifier a) →
    ∀ {n : Nat} {acc : List RegexNode} {p : Parser} {ts : List Token},
      Rest p (concatTokens nodes ++ ts) → EndsConcat (ts.headD .EOF) →
      Yields (concatLoop n acc p) (acc ++ nodes) ts
  | [], _, _, _, _, _, hp, hs => by simpa using concatLoop_stop hp hs
  | _ :: _, _, 0, _, _, _, _, _ => .exhausted _ _
  | a :: as, h, n + 1, acc, p, ts, hp, hs => by
    obtain ⟨ha, hg, hr⟩ := h a (List.mem_cons_self _ _)
    have has : ∀ b ∈ as, rank b ≤ 1 ∧ grammatical b = true ∧ Reads parseAtom NotQuantifier b :=
      fun b hb => h b (List.mem_cons_of_mem _ hb)
    obtain ⟨tok, rest, htok, hstart⟩ := atom_startsAtom a ha hg
    rw [concatTokens, List.append_assoc] at hp
    rw [concatLoop, current_bind, hp.currentToken, htok, List.cons_append, List.headD_cons,
      if_pos hstart.continues]
    refine (hr n p _ hp (headD_concatTokens (fun b hb => ⟨(has b hb).1, (has b hb).2.1⟩)
      hs.notQuantifier fun _ h => h.2)).bind fun p' hp' => ?_
    simpa using @concatLoop_reads as has n (acc ++ [a]) p' ts hp' hs

/-- **The loop of `parse_alternation`** reads `|` and a concatenation, again and again, up to
a token that ends the alternation. -/
theorem alternationLoop_reads : ∀ (nodes : List RegexNode),
    (∀ c ∈ nodes, Reads parseConcat EndsConcat c) →
    ∀ {n : Nat} {acc : List RegexNode} {p : Parser} {ts : List Token},
      Rest p (alternativesTokens nodes ++ ts) → EndsAlternation (ts.headD .EOF) →
      Yields (alternationLoop n acc p) (acc ++ nodes) ts
  | [], _, _, _, _, _, hp, hs => by simpa using alternationLoop_stop hp hs
  | _ :: _, _, 0, _, _, _, _, _ => .exhausted _ _
  | c :: cs, h, n + 1, acc, p, ts, hp, hs => by
    rw [alternativesTokens, List.cons_append, List.append_assoc] at hp
    rw [alternationLoop, current_bind, hp.currentToken, List.headD_cons, if_pos rfl]
    refine (Yields.consume hp).bind fun p₁ h₁ => (h c (List.mem_cons_self _ _) n p₁ _ h₁
      (headD_alternativesTokens hs.endsConcat (.inl rfl))).bind fun p₂ h₂ => ?_
    simpa using @alternationLoop_reads cs (fun d hd => h d (List.mem_cons_of_mem _ hd)) n
      (acc ++ [c]) p₂ ts h₂ hs

/-- Two atoms or more are read by `parse_concat` as their `Concat`. -/
theorem Reads.concatNode {a : RegexNode} {as : List RegexNode} (has : as ≠ [])
    (h : ∀ b ∈ a :: as, rank b ≤ 1 ∧ grammatical b = true ∧ Reads parseAtom NotQuantifier b) :
    Reads parseConcat EndsConcat (.Concat (a :: as)) := by
  intro n p ts hp hs
  cases n with
  | zero => exact .exhausted _ _
  | succ n =>
    have hrest : ∀ b ∈ as, rank b ≤ 1 ∧ grammatical b = true ∧ Reads parseAtom NotQuantifier b :=
      fun b hb => h b (List.mem_cons_of_mem _ hb)
    rw [toTokens, concatTokens, List.append_assoc] at hp
    rw [parseConcat]
    refine ((h a (List.mem_cons_self _ _)).2.2 n p _ hp (headD_concatTokens
      (fun b hb => ⟨(hrest b hb).1, (hrest b hb).2.1⟩) hs.notQuantifier fun _ h => h.2)).bind
      fun _ hp' => (concatLoop_reads as hrest hp' hs).bind fun _ hp'' => ?_
    obtain ⟨b, bs, rfl⟩ := List.exists_cons_of_ne_nil has
    exact .pure hp'' _

/-- Two concatenations or more are read by `parse_alternation` as their `Alternation`. -/
theorem Reads.alternationNode {c : RegexNode} {cs : List RegexNode} (hcs : cs ≠ [])
    (h : ∀ d ∈ c :: cs, Reads parseConcat EndsConcat d) :
    Reads parseAlternation EndsAlternation (.Alternation (c :: cs)) := by
  intro n p ts hp hs
  cases n with
  | zero => exact .exhausted _ _
  | succ n =>
    rw [toTokens, List.append_assoc] at hp
    rw [parseAlternation]
    refine (h c (List.mem_cons_self _ _) n p _ hp (headD_alternativesTokens hs.endsConcat
      (.inl rfl))).bind fun _ hp' => (alternationLoop_reads cs
        (fun d hd => h d (List.mem_cons_of_mem _ hd)) hp' hs).bind fun _ hp'' => ?_
    obtain ⟨d, ds, rfl⟩ := List.exists_cons_of_ne_nil hcs
    exact .pure hp'' _

/-! ### Every grammatical tree -/

@[simp] theorem allGrammatical_iff :
    ∀ nodes : List RegexNode, allGrammatical nodes = true ↔ ∀ t ∈ nodes, grammatical t = true
  | [] => by simp [allGrammatical]
  | t :: ts => by simp [allGrammatical, allGrammatical_iff ts]

/-- What the round trip proves of a tree: it is read back at its own level and at every
level above. -/
structure Complete (t : RegexNode) : Prop where
  primary : rank t = 0 → Reads parsePrimary (fun _ => True) t
  atom : rank t ≤ 1 → Reads parseAtom NotQuantifier t
  concat : rank t ≤ 2 → Reads parseConcat EndsConcat t
  alternation : Reads parseAlternation EndsAlternation t

theorem Complete.of_primary {t : RegexNode} (h : Reads parsePrimary (fun _ => True) t) :
    Complete t :=
  ⟨fun _ => h, fun _ => h.atom, fun _ => h.atom.concat, h.atom.concat.alternation⟩

theorem Complete.of_atom {t : RegexNode} (hr : rank t = 1) (h : Reads parseAtom NotQuantifier t) :
    Complete t :=
  ⟨fun h0 => absurd h0 (by omega), fun _ => h, fun _ => h.concat, h.concat.alternation⟩

theorem Complete.of_concat {t : RegexNode} (hr : rank t = 2) (h : Reads parseConcat EndsConcat t) :
    Complete t :=
  ⟨fun h0 => absurd h0 (by omega), fun h1 => absurd h1 (by omega), fun _ => h, h.alternation⟩

mutual

/-- **The round trip, tree by tree**, by structural recursion: each kind of tree is read at
its own level from what its children are read at, and climbs the levels above. -/
theorem complete_of_grammatical : ∀ t, grammatical t = true → Complete t
  | .Char _, _ | .AnyChar, _ | .Digit, _ | .WordChar, _ | .Whitespace, _ | .StartLine, _
  | .EndLine, _ | .StartInput, _ | .EndInput, _ | .WordBoundary, _ =>
    .of_primary (reads_primary_leaf _ rfl fun _ => nofun)
  | .Group node, h => .of_primary (Reads.group (complete_of_grammatical node h).alternation.parse)
  | .Star node, h | .Plus node, h | .Question node, h => by
    simp only [grammatical, Bool.and_eq_true, beq_iff_eq] at h
    exact .of_atom rfl
      (Reads.quantified ((complete_of_grammatical node h.2).primary h.1) _ (by simp))
  | .Repeat node ⟨min, max⟩, h => by
    simp only [grammatical, Bool.and_eq_true, beq_iff_eq, decide_eq_true_eq] at h
    exact .of_atom rfl
      (Reads.repeat ((complete_of_grammatical node h.2).primary h.1.1.1) h.1.1.2 h.1.2)
  | .Concat nodes, h => by
    simp only [grammatical, Bool.and_eq_true, decide_eq_true_eq, List.all_eq_true] at h
    obtain ⟨⟨hlen, hrank⟩, hall⟩ := h
    have hc := complete_of_allGrammatical nodes hall
    have hg := (allGrammatical_iff nodes).1 hall
    match nodes, hlen with
    | a :: b :: bs, _ =>
      exact .of_concat rfl (Reads.concatNode (List.cons_ne_nil _ _) fun c hc' =>
        ⟨hrank c hc', hg c hc', (hc c hc').atom (hrank c hc')⟩)
  | .Alternation nodes, h => by
    simp only [grammatical, Bool.and_eq_true, decide_eq_true_eq, List.all_eq_true] at h
    obtain ⟨⟨hlen, hrank⟩, hall⟩ := h
    have hc := complete_of_allGrammatical nodes hall
    match nodes, hlen with
    | a :: b :: bs, _ =>
      exact ⟨fun h0 => absurd h0 (by simp [rank]), fun h1 => absurd h1 (by simp [rank]),
        fun h2 => absurd h2 (by simp [rank]), Reads.alternationNode (List.cons_ne_nil _ _)
          fun c hc' => (hc c hc').concat (hrank c hc')⟩

/-- The round trip for every tree of a list. -/
theorem complete_of_allGrammatical :
    ∀ nodes, allGrammatical nodes = true → ∀ t ∈ nodes, Complete t
  | [], _ => fun _ h => absurd h (List.not_mem_nil _)
  | a :: as, h => by
    simp only [allGrammatical, Bool.and_eq_true] at h
    exact fun t ht => (List.mem_cons.1 ht).elim (fun e => e ▸ complete_of_grammatical a h.1)
      fun ht => complete_of_allGrammatical as h.2 t ht

end

/-- A lexer that lexes the tokens `toks` gives a first parser state with `toks` left. -/
theorem rest_of_lexes {lx : Lexer} {toks : List Token} (h : Lexes lx toks) :
    ∃ tok lx', lx.nextToken = some (tok, lx') ∧ Rest ⟨lx', tok⟩ toks := by
  obtain ⟨tok, lx', hn, hl, h₁, h₂⟩ := h.step
  refine ⟨tok, lx', hn, ?_⟩
  cases toks with
  | nil => exact h₁ rfl
  | cons t ts => exact ⟨h₂ t ts rfl, h.head_ne_EOF, hl⟩

/-- A pattern that lexes to `toks` starts the parser on `toks`, with the budget of that
state. -/
theorem parsePattern_of_lexes {s : String} {toks : List Token} (h : Lexes (Lexer.new s) toks) :
    ∃ p, Rest p toks ∧ parsePattern s = parse p.budget p := by
  obtain ⟨tok, lx, hn, hp⟩ := rest_of_lexes h
  exact ⟨⟨lx, tok⟩, hp, by rw [parsePattern, Parser.new, hn]; rfl⟩

/-- A pattern that lexes to tokens `parse` reads `t` off, then `ts`, which start with `)` or
are empty: `Parser::new(s).parse()` returns `Ok(t)` with the tokens `ts` left. -/
theorem parsePattern_readsOn {s : String} {t : RegexNode} {toks ts : List Token}
    (h : ReadsOn Parser.parse EndsAlternation t toks) (hs : Lexes (Lexer.new s) (toks ++ ts))
    (hf : EndsAlternation (ts.headD .EOF)) : ∃ p, parsePattern s = .ok t p ∧ Rest p ts := by
  obtain ⟨p, hp, he⟩ := parsePattern_of_lexes hs
  rcases h p.budget p ts hp hf with h | ⟨p', h, hr⟩
  · exact absurd h (parse_budget_ne_outOfFuel _)
  · exact ⟨p', he.trans h, hr⟩

/-- **The parser reads a grammatical tree off the front of a pattern.** If the lexer returns,
on the pattern `s`, the tokens of a grammatical tree `t` and then `ts`, which start with `)` or
are empty, then `Parser::new(s).parse()` returns `Ok(t)` with the tokens `ts` left. -/
theorem parsePattern_reads {s : String} {t : RegexNode} {ts : List Token}
    (ht : grammatical t = true) (hs : Lexes (Lexer.new s) (toTokens t ++ ts))
    (hf : EndsAlternation (ts.headD .EOF)) : ∃ p, parsePattern s = .ok t p ∧ Rest p ts :=
  parsePattern_readsOn (complete_of_grammatical t ht).alternation.parse hs hf

/-- **The parser reads back every grammatical tree.** If the lexer returns, on the pattern
`s`, the tokens that spell a grammatical tree `t`, then `Parser::new(s).parse()` returns
`Ok(t)` and stops on `EOF`. -/
theorem parsePattern_toTokens {s : String} {t : RegexNode} (ht : grammatical t = true)
    (hs : Lexes (Lexer.new s) (toTokens t)) :
    ∃ p, parsePattern s = .ok t p ∧ p.currentToken = .EOF :=
  let ⟨p, h, hr⟩ := @parsePattern_reads s t [] ht (by simpa using hs) (.inr rfl)
  ⟨p, h, hr⟩

/-- **`{d}` does not parse.** The lexer reads `}` as a literal character, so on `"a{3}"`
`parse_range` expects `]` and gets `Char('}')`. Closed by the `]` it expects, `{3]` gives
`{min: 3, max: None}`, not `RepeatRange::exactly(3)`. -/
theorem parse_rejects_closing_brace :
    parsePattern "a\x7b3\x7d" = .err (.Expected .CloseBracket (.Char '}')) ∧
      ∃ p, parsePattern "a\x7b3]" = .ok (.Repeat (.Char 'a') ⟨3, none⟩) p ∧
        RepeatRange.exactly 3 ≠ ⟨3, none⟩ :=
  ⟨rfl, _, rfl, by decide⟩

/-! ## §5 — what `parse` returns

The converse direction, by one lemma per method over the recursion budget: from a `bind` that
returns `Ok`, `bind_eq_ok` gives the two steps. -/

theorem bind_eq_ok {m : ParseM α} {f : α → ParseM β} {p p'' : Parser} {b : β}
    (h : (m >>= f) p = .ok b p'') : ∃ a p', m p = .ok a p' ∧ f a p' = .ok b p'' := by
  rw [bind_apply] at h
  split at h
  · exact ⟨_, _, ‹_›, h⟩
  all_goals cases h

theorem leaf_eq_ok {tok : Token} {node t : RegexNode} {p p' : Parser}
    (h : leaf tok node p = .ok t p') : t = node := by
  obtain ⟨_, _, -, h⟩ := bind_eq_ok h
  cases h; rfl

theorem isDigit_sub_lt {c : Char} (h : c.isDigit = true) : c.toNat - '0'.toNat < 10 := by
  simp only [Char.isDigit, Bool.and_eq_true, decide_eq_true_eq] at h
  have : c.toNat ≤ '9'.toNat := h.2
  have h9 : '9'.toNat = 57 := rfl
  have h0 : '0'.toNat = 48 := rfl
  omega

/-- A bound `parse_range` reads is a digit. -/
theorem digitBound_eq_ok {p p' : Parser} {x : Option Nat} (h : digitBound p = .ok x p') :
    x.all (· < 10) = true := by
  rw [digitBound, current_bind] at h
  generalize p.currentToken = tok at h
  cases tok
  case Char ch =>
    dsimp only at h
    split at h
    · obtain ⟨_, _, -, h⟩ := bind_eq_ok h
      cases h; simpa using isDigit_sub_lt ‹_›
    · cases h; rfl
  all_goals cases h; rfl

theorem rangeBounds_eq_ok {p p' : Parser} {min : Nat} {max : Option Nat}
    (h : rangeBounds p = .ok (min, max) p') : min < 10 ∧ max.all (· < 10) = true := by
  obtain ⟨x, p₁, h₁, h⟩ := bind_eq_ok h
  have hx := digitBound_eq_ok h₁
  cases x with
  | none => cases h; simp
  | some d =>
    dsimp only at h
    rw [current_bind] at h
    split at h
    · obtain ⟨_, _, -, h⟩ := bind_eq_ok h
      obtain ⟨y, _, h₂, h⟩ := bind_eq_ok h
      cases h; exact ⟨by simpa using hx, digitBound_eq_ok h₂⟩
    · cases h; exact ⟨by simpa using hx, rfl⟩

theorem parseRange_eq_ok {p p' : Parser} {r : RepeatRange} (h : parseRange p = .ok r p') :
    r.min < 10 ∧ r.max.all (· < 10) = true := by
  obtain ⟨⟨min, max⟩, _, h₁, h⟩ := bind_eq_ok h
  obtain ⟨_, _, -, h⟩ := bind_eq_ok h
  cases h; exact rangeBounds_eq_ok h₁

theorem escapeToNode_primary (c : Char) :
    grammatical (escapeToNode c) = true ∧ rank (escapeToNode c) = 0 := by
  unfold escapeToNode; split <;> exact ⟨rfl, rfl⟩

theorem endsConcat_of_not {tok : Token}
    (h : ¬(tok ≠ .Alternation ∧ tok ≠ .CloseParen ∧ tok ≠ .EOF)) : EndsConcat tok := by
  unfold EndsConcat; tauto

/-- A list of one tree or more, wrapped as `parse_concat` or `parse_alternation` does. -/
theorem oneOrMany_grammatical {wrap : List RegexNode → RegexNode} {k : Nat}
    (hwrap : ∀ a b bs, grammatical (wrap (a :: b :: bs)) =
      (allGrammatical (a :: b :: bs) && (a :: b :: bs).all (rank · ≤ k)))
    (hrank : ∀ nodes, rank (wrap nodes) = k + 1) {nodes : List RegexNode}
    (hne : 1 ≤ nodes.length) (h : ∀ a ∈ nodes, grammatical a = true ∧ rank a ≤ k) :
    grammatical (oneOrMany wrap nodes) = true ∧ rank (oneOrMany wrap nodes) ≤ k + 1 := by
  match nodes, hne with
  | [a], _ =>
    have := h a (List.mem_singleton_self a)
    exact ⟨this.1, show rank a ≤ k + 1 by omega⟩
  | a :: b :: bs, _ =>
    refine ⟨?_, (hrank _).le⟩
    show grammatical (wrap (a :: b :: bs)) = true
    rw [hwrap]
    simp only [Bool.and_eq_true, allGrammatical_iff, List.all_eq_true, decide_eq_true_eq]
    exact ⟨fun c hc => (h c hc).1, fun c hc => (h c hc).2⟩

theorem forall_mem_append_singleton {P : RegexNode → Prop} {acc : List RegexNode}
    {x : RegexNode} (h : ∀ a ∈ acc, P a) (hx : P x) : ∀ a ∈ acc ++ [x], P a := by
  simp only [List.mem_append, List.mem_singleton]
  rintro a (ha | rfl)
  exacts [h a ha, hx]

mutual

theorem parse_eq_ok : ∀ {n : Nat} {p p' : Parser} {t : RegexNode}, parse n p = .ok t p' →
    grammatical t = true ∧ EndsAlternation p'.currentToken
  | 0, _, _, _, h => by cases h
  | _ + 1, _, _, _, h => by rw [Parser.parse] at h; exact parseAlternation_eq_ok h

theorem parseAlternation_eq_ok : ∀ {n : Nat} {p p' : Parser} {t : RegexNode},
    parseAlternation n p = .ok t p' → grammatical t = true ∧ EndsAlternation p'.currentToken
  | 0, _, _, _, h => by cases h
  | _ + 1, _, _, _, h => by
    rw [parseAlternation] at h
    obtain ⟨node, _, h₁, h⟩ := bind_eq_ok h
    obtain ⟨nodes, _, h₂, h⟩ := bind_eq_ok h
    cases h
    obtain ⟨hg, hr, hs⟩ := parseConcat_eq_ok h₁
    obtain ⟨hall, hlen, hs'⟩ := alternationLoop_eq_ok h₂ (by simpa using ⟨hg, hr⟩) hs
    exact ⟨(oneOrMany_grammatical (fun _ _ _ => by simp [grammatical, Bool.and_comm])
      (fun _ => rfl) (by simpa using hlen) hall).1, hs'⟩

theorem alternationLoop_eq_ok : ∀ {n : Nat} {acc nodes : List RegexNode} {p p' : Parser},
    alternationLoop n acc p = .ok nodes p' → (∀ c ∈ acc, grammatical c = true ∧ rank c ≤ 2) →
    EndsConcat p.currentToken →
    (∀ c ∈ nodes, grammatical c = true ∧ rank c ≤ 2) ∧ acc.length ≤ nodes.length ∧
      EndsAlternation p'.currentToken
  | 0, _, _, _, _, h, _, _ => by cases h
  | _ + 1, _, _, _, _, h, hacc, hs => by
    rw [alternationLoop, current_bind] at h
    split at h
    · obtain ⟨_, _, -, h⟩ := bind_eq_ok h
      obtain ⟨node, _, h₂, h⟩ := bind_eq_ok h
      obtain ⟨hg, hr, hs₂⟩ := parseConcat_eq_ok h₂
      obtain ⟨hall, hlen, hs'⟩ :=
        alternationLoop_eq_ok h (forall_mem_append_singleton hacc ⟨hg, hr⟩) hs₂
      exact ⟨hall, by simp only [List.length_append] at hlen; omega, hs'⟩
    · cases h
      exact ⟨hacc, le_rfl, hs.resolve_left ‹_›⟩

theorem parseConcat_eq_ok : ∀ {n : Nat} {p p' : Parser} {t : RegexNode},
    parseConcat n p = .ok t p' →
    grammatical t = true ∧ rank t ≤ 2 ∧ EndsConcat p'.currentToken
  | 0, _, _, _, h => by cases h
  | _ + 1, _, _, _, h => by
    rw [parseConcat] at h
    obtain ⟨node, _, h₁, h⟩ := bind_eq_ok h
    obtain ⟨nodes, _, h₂, h⟩ := bind_eq_ok h
    cases h
    obtain ⟨hall, hlen, hs⟩ := concatLoop_eq_ok h₂ (by simpa using parseAtom_eq_ok h₁)
    obtain ⟨hg, hr⟩ := @oneOrMany_grammatical .Concat 1
      (fun _ _ _ => by simp [grammatical, Bool.and_comm]) (fun _ => rfl) _
      (by simpa using hlen) hall
    exact ⟨hg, hr, hs⟩

theorem concatLoop_eq_ok : ∀ {n : Nat} {acc nodes : List RegexNode} {p p' : Parser},
    concatLoop n acc p = .ok nodes p' → (∀ a ∈ acc, grammatical a = true ∧ rank a ≤ 1) →
    (∀ a ∈ nodes, grammatical a = true ∧ rank a ≤ 1) ∧ acc.length ≤ nodes.length ∧
      EndsConcat p'.currentToken
  | 0, _, _, _, _, h, _ => by cases h
  | _ + 1, _, _, _, _, h, hacc => by
    rw [concatLoop, current_bind] at h
    split at h
    · obtain ⟨node, _, h₁, h⟩ := bind_eq_ok h
      obtain ⟨hall, hlen, hs⟩ :=
        concatLoop_eq_ok h (forall_mem_append_singleton hacc (parseAtom_eq_ok h₁))
      exact ⟨hall, by simp only [List.length_append] at hlen; omega, hs⟩
    · cases h
      exact ⟨hacc, le_rfl, endsConcat_of_not ‹_›⟩

theorem parseAtom_eq_ok : ∀ {n : Nat} {p p' : Parser} {t : RegexNode},
    parseAtom n p = .ok t p' → grammatical t = true ∧ rank t ≤ 1
  | 0, _, _, _, h => by cases h
  | _ + 1, _, _, _, h => by
    rw [parseAtom] at h
    obtain ⟨node, p₁, h₁, h⟩ := bind_eq_ok h
    obtain ⟨hg, hr⟩ := parsePrimary_eq_ok h₁
    rw [current_bind] at h
    generalize p₁.currentToken = tok at h
    cases tok
    case Range =>
      obtain ⟨_, _, -, h⟩ := bind_eq_ok h
      obtain ⟨⟨min, max⟩, _, h₂, h⟩ := bind_eq_ok h
      cases h
      obtain ⟨hmin, hmax⟩ := parseRange_eq_ok h₂
      exact ⟨by simp [grammatical, hg, hr, hmin, hmax], le_rfl⟩
    case Star | Plus | Question =>
      cases leaf_eq_ok h; exact ⟨by simp [grammatical, hg, hr], le_rfl⟩
    all_goals cases h; exact ⟨hg, by omega⟩

theorem parsePrimary_eq_ok : ∀ {n : Nat} {p p' : Parser} {t : RegexNode},
    parsePrimary n p = .ok t p' → grammatical t = true ∧ rank t = 0
  | 0, _, _, _, h => by cases h
  | _ + 1, p, _, _, h => by
    rw [parsePrimary, current_bind] at h
    generalize p.currentToken = tok at h
    cases tok
    case Escape c => cases leaf_eq_ok h; exact escapeToNode_primary c
    case OpenParen =>
      obtain ⟨_, _, -, h⟩ := bind_eq_ok h
      obtain ⟨node, _, h₁, h⟩ := bind_eq_ok h
      obtain ⟨_, _, -, h⟩ := bind_eq_ok h
      cases h
      exact ⟨(parse_eq_ok h₁).1, rfl⟩
    case Char | AnyChar | Digit | WordChar | Whitespace | StartLine | EndLine | StartInput
      | EndInput | WordBoundary => cases leaf_eq_ok h; exact ⟨rfl, rfl⟩
    all_goals cases h

end

/-- **What `parse` returns.** Every tree `Parser::new(s).parse()` returns is grammatical, and
the parser stops on a `)` it does not consume or on `EOF`. -/
theorem parse_sound {s : String} {t : RegexNode} {p : Parser} (h : parsePattern s = .ok t p) :
    grammatical t = true ∧ (p.currentToken = .CloseParen ∨ p.currentToken = .EOF) := by
  unfold parsePattern at h
  split at h
  · exact parse_eq_ok h
  · cases h

/-- `parse_sound` on `(a|b)*`, which the parser reads to its end. -/
theorem parse_sound_star_group :
    parsePattern "(a|b)*" =
        .ok (.Star (.Group (.Alternation [.Char 'a', .Char 'b']))) ⟨⟨"(a|b)*", 6⟩, .EOF⟩ ∧
      grammatical (.Star (.Group (.Alternation [.Char 'a', .Char 'b']))) = true ∧
      ((⟨⟨"(a|b)*", 6⟩, .EOF⟩ : Parser).currentToken = .CloseParen ∨
        (⟨⟨"(a|b)*", 6⟩, .EOF⟩ : Parser).currentToken = .EOF) :=
  have h : parsePattern "(a|b)*" =
      .ok (.Star (.Group (.Alternation [.Char 'a', .Char 'b']))) ⟨⟨"(a|b)*", 6⟩, .EOF⟩ := rfl
  ⟨h, parse_sound h⟩

/-- **A trailing `)` is dropped.** On `"a)"` the parser returns `Ok(Char('a'))` and stops
with `)` as its current token: `parse` never checks that it reached `EOF`. -/
theorem parse_accepts_unmatched_paren :
    ∃ p, parsePattern "a)" = .ok (.Char 'a') p ∧ p.currentToken = .CloseParen :=
  ⟨_, rfl, rfl⟩

end Parser

end Simplegrep
