import SimplegrepLean.Ast

/-!
# SimplegrepLean — the lexer

`Lexer` of `simplegrep/src/tokens.rs`. The pattern is a Rust `&str` and `position` a byte
offset into it; `next_token` reads the character at `position` with
`self.input[self.position..].chars().next().unwrap()`, which panics when `position` falls
inside a multi-byte character, and then advances `position` by one byte, whatever the width
of the character read. Panics are `none`.

* `sliceFrom` — `&s[i..]` on the characters of `s`, `none` off a character boundary;
* `Lexer.handleEscape`, `Lexer.nextToken` — the two methods;
* `Lexer.nextToken_eq` — `next_token`'s own recursion (the whitespace skip calls
  `next_token` again), which `nextToken` unrolls with a budget of one call per byte left.
-/

namespace Simplegrep

/-- `&s[i..]` for a string with characters `cs`: the characters from byte offset `i` on, or
`none` where Rust panics because `i` is not a character boundary (or lies past the end). -/
def sliceFrom : List Char → Nat → Option (List Char)
  | cs, 0 => some cs
  | [], _ + 1 => none
  | c :: cs, i + 1 => if c.utf8Size ≤ i + 1 then sliceFrom cs (i + 1 - c.utf8Size) else none

/-- `s[i..].chars().next().unwrap()`: the character starting at byte offset `i`; `none` is a
panic of the slice or of the `unwrap`. -/
def charAt (s : String) (i : Nat) : Option Char := (sliceFrom s.data i).bind List.head?

/-- The token `handle_escape` returns for `\` followed by `ch`. -/
def escapeToken : Char → Token
  | 'd' => .Digit
  | 'w' => .WordChar
  | 's' => .Whitespace
  | 'A' => .StartInput
  | 'z' => .EndInput
  | 'b' => .WordBoundary
  | ch => .Escape ch

/-- The token of a one-character arm of `next_token`; any other character is a literal. -/
def symbolToken : Char → Token
  | '(' => .OpenParen
  | ')' => .CloseParen
  | '[' => .OpenBracket
  | ']' => .CloseBracket
  | '*' => .Star
  | '+' => .Plus
  | '?' => .Question
  | '|' => .Alternation
  | '.' => .AnyChar
  | '^' => .StartLine
  | '$' => .EndLine
  | '{' => .Range
  | ch => .Char ch

/-- The characters `next_token` skips: its arm `' ' | '\t' | '\n' | '\r'`. -/
def Skipped (ch : Char) : Prop := ch = ' ' ∨ ch = '\t' ∨ ch = '\n' ∨ ch = '\r'

instance : DecidablePred Skipped := fun ch =>
  inferInstanceAs (Decidable (ch = ' ' ∨ ch = '\t' ∨ ch = '\n' ∨ ch = '\r'))

/-- `Lexer<'a>`: the pattern and a byte offset into it. -/
structure Lexer where
  input : String
  position : Nat
deriving DecidableEq, Repr

namespace Lexer

/-- `Lexer::new`. -/
def new (input : String) : Lexer := { input, position := 0 }

/-- `handle_escape`, called with `position` just past a backslash. -/
def handleEscape (lx : Lexer) : Option (Token × Lexer) :=
  if lx.position ≥ lx.input.utf8ByteSize then some (.Char '\\', lx)
  else (charAt lx.input lx.position).map fun ch =>
    (escapeToken ch, { lx with position := lx.position + 1 })

/-- `next_token`, with at most `fuel` calls of its whitespace recursion. -/
def nextTokenAux : Nat → Lexer → Option (Token × Lexer)
  | 0, _ => none
  | fuel + 1, lx =>
    if lx.position ≥ lx.input.utf8ByteSize then some (.EOF, lx)
    else (charAt lx.input lx.position).bind fun ch =>
      if Skipped ch then nextTokenAux fuel { lx with position := lx.position + 1 }
      else if ch = '\\' then handleEscape { lx with position := lx.position + 1 }
      else some (symbolToken ch, { lx with position := lx.position + 1 })

/-- `next_token`: each whitespace call advances one byte, so one call per byte left, and the
last call at the end, always suffice (`nextToken_eq`). -/
def nextToken (lx : Lexer) : Option (Token × Lexer) :=
  nextTokenAux (lx.input.utf8ByteSize - lx.position + 1) lx

/-- **`next_token` as the source writes it**: the whitespace arm calls `next_token` again. -/
theorem nextToken_eq (lx : Lexer) :
    lx.nextToken =
      if lx.position ≥ lx.input.utf8ByteSize then some (.EOF, lx)
      else (charAt lx.input lx.position).bind fun ch =>
        if Skipped ch then nextToken { lx with position := lx.position + 1 }
        else if ch = '\\' then handleEscape { lx with position := lx.position + 1 }
        else some (symbolToken ch, { lx with position := lx.position + 1 }) := by
  unfold nextToken
  split
  · rw [Nat.sub_eq_zero_of_le (by assumption)]
    simp [nextTokenAux, *]
  · have hk : lx.input.utf8ByteSize - lx.position + 1 =
        (lx.input.utf8ByteSize - (lx.position + 1) + 1) + 1 := by omega
    rw [hk, nextTokenAux, if_neg ‹_›]

end Lexer

end Simplegrep
