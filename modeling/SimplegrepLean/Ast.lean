import Mathlib.Data.String.Basic

/-!
# SimplegrepLean — syntax of patterns

The vocabulary of `simplegrep/src/ast.rs`: the tokens the lexer produces, the regex syntax
tree the parser builds, and the repetition bounds of a `{min,max}` quantifier. Constructor
names are the Rust variant names, so that every later definition can be read against the
source arm by arm.

`RegexNode` is nested through `List` (the Rust `Vec<RegexNode>` of `Concat` and
`Alternation`), so functions over it are mutual with a function over `List RegexNode`.
-/

namespace Simplegrep

/-- `RepeatRange`: the bounds of a `{min,max}` quantifier; `max = none` is unbounded. -/
structure RepeatRange where
  min : Nat
  max : Option Nat
deriving DecidableEq, Repr

/-- `RepeatRange::new`. -/
def RepeatRange.new (min : Nat) (max : Option Nat) : RepeatRange := { min, max }

/-- `RepeatRange::exactly`. -/
def RepeatRange.exactly (n : Nat) : RepeatRange := RepeatRange.new n (some n)

/-- `RegexNode`: the syntax tree the parser returns and the automaton builder reads. -/
inductive RegexNode where
  | Char (c : Char)
  | AnyChar
  | Digit
  | WordChar
  | Whitespace
  | Concat (nodes : List RegexNode)
  | Alternation (nodes : List RegexNode)
  | Repeat (node : RegexNode) (range : RepeatRange)
  | Plus (node : RegexNode)
  | Star (node : RegexNode)
  | Question (node : RegexNode)
  | Group (node : RegexNode)
  | StartLine
  | EndLine
  | StartInput
  | EndInput
  | WordBoundary
deriving Repr

/-- `Token`: what `Lexer::next_token` returns. `Concat` is declared in the source but never
produced. -/
inductive Token where
  | Char (c : Char)
  | Escape (c : Char)
  | Concat
  | Alternation
  | Star
  | Plus
  | Question
  | Range
  | OpenParen
  | CloseParen
  | OpenBracket
  | CloseBracket
  | AnyChar
  | Digit
  | WordChar
  | Whitespace
  | StartLine
  | EndLine
  | StartInput
  | EndInput
  | WordBoundary
  | EOF
deriving DecidableEq, Repr

end Simplegrep
