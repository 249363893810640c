import SimplegrepLean.Tokens

/-!
# SimplegrepLean — the recursive-descent parser

`Parser` of `simplegrep/src/parser.rs`: a lexer and the current token. Every method returns
Rust's `Result<_, String>` and may panic inside `next_token`; an `Outcome` records which, and
an `Ok` carries the parser state it leaves. The methods call each other
(`parse → parse_alternation → parse_concat → parse_atom → parse_primary → parse` for a group)
and loop with `while`; here each takes a recursion budget `n` and the two loops are
recursive functions. `Parser.budget` is a budget that is always enough (proved in
`Parser/Termination.lean`), and `parsePattern` is `Parser::new(s).parse()` as `main` calls it.

The error strings are `format!("Unexpected token: {:?}", tok)` and
`format!("Expected {:?}, got {:?}", expected, got)`; `ParseError` keeps the tokens they print.
-/

namespace Simplegrep

/-- `Parser<'a>`. -/
structure Parser where
  lexer : Lexer
  currentToken : Token
deriving DecidableEq, Repr

/-- The two `Err` messages of the parser, by the tokens they print. -/
inductive ParseError where
  /-- `"Unexpected token: {:?}"`, from `parse_primary`. -/
  | UnexpectedToken (token : Token)
  /-- `"Expected {:?}, got {:?}"`, from `consume_token`. -/
  | Expected (expected got : Token)
deriving DecidableEq, Repr

/-- How a parser method ends: `Ok` with the parser state it leaves, `Err`, a panic of the
lexer, or (a budget of the model, never the code) an exhausted recursion budget. -/
inductive Outcome (α : Type) where
  | ok (a : α) (p : Parser)
  | err (e : ParseError)
  | panic
  | outOfFuel

/-- A parser method: `&mut self` to an `Outcome`. -/
def ParseM (α : Type) : Type := Parser → Outcome α

/-- `?` propagation: an `Err`, a panic or an exhausted budget stops the method. -/
instance : Monad ParseM where
  pure a p := .ok a p
  bind m f p := match m p with
    | .ok a p' => f a p'
    | .err e => .err e
    | .panic => .panic
    | .outOfFuel => .outOfFuel

/-- `Result<_, String>` of an outcome, `none` for a panic (or an exhausted budget). -/
def Outcome.result {α : Type} : Outcome α → Option (Except ParseError α)
  | .ok a _ => some (.ok a)
  | .err e => some (.error e)
  | .panic => none
  | .outOfFuel => none

namespace Parser

/-- Reading `self.current_token`. -/
def current : ParseM Token := fun p => .ok p.currentToken p

/-- `return Err(e)`. -/
def fail {α : Type} (e : ParseError) : ParseM α := fun _ => .err e

/-- The end of the recursion budget. -/
def exhausted {α : Type} : ParseM α := fun _ => .outOfFuel

/-- `consume_token`: advance only when the current token is `expected`. -/
def consumeToken (expected : Token) : ParseM Unit := fun p =>
  if p.currentToken = expected then
    match p.lexer.nextToken with
    | some (tok, lx) => .ok () { lexer := lx, currentToken := tok }
    | none => .panic
  else .err (.Expected expected p.currentToken)

/-- `Parser::new`: the lexer and its first token; `none` is a panic of the lexer. -/
def new (input : String) : Option Parser :=
  (Lexer.new input).nextToken.map fun (tok, lx) => { lexer := lx, currentToken := tok }

/-- `escape_to_node`. -/
def escapeToNode : Char → RegexNode
  | 'd' => .Digit
  | 'w' => .WordChar
  | 's' => .Whitespace
  | 'A' => .StartInput
  | 'z' => .EndInput
  | 'b' => .WordBoundary
  | ch => .Char ch

/-- `if nodes.len() == 1 { nodes.into_iter().next().unwrap() } else { wrap(nodes) }`. -/
def oneOrMany (wrap : List RegexNode → RegexNode) : List RegexNode → RegexNode
  | [node] => node
  | nodes => wrap nodes

/-- One bound of `parse_range`:
`if let Token::Char(ch) = self.current_token { if ch.is_ascii_digit() { ... } }`, which
consumes the digit and returns `ch.to_digit(10)`. -/
def digitBound : ParseM (Option Nat) := do
  match (← current) with
  | .Char ch =>
    if ch.isDigit then
      consumeToken (.Char ch)
      pure (some (ch.toNat - '0'.toNat))
    else pure none
  | _ => pure none

/-- The `if let` block of `parse_range`, called just past `{`: an optional digit, then, if
one was read, an optional `,` and digit. Without a digit the bounds stay `(0, None)`. -/
def rangeBounds : ParseM (Nat × Option Nat) := do
  match (← digitBound) with
  | none => pure (0, none)
  | some min =>
    if (← current) = .Char ',' then do
      consumeToken (.Char ',')
      let max ← digitBound
      pure (min, max)
    else pure (min, none)

/-- `parse_range`: the bounds, then always `consume_token(Token::CloseBracket)`. -/
def parseRange : ParseM RepeatRange := do
  let (min, max) ← rangeBounds
  consumeToken .CloseBracket
  pure (RepeatRange.new min max)

/-- A primary that is one token: consume it, return `node`. -/
def leaf (tok : Token) (node : RegexNode) : ParseM RegexNode := do
  consumeToken tok
  pure node

mutual

/-- `parse`. -/
def parse : Nat → ParseM RegexNode
  | 0 => exhausted
  | n + 1 => parseAlternation n

/-- `parse_alternation`. -/
def parseAlternation : Nat → ParseM RegexNode
  | 0 => exhausted
  | n + 1 => do
    let node ← parseConcat n
    let nodes ← alternationLoop n [node]
    pure (oneOrMany .Alternation nodes)

/-- The `while self.current_token == Token::Alternation` loop of `parse_alternation`. -/
def alternationLoop : Nat → List RegexNode → ParseM (List RegexNode)
  | 0, _ => exhausted
  | n + 1, nodes => do
    if (← current) = .Alternation then
      consumeToken .Alternation
      let node ← parseConcat n
      alternationLoop n (nodes ++ [node])
    else pure nodes

/-- `parse_concat`. -/
def parseConcat : Nat → ParseM RegexNode
  | 0 => exhausted
  | n + 1 => do
    let node ← parseAtom n
    let nodes ← concatLoop n [node]
    pure (oneOrMany .Concat nodes)

/-- The loop of `parse_concat`, run while the current token is not `Alternation`,
`CloseParen` or `EOF`. -/
def concatLoop : Nat → List RegexNode → ParseM (List RegexNode)
  | 0, _ => exhausted
  | n + 1, nodes => do
    let tok ← current
    if tok ≠ .Alternation ∧ tok ≠ .CloseParen ∧ tok ≠ .EOF then
      let node ← parseAtom n
      concatLoop n (nodes ++ [node])
    else pure nodes

/-- `parse_atom`: a primary and at most one quantifier. -/
def parseAtom : Nat → ParseM RegexNode
  | 0 => exhausted
  | n + 1 => do
    let node ← parsePrimary n
    match (← current) with
    | .Star => leaf .Star (.Star node)
    | .Plus => leaf .Plus (.Plus node)
    | .Question => leaf .Question (.Question node)
    | .Range => do
      consumeToken .Range
      let range ← parseRange
      pure (.Repeat node range)
    | _ => pure node

/-- `parse_primary`. -/
def parsePrimary : Nat → ParseM RegexNode
  | 0 => exhausted
  | n + 1 => do
    match (← current) with
    | .Char ch => leaf (.Char ch) (.Char ch)
    | .Escape ch => leaf (.Escape ch) (escapeToNode ch)
    | .AnyChar => leaf .AnyChar .AnyChar
    | .Digit => leaf .Digit .Digit
    | .WordChar => leaf .WordChar .WordChar
    | .Whitespace => leaf .Whitespace .Whitespace
    | .OpenParen => do
      consumeToken .OpenParen
      let node ← parse n
      consumeToken .CloseParen
      pure (.Group node)
    | .StartLine => leaf .StartLine .StartLine
    | .EndLine => leaf .EndLine .EndLine
    | .StartInput => leaf .StartInput .StartInput
    | .EndInput => leaf .EndInput .EndInput
    | .WordBoundary => leaf .WordBoundary .WordBoundary
    | tok => fail (.UnexpectedToken tok)

end

/-- The termination measure: bytes of the pattern left, plus one while the current token is
not `EOF`. Every `consume_token` that succeeds lowers it. -/
def measure (p : Parser) : Nat :=
  (p.lexer.input.utf8ByteSize - p.lexer.position) + if p.currentToken = .EOF then 0 else 1

/-- A recursion budget for `parse` that is never exhausted: eight nested calls per unit of
`measure` (one round `parse → … → parse_primary` and the loop calls), and seven more. -/
def budget (p : Parser) : Nat := 8 * p.measure + 7

end Parser

/-- `Parser::new(s).parse()`, as `main` calls it. -/
def parsePattern (s : String) : Outcome RegexNode :=
  match Parser.new s with
  | some p => Parser.parse p.budget p
  | none => .panic

end Simplegrep
