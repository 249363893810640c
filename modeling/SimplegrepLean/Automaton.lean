import SimplegrepLean.Ast

/-!
# SimplegrepLean — the automaton

`NFA` of `simplegrep/src/automaton.rs`: a vector of states, written in place while a syntax
tree is compiled into it, and a matcher that runs it over a line.

* `NFA.buildFromNode` — `build_from_node`: compile a node starting from the entry state
  `current`, return the fragment's exit. It reads and writes only `self.states`, so it is a
  function of the state vector. Indexing `self.states[i] = …` out of range panics (`none`).
* `NFA.fromRegex` — `from_regex`: `NFA::new()` (one `Start` state, `start = accept = 0`)
  and one build from state `0`. The `accept` field is never written again.
* `NFA.matches` — `matches` with its helper `transition`: the set of current states as a
  `Vec<usize>`, one step per character, and `contains(&self.accept)` at the end.
-/

namespace Simplegrep

/-- `NFAState`. A `Transition` labelled `'\0'` matches every character. -/
inductive NFAState where
  | Start
  | Match
  | Transition (c : Char) (next : Nat)
  | EpsilonTransition (next : Nat)
deriving DecidableEq, Repr

/-- `NFA`. -/
structure NFA where
  states : List NFAState
  start : Nat
  accept : Nat
deriving DecidableEq, Repr

namespace NFA

/-- `NFA::new`. -/
def new : NFA := { states := [.Start], start := 0, accept := 0 }

/-- `self.states[i] = s`, which panics when `i` is out of range. -/
def setState (states : List NFAState) (i : Nat) (s : NFAState) : Option (List NFAState) :=
  if i < states.length then some (states.set i s) else none

/-- The arms for one-character nodes: `self.states[current_state] = Transition(label, n)`
where `n = self.states.len()`, then `push(Match)`; the exit is `n`. `Char(ch)` writes `ch`,
every other such arm (`AnyChar`, `Digit`, `WordChar`, `Whitespace`, the anchors) `'\0'`. -/
def buildLeaf (label : Char) (current : Nat) (states : List NFAState) :
    Option (Nat × List NFAState) := do
  let newState := states.length
  let states ← setState states current (.Transition label newState)
  pure (newState, states ++ [.Match])

/-- The arms `Star`, `Plus` and `Question`: push a fresh `Start` state, build the inner node
from it, rewrite the inner exit to `exit start_state`, and return the fresh state. The entry
state `current_state` is not read. -/
def buildLoop (buildInner : Nat → List NFAState → Option (Nat × List NFAState))
    (exit : Nat → NFAState) (states : List NFAState) : Option (Nat × List NFAState) := do
  let startState := states.length
  let (branchAccept, states) ← buildInner startState (states ++ [.Start])
  let states ← setState states branchAccept (exit startState)
  pure (startState, states)

/-- `for _ in 0..count { current = build(current) }`. -/
def repeatBuild (build : Nat → List NFAState → Option (Nat × List NFAState)) :
    Nat → Nat → List NFAState → Option (Nat × List NFAState)
  | 0, current, states => pure (current, states)
  | count + 1, current, states => do
    let (current, states) ← build current states
    repeatBuild build count current states

mutual

/-- `build_from_node`. -/
def buildFromNode : RegexNode → Nat → List NFAState → Option (Nat × List NFAState)
  | .Char ch, current, states => buildLeaf ch current states
  | .AnyChar, current, states => buildLeaf '\x00' current states
  | .Concat nodes, current, states => buildConcat nodes current states
  | .Alternation nodes, _, states => do
    let startState := states.length
    let (acceptState, states) ← buildAlternatives nodes startState none (states ++ [.Start])
    pure (acceptState.getD startState, states)
  | .Star node, _, states => buildLoop (buildFromNode node) .EpsilonTransition states
  | .Plus node, _, states => buildLoop (buildFromNode node) .EpsilonTransition states
  | .Question node, _, states => buildLoop (buildFromNode node) (fun _ => .Match) states
  | .Repeat node range, current, states => do
    let (current, states) ← repeatBuild (buildFromNode node) range.min current states
    match range.max with
    | some max => repeatBuild (buildFromNode node) (max - range.min) current states
    | none => pure (current, states)
  | .Group node, current, states => buildFromNode node current states
  | .Digit, current, states => buildLeaf '\x00' current states
  | .WordChar, current, states => buildLeaf '\x00' current states
  | .Whitespace, current, states => buildLeaf '\x00' current states
  | .StartLine, current, states => buildLeaf '\x00' current states
  | .EndLine, current, states => buildLeaf '\x00' current states
  | .StartInput, current, states => buildLeaf '\x00' current states
  | .EndInput, current, states => buildLeaf '\x00' current states
  | .WordBoundary, current, states => buildLeaf '\x00' current states

/-- The `for node in nodes` loop of the `Concat` arm: each child is built from the exit of
the previous one. -/
def buildConcat : List RegexNode → Nat → List NFAState → Option (Nat × List NFAState)
  | [], current, states => pure (current, states)
  | node :: nodes, current, states => do
    let (current, states) ← buildFromNode node current states
    buildConcat nodes current states

/-- The `for node in nodes` loop of the `Alternation` arm: every branch is built from
`start_state`; the first exit is kept as `accept_state`, every later exit is rewritten to
`Match`. -/
def buildAlternatives : List RegexNode → Nat → Option Nat → List NFAState →
    Option (Option Nat × List NFAState)
  | [], _, acceptState, states => pure (acceptState, states)
  | node :: nodes, startState, acceptState, states => do
    let (branchAccept, states) ← buildFromNode node startState states
    match acceptState with
    | none => buildAlternatives nodes startState (some branchAccept) states
    | some accept => do
      let states ← setState states branchAccept .Match
      buildAlternatives nodes startState (some accept) states

end

/-- `NFA::from_regex`: `none` when the build panics. -/
def fromRegex (node : RegexNode) : Option NFA :=
  (buildFromNode node 0 new.states).map fun (_, states) => { new with states }

/-- `transition`: the outer `none` is the panic of `self.states[state]`, the inner option is
the method's own `Option<Vec<usize>>`. An `EpsilonTransition` is taken on any character. -/
def transition (nfa : NFA) (state : Nat) (ch : Char) : Option (Option (List Nat)) :=
  nfa.states[state]?.map fun
    | .Transition expected next =>
      if expected = '\x00' ∨ expected = ch then some [next] else none
    | .EpsilonTransition next => some [next]
    | _ => none

/-- The inner loop of `matches`: `for &state in &current_states`, extending `next_states`
with every `transition(state, ch)` that is `Some`. -/
def stepStates (nfa : NFA) (ch : Char) : List Nat → Option (List Nat)
  | [] => pure []
  | state :: states => do
    let new ← nfa.transition state ch
    let rest ← nfa.stepStates ch states
    pure (new.getD [] ++ rest)

/-- The outer loop of `matches` from the current states `current`: an empty step returns
`false` at once, the end of the input returns `current_states.contains(&self.accept)`. -/
def matchFrom (nfa : NFA) : List Nat → List Char → Option Bool
  | current, [] => pure (current.contains nfa.accept)
  | current, ch :: input => do
    let next ← nfa.stepStates ch current
    if next.isEmpty then pure false else nfa.matchFrom next input

/-- `matches`: `none` is a panic. -/
def «matches» (nfa : NFA) (input : String) : Option Bool :=
  nfa.matchFrom [nfa.start] input.data

end NFA

end Simplegrep
