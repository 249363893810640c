import SimplegrepLean.Automaton.Build

/-!
# SimplegrepLean — the shape of what `build_from_node` builds

Two readings of the builder, each by structural recursion over the tree. The first counts
the states it appends; the second says which distinctions of the tree it keeps. Both rest on
one reading of the `Repeat` arm, `buildFromNode_repeat`: its two loops, `0..min` and
`min..max`, build `repeatCount range` copies of the child one after the other, and neither
loop makes a copy optional.

* **`fromRegex_size`** — the automaton has `1 + stateCount node` states: `Grows` counts what
  each shape appends, and `Repeat` appends a copy of its child per iteration;
* **`buildFromNode_erase`** — the builder builds the same thing from a tree and from its
  `erase`, where every class and anchor is `.`, every group its body, every `Plus` a `Star`,
  and every range the exact count `{k,k}` of copies it unrolls to.
-/

namespace Simplegrep

namespace NFA

/-! ## §1 — the `Repeat` arm -/

/-- The iterations of the two loops of the `Repeat` arm: `0..range.min`, then
`range.min..max` when there is a `max`. -/
def repeatCount (range : RepeatRange) : Nat :=
  range.min + match range.max with
    | some max => max - range.min
    | none => 0

theorem repeatCount_exactly (k : Nat) : repeatCount (.exactly k) = k := by
  simp [repeatCount, RepeatRange.exactly, RepeatRange.new]

/-- Two loops of `count` and `count'` iterations in a row are one of `count + count'`. -/
theorem repeatBuild_add (f : Nat → List NFAState → Option (Nat × List NFAState)) :
    ∀ a b current states, repeatBuild f (a + b) current states =
      (repeatBuild f a current states).bind fun (current, states) =>
        repeatBuild f b current states
  | 0, b, current, states => by rw [Nat.zero_add]; rfl
  | a + 1, b, current, states => by
    rw [Nat.add_right_comm, repeatBuild, repeatBuild]
    simp only [bind, Option.bind_assoc]
    congr 1
    funext ⟨current, states⟩
    exact repeatBuild_add f a b current states

/-- **The `Repeat` arm unrolls.** Its two loops build `repeatCount range` copies of the child
in a row, each from the exit of the one before: the copies past `min` are not optional, a
missing `max` adds none, and a `max` below `min` takes none away. -/
theorem buildFromNode_repeat (node : RegexNode) (range : RepeatRange) :
    buildFromNode (.Repeat node range) = repeatBuild (buildFromNode node) (repeatCount range) := by
  funext current states
  obtain ⟨min, max⟩ := range
  cases max with
  | none =>
    simp only [buildFromNode, repeatCount, Nat.add_zero, bind, Option.pure_def, Prod.mk.eta,
      Option.bind_some]
  | some max =>
    simp only [buildFromNode, repeatCount, repeatBuild_add]
    rfl

/-! ## §2 — how many states a build appends -/

mutual

/-- The states a build of `node` appends: one per one-character node, the fresh head of
`Star`, `Plus`, `Question` and `Alternation`, and for `Repeat` one copy of the child's states
per iteration. -/
def stateCount : RegexNode → Nat
  | .Concat nodes => stateCounts nodes
  | .Alternation nodes => 1 + stateCounts nodes
  | .Star node | .Plus node | .Question node => 1 + stateCount node
  | .Repeat node range => repeatCount range * stateCount node
  | .Group node => stateCount node
  | _ => 1

/-- The states the builds of `nodes` append, one after the other. -/
def stateCounts : List RegexNode → Nat
  | [] => 0
  | node :: nodes => stateCount node + stateCounts nodes

end

/-- Every build `f` completes appends exactly `k` states. -/
def Grows (f : Nat → List NFAState → Option (Nat × List NFAState)) (k : Nat) : Prop :=
  ∀ e states r states', f e states = some (r, states') → states'.length = states.length + k

theorem setState_length {states states' : List NFAState} {i : Nat} {s : NFAState}
    (h : setState states i s = some states') : states'.length = states.length := by
  unfold setState at h
  split at h <;> cases h
  exact List.length_set ..

theorem Grows.pure : Grows (fun e states => some (e, states)) 0 := by
  rintro _ _ _ _ ⟨⟩; rfl

theorem Grows.bind {f g : Nat → List NFAState → Option (Nat × List NFAState)} {k j : Nat}
    (hf : Grows f k) (hg : Grows g j) :
    Grows (fun e states => (f e states).bind fun (r, states) => g r states) (k + j) := by
  intro e states r states' h
  obtain ⟨⟨r₁, s₁⟩, h₁, h₂⟩ := Option.bind_eq_some.1 h
  rw [hg r₁ s₁ r states' h₂, hf e states r₁ s₁ h₁, Nat.add_assoc]

theorem repeatBuild_grows {f : Nat → List NFAState → Option (Nat × List NFAState)} {k : Nat}
    (hf : Grows f k) : ∀ count, Grows (repeatBuild f count) (count * k)
  | 0 => by rw [Nat.zero_mul]; exact .pure
  | count + 1 => by
    rw [Nat.succ_mul, Nat.add_comm (count * k)]
    exact hf.bind (repeatBuild_grows hf count)

theorem buildLeaf_grows (label : Char) : Grows (buildLeaf label) 1 := by
  intro e states r states' h
  obtain ⟨s₁, h₁, h⟩ := Option.bind_eq_some.1 h
  cases h
  rw [List.length_append, setState_length h₁, List.length_singleton]

theorem buildLoop_grows {f : Nat → List NFAState → Option (Nat × List NFAState)} {k : Nat}
    (hf : Grows f k) (exit : Nat → NFAState) :
    Grows (fun _ states => buildLoop f exit states) (1 + k) := by
  intro e states r states' h
  obtain ⟨⟨r₁, s₁⟩, h₁, h⟩ := Option.bind_eq_some.1 h
  obtain ⟨s₂, h₂, h⟩ := Option.bind_eq_some.1 h
  cases h
  rw [setState_length h₂, hf _ _ r₁ s₁ h₁, List.length_append, List.length_singleton,
    Nat.add_assoc]

mutual

theorem buildFromNode_grows : ∀ node, Grows (buildFromNode node) (stateCount node)
  | .Char c => buildLeaf_grows c
  | .AnyChar | .Digit | .WordChar | .Whitespace => buildLeaf_grows _
  | .StartLine | .EndLine | .StartInput | .EndInput | .WordBoundary => buildLeaf_grows _
  | .Concat nodes => buildConcat_grows nodes
  | .Alternation nodes => by
    intro e states r states' h
    obtain ⟨⟨acc, s₁⟩, h₁, h⟩ := Option.bind_eq_some.1 h
    cases h
    rw [buildAlternatives_grows nodes _ _ _ _ _ h₁, List.length_append, List.length_singleton,
      stateCount, Nat.add_assoc]
  | .Star node | .Plus node | .Question node => buildLoop_grows (buildFromNode_grows node) _
  | .Repeat node range => by
    rw [buildFromNode_repeat, stateCount]
    exact repeatBuild_grows (buildFromNode_grows node) _
  | .Group node => buildFromNode_grows node

theorem buildConcat_grows : ∀ nodes, Grows (buildConcat nodes) (stateCounts nodes)
  | [] => .pure
  | node :: nodes => (buildFromNode_grows node).bind (buildConcat_grows nodes)

/-- The branch loop of `Alternation` appends the states of every branch; rewriting an exit to
`Match` changes no length. -/
theorem buildAlternatives_grows : ∀ (nodes : List RegexNode) (start : Nat) (acc acc' : Option Nat)
    (states states' : List NFAState),
    buildAlternatives nodes start acc states = some (acc', states') →
      states'.length = states.length + stateCounts nodes
  | [], _, _, _, _, _, h => by cases h; rfl
  | node :: nodes, start, acc, acc', states, states', h => by
    obtain ⟨⟨r, s₁⟩, h₁, h⟩ := Option.bind_eq_some.1 h
    have hl₁ := buildFromNode_grows node start states r s₁ h₁
    rw [stateCounts, ← Nat.add_assoc, ← hl₁]
    cases acc with
    | none => exact buildAlternatives_grows nodes start _ acc' s₁ states' h
    | some a =>
      obtain ⟨s₂, h₂, h⟩ := Option.bind_eq_some.1 h
      rw [buildAlternatives_grows nodes start _ acc' s₂ states' h, setState_length h₂]

end

/-- **The size of the automaton.** `from_regex` never panics and returns `1 + stateCount node`
states: the `Start` state of `NFA::new` and those the build appends. `Repeat` builds a fresh
copy of its child for every iteration of its two loops, so nested ranges multiply. -/
theorem fromRegex_size (node : RegexNode) :
    ∃ nfa, fromRegex node = some nfa ∧ nfa.states.length = 1 + stateCount node := by
  obtain ⟨r, states, h, -⟩ := buildFromNode_builds node 0 [.Start] (by decide)
  exact ⟨{ new with states }, by simp [fromRegex, new, h],
    buildFromNode_grows node 0 [.Start] r states h⟩

example : stateCount (.Repeat (.Repeat (.Char 'a') ⟨3, some 3⟩) ⟨2, some 4⟩) = 12 := by decide

/-! ## §3 — what the builder keeps of a tree -/

mutual

/-- What the builder keeps of a tree: every class and anchor becomes `.` (each is built as
the edge `'\0'`), a group its body, `Plus` becomes `Star`, and a range the exact count of
copies its two loops build. -/
def erase : RegexNode → RegexNode
  | .Char c => .Char c
  | .Concat nodes => .Concat (eraseAll nodes)
  | .Alternation nodes => .Alternation (eraseAll nodes)
  | .Star node | .Plus node => .Star (erase node)
  | .Question node => .Question (erase node)
  | .Repeat node range => .Repeat (erase node) (.exactly (repeatCount range))
  | .Group node => erase node
  | _ => .AnyChar

/-- `erase` on each of a list of trees. -/
def eraseAll : List RegexNode → List RegexNode
  | [] => []
  | node :: nodes => erase node :: eraseAll nodes

end

example :
    erase (.Plus (.Group (.Concat [.Digit, .StartLine]))) = .Star (.Concat [.AnyChar, .AnyChar]) :=
  rfl

/-- The child loop of `Concat` builds the same from the erased children. -/
theorem buildConcat_erase {nodes : List RegexNode}
    (h : ∀ node ∈ nodes, buildFromNode (erase node) = buildFromNode node) :
    buildConcat (eraseAll nodes) = buildConcat nodes := by
  induction nodes with
  | nil => rfl
  | cons node nodes ih =>
    rw [List.forall_mem_cons] at h
    funext e states
    simp only [eraseAll, buildConcat, h.1, ih h.2]

/-- The branch loop of `Alternation` builds the same from the erased branches. -/
theorem buildAlternatives_erase {nodes : List RegexNode}
    (h : ∀ node ∈ nodes, buildFromNode (erase node) = buildFromNode node) :
    buildAlternatives (eraseAll nodes) = buildAlternatives nodes := by
  induction nodes with
  | nil => rfl
  | cons node nodes ih =>
    rw [List.forall_mem_cons] at h
    funext start acc states
    simp only [eraseAll, buildAlternatives, h.1, ih h.2]

/-- **What the builder keeps of a tree.** From every entry and state vector, `build_from_node`
builds from `erase node` exactly what it builds from `node`: `\d`, `\w`, `\s` and the anchors
are all built as `.`, a group as its body, `a+` as `a*`, and a range `{m,M}` as the fixed
count `{k,k}` its loops unroll to. So `from_regex` cannot tell these trees apart. -/
theorem buildFromNode_erase : ∀ node, buildFromNode (erase node) = buildFromNode node
  | .Char _ | .AnyChar | .Digit | .WordChar | .Whitespace => rfl
  | .StartLine | .EndLine | .StartInput | .EndInput | .WordBoundary => rfl
  | .Concat nodes | .Alternation nodes => by
    have h : ∀ node ∈ nodes, buildFromNode (erase node) = buildFromNode node :=
      fun node _ => buildFromNode_erase node
    funext e states
    simp only [erase, buildFromNode, buildConcat_erase h, buildAlternatives_erase h]
  | .Star node | .Plus node | .Question node => by
    funext e states
    simp only [erase, buildFromNode, buildFromNode_erase node]
  | .Repeat node range => by
    rw [erase, buildFromNode_repeat, buildFromNode_repeat, buildFromNode_erase node,
      repeatCount_exactly]
  | .Group node => by
    rw [erase, buildFromNode_erase node]
    rfl

end NFA

end Simplegrep
