import Mathlib.Data.List.Forall2
import SimplegrepLean.Automaton.Run
import SimplegrepLean.Semantics

/-!
# SimplegrepLean — the chains `build_from_node` lays down

The one-character arms of `build_from_node` write one edge on the entry and append a fresh
`Match` state; `Concat`, `Group` and the copies of `Repeat` build each piece from the exit of
the one before. A tree with no `Star`, `Plus`, `Question` or `Alternation` in the way thus
builds a straight chain of `Transition` edges from the entry, one per character, ending on an
edgeless exit. `labels` computes the labels of that chain by the builder's own recursion.

* `Chain.path_iff` — along a chain that ends on an edgeless state, the paths from its start
  to its end read one character per label, each accepted by its label;
* `Chain.run_iff` — a chain has no epsilon edge, so the runs of `matches` along it are its
  paths;
* **`buildFromNode_spells`** — from an edgeless entry, every tree with `labels` builds without
  panicking a fragment whose paths from the entry to the exit are exactly the words its labels
  accept: a class or an anchor is a `'\0'` edge, and every copy of a `Repeat`, the optional
  ones included, is laid down.
-/

namespace Simplegrep

namespace NFA

/-! ## §1 — chains of edges -/

/-- An edge labelled `l` is taken on the character `x`: the test `transition` makes. -/
def LabelAccepts (l x : Char) : Prop := l = '\x00' ∨ l = x

/-- State `i` has no edge: a `Start` or a `Match`. -/
def Edgeless (states : List NFAState) (i : Nat) : Prop :=
  ∀ s, states[i]? = some s → s.target = none

/-- `Chain states lo i ls j`: from `i`, one `Transition` edge per label of `ls`, in order,
leads to `j`, and every edge leads to a state `≥ lo`. -/
inductive Chain (states : List NFAState) (lo : Nat) : Nat → List Char → Nat → Prop
  | nil (i : Nat) : Chain states lo i [] i
  | cons {i j k : Nat} {l : Char} {ls : List Char} : states[i]? = some (.Transition l j) →
      lo ≤ j → Chain states lo j ls k → Chain states lo i (l :: ls) k

/-- The one state of `NFA::new` has no edge. -/
theorem edgeless_start : Edgeless [NFAState.Start] 0 := by rintro s ⟨⟩; rfl

theorem Edgeless.ne {states : List NFAState} {i j k : Nat} {l : Char} (hk : Edgeless states k)
    (hi : states[i]? = some (.Transition l j)) : i ≠ k := by
  rintro rfl; simpa using hk _ hi

theorem Chain.append {states : List NFAState} {lo i j k : Nat} {ls ls' : List Char}
    (h₁ : Chain states lo i ls j) (h₂ : Chain states lo j ls' k) :
    Chain states lo i (ls ++ ls') k := by
  induction h₁ with
  | nil => exact h₂
  | cons hi hj _ ih => exact .cons hi hj (ih h₂)

theorem Chain.mono {states : List NFAState} {lo lo' i k : Nat} {ls : List Char}
    (h : Chain states lo i ls k) (hle : lo' ≤ lo) : Chain states lo' i ls k := by
  induction h with
  | nil => exact .nil _
  | cons hi hj _ ih => exact .cons hi (hle.trans hj) ih

/-- A later build from the end of a chain leaves the chain in place: every state along it
before the end is an old state other than the build's entry. -/
theorem Chain.frame {states states' : List NFAState} {lo i j r : Nat} {ls : List Char}
    (h : Chain states lo i ls j) (hj : Edgeless states j) (spec : BuildSpec states j r states') :
    Chain states' lo i ls j := by
  induction h with
  | nil => exact .nil _
  | cons hi hlo _ ih =>
    refine .cons ?_ hlo (ih hj spec)
    rw [spec.get?_eq _ (List.getElem?_eq_some_iff.1 hi).1 (hj.ne hi), hi]

/-- Rewriting the end of a chain leaves the chain in place. -/
theorem Chain.set {states : List NFAState} {lo i j : Nat} {ls : List Char}
    (h : Chain states lo i ls j) (hj : Edgeless states j) (x : NFAState) :
    Chain (states.set j x) lo i ls j := by
  induction h with
  | nil => exact .nil _
  | cons hi hlo _ ih =>
    refine .cons ?_ hlo (ih hj)
    rw [List.getElem?_set_ne (hj.ne hi).symm, hi]

/-- The words of a chain label paths along it. -/
theorem Chain.path {states : List NFAState} {lo i k : Nat} {ls w : List Char}
    (h : Chain states lo i ls k) (hw : List.Forall₂ LabelAccepts ls w) : Path states i w k := by
  induction h generalizing w with
  | nil => exact List.forall₂_nil_left_iff.1 hw ▸ .refl _
  | cons hi _ _ ih =>
    cases hw with
    | cons hl hw => exact .transition hi hl (ih hw)

/-- **The paths along a chain.** When the chain ends on an edgeless state, a path from its
start to its end reads one character per label, each accepted by its label. -/
theorem Chain.path_iff {states : List NFAState} {lo i k : Nat} {ls : List Char}
    (h : Chain states lo i ls k) (hk : Edgeless states k) {w : List Char} :
    Path states i w k ↔ List.Forall₂ LabelAccepts ls w := by
  refine ⟨fun hp => ?_, h.path⟩
  induction h generalizing w with
  | nil =>
    cases hp with
    | refl => exact .nil
    | transition hs _ _ | epsilon hs _ => simpa using hk _ hs
  | cons hi _ _ ih =>
    cases hp with
    | refl => exact absurd rfl (hk.ne hi)
    | transition hs hl hp =>
      cases hi.symm.trans hs
      exact .cons hl (ih hk hp)
    | epsilon hs _ => cases hi.symm.trans hs

/-- No move of `matches` leaves an edgeless state. -/
theorem Edgeless.not_moves {nfa : NFA} {i j : Nat} {x : Char} (hi : Edgeless nfa.states i) :
    ¬nfa.Moves i x j := by
  rintro (⟨hs, _⟩ | hs) <;> simpa using hi _ hs

/-- **The runs along a chain.** A chain has no epsilon edge, so the runs of `matches` along it
(one edge per character) are its paths. -/
theorem Chain.run_iff {nfa : NFA} {lo i k : Nat} {ls : List Char}
    (h : Chain nfa.states lo i ls k) (hk : Edgeless nfa.states k) {w : List Char} :
    nfa.Run i w k ↔ List.Forall₂ LabelAccepts ls w := by
  induction h generalizing w with
  | nil =>
    refine ⟨fun hr => ?_, fun hw => List.forall₂_nil_left_iff.1 hw ▸ .nil _⟩
    cases hr with
    | nil => exact .nil
    | cons hm _ => exact absurd hm hk.not_moves
  | cons hi _ _ ih =>
    refine ⟨fun hr => ?_, fun hw => ?_⟩
    · cases hr with
      | nil => exact absurd rfl (hk.ne hi)
      | cons hm hr =>
        rcases hm with ⟨hs, hl⟩ | hs <;> cases hi.symm.trans hs
        exact .cons hl ((ih hk).1 hr)
    · cases hw with
      | cons hl hw => exact .cons (.transition hi hl) ((ih hk).2 hw)

/-! ## §2 — the chain of a build -/

/-- The chain of `repeatBuild`: `count` copies of the child's labels, `none` when the child
lays no chain and at least one copy is built. -/
def repeatLabels (child : Option (List Char)) : Nat → Option (List Char)
  | 0 => some []
  | count + 1 => do
    let ls ← child
    let rest ← repeatLabels child count
    pure (ls ++ rest)

mutual

/-- The labels of the chain the build of a tree lays down from its entry, by the recursion of
`build_from_node`: `Char(ch)` is an edge `ch`, the other one-character arms an edge `'\0'`;
`none` where `Star`, `Plus`, `Question` or `Alternation` builds off to the side. -/
def labels : RegexNode → Option (List Char)
  | .Char ch => some [ch]
  | .Concat nodes => concatLabels nodes
  | .Alternation _ | .Star _ | .Plus _ | .Question _ => none
  | .Repeat node range => do
    let first ← repeatLabels (labels node) range.min
    let rest ← match range.max with
      | some max => repeatLabels (labels node) (max - range.min)
      | none => some []
    pure (first ++ rest)
  | .Group node => labels node
  | _ => some ['\x00']

/-- The labels of the children of a `Concat`, one after the other. -/
def concatLabels : List RegexNode → Option (List Char)
  | [] => some []
  | node :: nodes => do
    let ls ← labels node
    let rest ← concatLabels nodes
    pure (ls ++ rest)

end

example : labels (.Repeat (.Digit) ⟨1, some 3⟩) = some ['\x00', '\x00', '\x00'] := by decide

/-- `f` lays down the chain `ls` from every entry in range, through fresh states, without
panicking; it meets the build invariant, and its exit has no edge when the entry had none or
the chain is not empty (a non-empty chain overwrites the entry's edge). -/
def BuildsChain (f : Nat → List NFAState → Option (Nat × List NFAState)) (ls : List Char) :
    Prop :=
  ∀ e states, e < states.length →
    ∃ r states', f e states = some (r, states') ∧ BuildSpec states e r states' ∧
      Chain states' states.length e ls r ∧ (Edgeless states e ∨ ls ≠ [] → Edgeless states' r)

theorem BuildsChain.pure : BuildsChain (fun e states => some (e, states)) [] :=
  fun e states _ => ⟨e, states, rfl, .refl states e, .nil e, fun h => h.resolve_right (· rfl)⟩

/-- Two chains in a row: the second build leaves the first chain in place. -/
theorem BuildsChain.bind {f g : Nat → List NFAState → Option (Nat × List NFAState)}
    {ls ls' : List Char} (hf : BuildsChain f ls) (hg : BuildsChain g ls') :
    BuildsChain (fun e states => (f e states).bind fun (r, states) => g r states) (ls ++ ls') := by
  intro e states he
  obtain ⟨r, s₁, h₁, spec₁, c₁, hr⟩ := hf e states he
  obtain ⟨r₂, s₂, h₂, spec₂, c₂, hr₂⟩ := hg r s₁ (spec₁.exit_lt he)
  have c₁' : Chain s₂ states.length e ls r := by
    cases ls with
    | nil => cases c₁; exact .nil _
    | cons => exact c₁.frame (hr (.inr (List.cons_ne_nil _ _))) spec₂
  refine ⟨r₂, s₂, by simp [h₁, h₂], spec₁.trans spec₂, c₁'.append (c₂.mono spec₁.length_le),
    fun h => hr₂ ?_⟩
  by_cases hls' : ls' = []
  · subst hls'
    rw [List.append_nil] at h
    exact .inl (hr h)
  · exact .inr hls'

theorem buildLeaf_chain (label : Char) : BuildsChain (buildLeaf label) [label] := by
  intro e states he
  have h : buildLeaf label e states =
      some (states.length, states.set e (.Transition label states.length) ++ [.Match]) := by
    simp [buildLeaf, he]
  obtain ⟨r, states', h', spec⟩ := buildLeaf_builds label e states he
  rw [h, Option.some.injEq, Prod.mk.injEq] at h'
  obtain ⟨rfl, rfl⟩ := h'
  refine ⟨_, _, h, spec, .cons ?_ le_rfl (.nil _), fun _ s hs => ?_⟩
  · rw [List.getElem?_append_left (by simpa using he), List.getElem?_set_self he]
  simp only [List.length_append, List.length_set, List.length_singleton, Nat.lt_add_one,
    List.getElem?_eq_getElem, List.getElem_concat_length, Option.some.injEq] at hs
  simp [← hs]

theorem repeatBuild_chain {f : Nat → List NFAState → Option (Nat × List NFAState)}
    {child : Option (List Char)} (hf : ∀ ls, child = some ls → BuildsChain f ls) :
    ∀ count ls, repeatLabels child count = some ls → BuildsChain (repeatBuild f count) ls
  | 0, _, h => by cases h; exact .pure
  | count + 1, _, h => by
    simp only [repeatLabels, bind, Option.bind_eq_some, pure, Option.some.injEq] at h
    obtain ⟨ls, hls, rest, hrest, rfl⟩ := h
    exact (hf ls hls).bind (repeatBuild_chain hf count rest hrest)

mutual

/-- **Every tree with `labels` builds its chain**, by structural recursion. -/
theorem buildFromNode_chain : ∀ node ls, labels node = some ls →
    BuildsChain (buildFromNode node) ls
  | .Char c, _, h => by cases h; exact buildLeaf_chain c
  | .AnyChar, _, h | .Digit, _, h | .WordChar, _, h | .Whitespace, _, h | .StartLine, _, h
  | .EndLine, _, h | .StartInput, _, h | .EndInput, _, h | .WordBoundary, _, h => by
    cases h; exact buildLeaf_chain _
  | .Concat nodes, ls, h => buildConcat_chain nodes ls h
  | .Alternation _, _, h | .Star _, _, h | .Plus _, _, h | .Question _, _, h => by cases h
  | .Repeat node ⟨min, max⟩, _, h => by
    have hrep := @repeatBuild_chain (buildFromNode node) (labels node)
      fun ls hls => buildFromNode_chain node ls hls
    cases max with
    | none =>
      simp only [labels, Option.pure_def, Option.bind_eq_bind, Option.some_bind, List.append_nil,
        Option.bind_some] at h
      have := (hrep min _ h).bind .pure
      rw [List.append_nil] at this
      exact this
    | some max =>
      simp only [labels, bind, Option.bind_eq_some, pure, Option.some.injEq] at h
      obtain ⟨first, h₁, rest, h₂, rfl⟩ := h
      exact (hrep min first h₁).bind (hrep (max - min) rest h₂)
  | .Group node, ls, h => buildFromNode_chain node ls h

/-- The child loop of `Concat`. -/
theorem buildConcat_chain : ∀ nodes ls, concatLabels nodes = some ls →
    BuildsChain (buildConcat nodes) ls
  | [], _, h => by cases h; exact .pure
  | node :: nodes, _, h => by
    simp only [concatLabels, bind, Option.bind_eq_some, pure, Option.some.injEq] at h
    obtain ⟨ls, hls, rest, hrest, rfl⟩ := h
    exact (buildFromNode_chain node ls hls).bind (buildConcat_chain nodes rest hrest)

end

/-- **What the fragment of a chain-shaped tree spells.** Built from an edgeless entry in
range, a tree with `labels ls` does not panic, and the paths from the entry to the exit it
returns are exactly the words of `ls.length` characters that the labels accept one by one. -/
theorem buildFromNode_spells {node : RegexNode} {ls : List Char} (hl : labels node = some ls)
    {states : List NFAState} {e : Nat} (he : e < states.length) (hedge : Edgeless states e) :
    ∃ r states', buildFromNode node e states = some (r, states') ∧
      ∀ w, Path states' e w r ↔ List.Forall₂ LabelAccepts ls w := by
  obtain ⟨r, states', h, -, hc, hr⟩ := buildFromNode_chain node ls hl e states he
  exact ⟨r, states', h, fun _ => hc.path_iff (hr (.inl hedge))⟩

/-- `buildFromNode_spells` on `a\x7b1,3]` from the one `Start` state: the optional copies are
laid down too, so the fragment spells `aaa` only. -/
theorem buildFromNode_spells_repeat :
    labels (.Repeat (.Char 'a') ⟨1, some 3⟩) = some ['a', 'a', 'a'] ∧
      0 < [NFAState.Start].length ∧ Edgeless [.Start] 0 ∧
      ∃ r states', buildFromNode (.Repeat (.Char 'a') ⟨1, some 3⟩) 0 [.Start] =
        some (r, states') ∧ ∀ w, Path states' 0 w r ↔ List.Forall₂ LabelAccepts ['a', 'a', 'a'] w :=
  have hl : labels (.Repeat (.Char 'a') ⟨1, some 3⟩) = some ['a', 'a', 'a'] := rfl
  ⟨hl, by decide, edgeless_start, buildFromNode_spells hl (by decide) edgeless_start⟩

end NFA

end Simplegrep
