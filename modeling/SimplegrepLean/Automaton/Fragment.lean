import SimplegrepLean.Automaton.Run
import SimplegrepLean.Semantics

/-!
# SimplegrepLean — the fragments `build_from_node` leaves

`build_from_node(n, e)` is meant to leave a fragment of the state graph whose paths from the
entry `e` to the returned exit spell the language of `n`. The one-character arms write their
edge on `e`, and `Concat`, `Repeat` and `Group` chain fragments from it; but `Star`, `Plus`,
`Question` and `Alternation` push a fresh `Start` state and build their fragment from there,
never writing on `e` (`buildFromNode_fresh`). The entry keeps its edgeless state and the exit
is fresh, so no path joins them:

* **`buildFromNode_detached`** — for these four arms, from an edgeless entry, no word labels
  a path from the entry to the exit, not even the empty word when the node matches it;
* **`star_fragment_unreachable`** — `a*` built from `[Start]`: the empty word is in its
  language, no path leads from `0` to the exit `1`, and the exit carries the edge `'a' → 2`.
-/

namespace Simplegrep

namespace NFA

/-- The arms that build their fragment from a fresh `Start` state, whatever the entry. -/
inductive Detached : RegexNode → Prop
  | alternation (nodes : List RegexNode) : Detached (.Alternation nodes)
  | star (node : RegexNode) : Detached (.Star node)
  | plus (node : RegexNode) : Detached (.Plus node)
  | question (node : RegexNode) : Detached (.Question node)

theorem buildFromNode_fresh {node : RegexNode} (h : Detached node) :
    BuildsFresh (buildFromNode node) := by
  cases h with
  | alternation nodes => exact alternation_fresh fun states =>
      buildAlternatives_spec nodes states.length none (states ++ [.Start]) (by simp) (by simp)
  | star node | plus node =>
    exact buildLoop_fresh (buildFromNode_builds node) _ fun _ _ h => by simpa using h.symm
  | question node => exact buildLoop_fresh (buildFromNode_builds node) _ fun _ _ h => by simp at h

/-- A detached build from an edgeless entry in range: the exit is fresh, and no path joins
the entry, whose state is left as it was, to it. -/
theorem BuildsFresh.not_path {f : Nat → List NFAState → Option (Nat × List NFAState)}
    (hf : BuildsFresh f) {states : List NFAState} {e : Nat} (he : e < states.length)
    (hedge : ∀ s, states[e]? = some s → s.target = none) :
    ∃ r states', f e states = some (r, states') ∧ BuildSpec states e r states' ∧ r ≠ e ∧
      ∀ w, ¬Path states' e w r := by
  obtain ⟨r, states', h, spec⟩ := hf e states
  have hfresh : states.length ≤ r := by
    rcases (spec (r + 1)).exit_mem with h | h <;> omega
  have hsame : states'[e]? = states[e]? := (spec (e + 1)).get?_eq e he (by omega)
  refine ⟨r, states', h, spec e, by omega, fun w hp => ?_⟩
  cases hp with
  | refl => omega
  | transition hs _ _ | epsilon hs _ => rw [hsame] at hs; simpa using hedge _ hs

/-- **The four arms leave the entry unconnected.** Built from an entry whose state has no
edge (`Start` or `Match`), `Star`, `Plus`, `Question` and `Alternation` do not panic and
return an exit other than the entry that no path reaches from it, whatever the word. -/
theorem buildFromNode_detached {node : RegexNode} (hnode : Detached node)
    {states : List NFAState} {e : Nat} (he : e < states.length)
    (hedge : ∀ s, states[e]? = some s → s.target = none) :
    ∃ r states', buildFromNode node e states = some (r, states') ∧ r ≠ e ∧
      ∀ w, ¬Path states' e w r :=
  let ⟨r, states', h, _, hne, hp⟩ := (buildFromNode_fresh hnode).not_path he hedge
  ⟨r, states', h, hne, hp⟩

/-- `buildFromNode_detached` for `a*` built from the one `Start` state. -/
theorem buildFromNode_detached_star :
    Detached (.Star (.Char 'a')) ∧ 0 < [NFAState.Start].length ∧
      (∀ s, [NFAState.Start][0]? = some s → s.target = none) ∧
      ∃ r states', buildFromNode (.Star (.Char 'a')) 0 [.Start] = some (r, states') ∧ r ≠ 0 ∧
        ∀ w, ¬Path states' 0 w r :=
  have hedge : ∀ s, [NFAState.Start][0]? = some s → s.target = none := by
    rintro s ⟨⟩; rfl
  ⟨.star _, by decide, hedge, buildFromNode_detached (.star _) (by decide) hedge⟩

/-- **`a*` is built off to the side.** From the one `Start` state, `build_from_node(a*, 0)`
returns the exit `1`. The empty word is in the language of `a*`, yet no path leads from `0`
to `1`; and the exit is not edgeless, it carries the edge `'a' → 2`. -/
theorem star_fragment_unreachable :
    buildFromNode (.Star (.Char 'a')) 0 [.Start] =
        some (1, [.Start, .Transition 'a' 2, .EpsilonTransition 1]) ∧
      Matches (.Star (.Char 'a')) "" ∧
      ¬Path [.Start, .Transition 'a' 2, .EpsilonTransition 1] 0 [] 1 ∧
      [NFAState.Start, .Transition 'a' 2, .EpsilonTransition 1][1]? =
        some (.Transition 'a' 2) := by
  refine ⟨rfl, .starNil, ?_, rfl⟩
  rintro (_ | _ | ⟨h, _⟩)
  cases h

end NFA

end Simplegrep
