import Mathlib.Computability.Language
import SimplegrepLean.Automaton.Chain

/-!
# SimplegrepLean — the loops of `Star`, `Plus` and `Question`, the branches of `Alternation`

`Star`, `Plus` and `Question` push a fresh loop head `h`, build their child from it, and
rewrite the child's exit: to an `EpsilonTransition(h)` for `Star` and `Plus`, to `Match` for
`Question`; `h`, the fresh state `states.length`, is the exit they return. When the child lays a chain, the chain leaves `h`
through fresh states only, so a path from `h` back to `h` can only go round the loop.
`Alternation` pushes a fresh head as well, and builds every branch from it:

* **`buildFromNode_star_loop`** — for `Star` and `Plus` alike, the paths from the loop head
  back to it spell exactly the Kleene star of the child's chain: the loop itself is right, and
  `Plus` admits the empty word there as `Star` does;
* **`buildFromNode_question_loop`** — for `Question`, the only path from the loop head back to
  it is the empty one, and the child's words lead from the head to the child's exit, now a
  `Match` state, which is not the exit returned when the child's chain is not empty;
* **`buildFromNode_alternation_last`** — whatever the other branches, when the last one lays
  a non-empty chain, the words leading from the head to its exit are exactly that branch's,
  and no non-empty word leads from the head to the exit returned: `a|b` spells `b` from its
  head, and its exit is out of reach.
-/

namespace Simplegrep

namespace NFA

open Computability

/-! ## §1 — the loops of `Star`, `Plus` and `Question` -/

/-- The words a chain with labels `ls` spells. -/
def chainLanguage (ls : List Char) : Language Char := {w | List.Forall₂ LabelAccepts ls w}

/-- Paths compose. -/
theorem Path.append {states : List NFAState} {i j k : Nat} {w w' : List Char}
    (h₁ : Path states i w j) (h₂ : Path states j w' k) : Path states i (w ++ w') k := by
  induction h₁ with
  | refl => exact h₂
  | transition hs hc _ ih => exact .transition hs hc (ih h₂)
  | epsilon hs _ ih => exact .epsilon hs (ih h₂)

/-- Along a chain through states above `h` whose end has an epsilon edge back to `h`, a path
to `h` first reads a word of the chain, then goes on from `h`. -/
theorem Chain.path_to_head {states : List NFAState} {lo i k h : Nat} {ls w : List Char}
    (hc : Chain states lo i ls k) (hlo : h < lo) (hi : i ≠ h)
    (hk : states[k]? = some (.EpsilonTransition h)) (hp : Path states i w h) :
    ∃ v w', w = v ++ w' ∧ List.Forall₂ LabelAccepts ls v ∧ Path states h w' h := by
  induction hc generalizing w with
  | nil =>
    cases hp with
    | refl => exact absurd rfl hi
    | transition hs _ _ => cases hk.symm.trans hs
    | epsilon hs hp => cases hk.symm.trans hs; exact ⟨[], w, rfl, .nil, hp⟩
  | cons hs hj _ ih =>
    cases hp with
    | refl => exact absurd rfl hi
    | transition hs' hl hp =>
      cases hs.symm.trans hs'
      obtain ⟨v, w', rfl, hv, hp'⟩ := ih (by omega) hk hp
      exact ⟨_ :: v, w', rfl, .cons hl hv, hp'⟩
    | epsilon hs' _ => cases hs.symm.trans hs'

/-- Along a chain through states above `h` that ends on an edgeless state, no path leads to
`h`. -/
theorem Chain.not_path_to {states : List NFAState} {lo i k h : Nat} {ls w : List Char}
    (hc : Chain states lo i ls k) (hlo : h < lo) (hi : i ≠ h) (hk : Edgeless states k) :
    ¬Path states i w h := by
  induction hc generalizing w with
  | nil =>
    intro hp
    cases hp with
    | refl => exact hi rfl
    | transition hs _ _ | epsilon hs _ => simpa using hk _ hs
  | cons hs hj _ ih =>
    intro hp
    cases hp with
    | refl => exact hi rfl
    | transition hs' _ hp => cases hs.symm.trans hs'; exact ih (by omega) hk hp
    | epsilon hs' _ => cases hs.symm.trans hs'

/-- Along a non-empty chain through states above `x` that ends on an edgeless state, the only
path from the chain's start to `x` is the empty one. -/
theorem Chain.path_from_start {states : List NFAState} {lo i k x : Nat} {ls w : List Char}
    (hc : Chain states lo i ls k) (hls : ls ≠ []) (hlo : x < lo) (hk : Edgeless states k)
    (hp : Path states i w x) : i = x ∧ w = [] := by
  obtain _ | ⟨hs, hj, hc'⟩ := hc
  · exact absurd rfl hls
  cases hp with
  | refl => exact ⟨rfl, rfl⟩
  | transition hs' _ hp =>
    cases hs.symm.trans hs'
    exact absurd hp (hc'.not_path_to hlo (by omega) hk)
  | epsilon hs' _ => cases hs.symm.trans hs'

/-- A state whose one edge is an epsilon edge to itself: every path from it to itself is
empty. -/
theorem path_self_loop {states : List NFAState} {h : Nat}
    (hh : states[h]? = some (.EpsilonTransition h)) {i k : Nat} {w : List Char}
    (hp : Path states i w k) : i = h → w = [] := by
  induction hp with
  | refl => exact fun _ => rfl
  | transition hs _ _ _ => rintro rfl; cases hh.symm.trans hs
  | epsilon hs _ ih => rintro rfl; cases hh.symm.trans hs; exact ih rfl

/-- The fragment `buildLoop` leaves around a child that lays a chain: the loop head `h` is the
fresh state, the child's chain runs from it through fresher states to its exit `r`, and `r`
carries the edge `exit h`. -/
theorem buildLoop_chain {f : Nat → List NFAState → Option (Nat × List NFAState)}
    {ls : List Char} (hf : BuildsChain f ls) (exit : Nat → NFAState) (states : List NFAState) :
    ∃ r states',
      buildLoop f exit states = some (states.length, states'.set r (exit states.length)) ∧
      r < states'.length ∧ Chain states' (states.length + 1) states.length ls r ∧
      Edgeless states' r := by
  have hedge : Edgeless (states ++ [.Start]) states.length := fun s hs => by
    simp only [List.getElem?_append_right le_rfl, Nat.sub_self, List.getElem?_cons_zero,
      Option.some.injEq] at hs
    simp [← hs]
  obtain ⟨r, s₂, h₂, spec, hc, hr⟩ := hf states.length (states ++ [.Start]) (by simp)
  have hrlt := spec.exit_lt (by simp)
  refine ⟨r, s₂, by simp [buildLoop, h₂, hrlt], hrlt, by simpa using hc, hr (.inl hedge)⟩

/-- **The loop of `Star` and `Plus` is a Kleene star.** Built from any entry, `Star(n)` and
`Plus(n)` with a child that lays the chain `ls` return their loop head `h`, the fresh state
`states.length`, and the paths from `h` back to `h` spell exactly the words of the Kleene star
of `ls`'s language; for `Plus` the empty word is among them. -/
theorem buildFromNode_star_loop {t node : RegexNode} (ht : t = .Star node ∨ t = .Plus node)
    {ls : List Char} (hl : labels node = some ls) (states : List NFAState) (e : Nat) :
    ∃ states', buildFromNode t e states = some (states.length, states') ∧
      ∀ w, Path states' states.length w states.length ↔ w ∈ (chainLanguage ls)∗ := by
  have hb : buildFromNode t e states = buildLoop (buildFromNode node) .EpsilonTransition states :=
    by rcases ht with rfl | rfl <;> rfl
  obtain ⟨r, s₂, hbuild, hrlt, hc, hr⟩ :=
    buildLoop_chain (buildFromNode_chain node ls hl) .EpsilonTransition states
  generalize states.length = h at hbuild hc
  have hc' := hc.set hr (.EpsilonTransition h)
  have hk : (s₂.set r (.EpsilonTransition h))[r]? = some (.EpsilonTransition h) :=
    List.getElem?_set_self hrlt
  refine ⟨_, hb.trans hbuild, fun w => ?_⟩
  rw [Language.mem_kstar]
  constructor
  · intro hp
    cases ls with
    | nil =>
      cases hc
      exact ⟨[], path_self_loop hk hp rfl, by simp⟩
    | cons l ls =>
      obtain _ | ⟨hs, hj, hc''⟩ := hc'
      induction' hw : w.length using Nat.strong_induction_on with n ih generalizing w
      cases hp with
      | refl => exact ⟨[], rfl, by simp⟩
      | transition hs' hl' hp =>
        cases hs.symm.trans hs'
        obtain ⟨v, w', rfl, hv, hp'⟩ := hc''.path_to_head (by omega) (by omega) hk hp
        obtain ⟨ws, rfl, hws⟩ := ih w'.length (by simp at hw; omega) w' hp' rfl
        refine ⟨(_ :: v) :: ws, rfl, fun y hy => ?_⟩
        rcases List.mem_cons.1 hy with rfl | hy
        exacts [List.Forall₂.cons hl' hv, hws y hy]
      | epsilon hs' _ => cases hs.symm.trans hs'
  · rintro ⟨ws, rfl, hws⟩
    induction ws with
    | nil => exact .refl _
    | cons v ws ih =>
      simp only [List.mem_cons, forall_eq_or_imp] at hws
      exact (hc'.path hws.1).append (.epsilon hk (ih hws.2))

/-- `buildFromNode_star_loop` on `a+` from the one `Start` state. -/
theorem buildFromNode_star_loop_plus :
    ((RegexNode.Plus (.Char 'a')) = .Star (.Char 'a') ∨
        (RegexNode.Plus (.Char 'a')) = .Plus (.Char 'a')) ∧
      labels (.Char 'a') = some ['a'] ∧
      ∃ states', buildFromNode (.Plus (.Char 'a')) 0 [.Start] =
          some ([NFAState.Start].length, states') ∧
        ∀ w, Path states' [NFAState.Start].length w [NFAState.Start].length ↔
          w ∈ (chainLanguage ['a'])∗ :=
  have ht : (RegexNode.Plus (.Char 'a')) = .Star (.Char 'a') ∨
      (RegexNode.Plus (.Char 'a')) = .Plus (.Char 'a') := .inr rfl
  have hl : labels (.Char 'a') = some ['a'] := rfl
  ⟨ht, hl, buildFromNode_star_loop ht hl [.Start] 0⟩

/-- The branch loop after the first branch, with kept exit `a`, when the last branch lays a
non-empty chain `ls`: the kept exit stays, and the last branch's chain leaves `start` through
states past the old length and ends on a `Match` state. The branches before it may be any
trees. -/
theorem buildAlternatives_last {last : RegexNode} {ls : List Char} (hl : labels last = some ls)
    (hls : ls ≠ []) (start a : Nat) :
    ∀ (init : List RegexNode) (states : List NFAState), start < states.length →
      ∃ m states', buildAlternatives (init ++ [last]) start (some a) states =
          some (some a, states') ∧
        states'[m]? = some .Match ∧ Chain states' states.length start ls m
  | [], states, hs => by
    obtain ⟨m, s₁, h₁, spec, hc, hm⟩ := buildFromNode_chain last ls hl start states hs
    have hmlt := spec.exit_lt hs
    exact ⟨m, s₁.set m .Match, by simp [buildAlternatives, h₁, hmlt],
      List.getElem?_set_self hmlt, hc.set (hm (.inr hls)) _⟩
  | node :: init, states, hs => by
    obtain ⟨r, s₁, h₁, spec⟩ := buildFromNode_builds node start states hs
    have hr := spec.exit_lt hs
    have hlen : states.length ≤ (s₁.set r .Match).length := by
      rw [List.length_set]; exact spec.length_le
    obtain ⟨m, s₂, h₂, hm, hc⟩ :=
      buildAlternatives_last hl hls start a init (s₁.set r .Match) (by omega)
    exact ⟨m, s₂, by simp [buildAlternatives, h₁, hr, h₂], hm, hc.mono hlen⟩

/-- **Only the last branch of an alternation is reachable.** Built from any entry, an
`Alternation` of at least two branches whose last one lays a non-empty chain `ls` does not
panic; from its head `h`, the words leading to the last branch's exit, a `Match` state, are
exactly the words of `ls`, and no non-empty word leads to the exit returned, the first
branch's. -/
theorem buildFromNode_alternation_last {first last : RegexNode} {init : List RegexNode}
    {ls : List Char} (hl : labels last = some ls) (hls : ls ≠ []) (states : List NFAState)
    (e : Nat) :
    ∃ r m states', buildFromNode (.Alternation (first :: init ++ [last])) e states =
        some (r, states') ∧ states'[m]? = some .Match ∧
      (∀ w, Path states' states.length w m ↔ w ∈ chainLanguage ls) ∧
      ∀ w, Path states' states.length w r → w = [] := by
  have hs₀ : states.length < (states ++ [NFAState.Start]).length := by simp
  obtain ⟨r, s₁, h₁, spec⟩ := buildFromNode_builds first _ _ hs₀
  have hr := spec.exit_lt hs₀
  obtain ⟨m, s₂, h₂, hm, hc⟩ :=
    buildAlternatives_last hl hls states.length r init s₁ (lt_of_lt_of_le hs₀ spec.length_le)
  have hm' : Edgeless s₂ m := fun s hs => by cases hm.symm.trans hs; rfl
  exact ⟨r, m, s₂, by simp [buildFromNode, buildAlternatives, h₁, h₂], hm,
    fun _ => hc.path_iff hm', fun _ hp => (hc.path_from_start hls hr hm' hp).2⟩

/-- `buildFromNode_alternation_last` on `a|b` from the one `Start` state. -/
theorem buildFromNode_alternation_last_ab :
    labels (.Char 'b') = some ['b'] ∧ ['b'] ≠ [] ∧
      ∃ r m states', buildFromNode (.Alternation (.Char 'a' :: [] ++ [.Char 'b'])) 0 [.Start] =
          some (r, states') ∧ states'[m]? = some .Match ∧
        (∀ w, Path states' [NFAState.Start].length w m ↔ w ∈ chainLanguage ['b']) ∧
        ∀ w, Path states' [NFAState.Start].length w r → w = [] :=
  have hl : labels (.Char 'b') = some ['b'] := rfl
  have hls : ['b'] ≠ [] := List.cons_ne_nil _ _
  ⟨hl, hls, @buildFromNode_alternation_last (.Char 'a') _ [] _ hl hls [.Start] 0⟩

end NFA

end Simplegrep
