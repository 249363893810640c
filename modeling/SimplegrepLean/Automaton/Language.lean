import SimplegrepLean.Automaton.Fragment
import SimplegrepLean.Automaton.Loops

/-!
# SimplegrepLean — what the fragment of every tree spells

`labels` follows the spine of a tree the way `build_from_node` does: a chain of edges from
the entry for the one-character arms, `Concat`, `Group` and the copies of `Repeat`, and `none`
as soon as a `Star`, `Plus`, `Question` or `Alternation` is met. Where it is `none`, the build
goes off to the side and the exit is out of reach of the entry (`Unreachable`), and once out
of reach it stays so: a later build from the exit writes on the exit and on fresh states
only, so a path from the entry to the new exit passes through the old one
(`Path.through_entry`).

* **`buildFromNode_language`** — for every tree, built from an edgeless entry of a vector
  whose edges are all in range, the words leading from the entry to the exit are exactly the
  words of the tree's labels, and none at all when the tree has none: `ab*` spells nothing;
* **`matches_exit_accept`** — with the exit as `accept`, `matches` on the vector `from_regex`
  builds answers on every line, `true` exactly on the words of the tree's labels and `false`
  everywhere when the tree has none.
-/

namespace Simplegrep

namespace NFA

/-! ## §1 — paths through a later build -/

/-- In a vector whose edges are in range, a path from a state in range stays in range. -/
theorem Path.lt_length {states : List NFAState} (ht : TargetsIn 0 states.length states)
    {i j : Nat} {w : List Char} (hp : Path states i w j) (hi : i < states.length) :
    j < states.length := by
  induction hp with
  | refl => exact hi
  | transition hs _ _ ih | epsilon hs _ ih => exact ih (ht _ (List.getElem?_mem hs) _ rfl).2

/-- **A path through a later build.** After a build from `r`, a path from an old state either
is a path of the old vector, or reaches `r` along one and goes on from there. -/
theorem Path.split_frame {s₁ s₂ : List NFAState} {r r' : Nat} (spec : BuildSpec s₁ r r' s₂)
    (ht : TargetsIn 0 s₁.length s₁) {i j : Nat} {w : List Char} (hp : Path s₂ i w j) :
    i < s₁.length →
      Path s₁ i w j ∨ ∃ w₁ w₂, w = w₁ ++ w₂ ∧ Path s₁ i w₁ r ∧ Path s₂ r w₂ j := by
  induction hp with
  | refl => exact fun _ => .inl (.refl _)
  | @transition i k _ x c w hs hc hp ih =>
    intro hi
    by_cases hir : i = r
    · exact .inr ⟨[], _, rfl, hir ▸ .refl _, hir ▸ .transition hs hc hp⟩
    have hs₁ : s₁[i]? = some (.Transition c k) := (spec.get?_eq i hi hir).symm.trans hs
    rcases ih (ht _ (List.getElem?_mem hs₁) k rfl).2 with h | ⟨w₁, w₂, rfl, h₁, h₂⟩
    exacts [.inl (.transition hs₁ hc h), .inr ⟨x :: w₁, w₂, rfl, .transition hs₁ hc h₁, h₂⟩]
  | @epsilon i k _ w hs hp ih =>
    intro hi
    by_cases hir : i = r
    · exact .inr ⟨[], _, rfl, hir ▸ .refl _, hir ▸ .epsilon hs hp⟩
    have hs₁ : s₁[i]? = some (.EpsilonTransition k) := (spec.get?_eq i hi hir).symm.trans hs
    rcases ih (ht _ (List.getElem?_mem hs₁) k rfl).2 with h | ⟨w₁, w₂, rfl, h₁, h₂⟩
    exacts [.inl (.epsilon hs₁ h), .inr ⟨w₁, w₂, rfl, .epsilon hs₁ h₁, h₂⟩]

/-- Every path from an old state to the exit of a later build passes through its entry. -/
theorem Path.through_entry {s₁ s₂ : List NFAState} {r r' : Nat} (spec : BuildSpec s₁ r r' s₂)
    (ht : TargetsIn 0 s₁.length s₁) {i : Nat} {w : List Char} (hp : Path s₂ i w r')
    (hi : i < s₁.length) : ∃ w₁ w₂, Path s₁ i w₁ r ∧ Path s₂ r w₂ r' := by
  rcases hp.split_frame spec ht hi with hp | ⟨w₁, w₂, -, hp₁, hp₂⟩
  · rcases spec.exit_mem with rfl | ⟨hr, -⟩
    · exact ⟨w, [], hp, .refl _⟩
    · exact absurd (hp.lt_length ht hi) (by omega)
  · exact ⟨w₁, w₂, hp₁, hp₂⟩

/-! ## §2 — builds whose exit is out of reach -/

/-- `f`, from an edgeless entry in range of a vector whose edges are in range, builds without
panicking, meets the build invariant, and returns an exit that no path reaches from the
entry. -/
def Unreachable (f : Nat → List NFAState → Option (Nat × List NFAState)) : Prop :=
  ∀ e states, e < states.length → TargetsIn 0 states.length states → Edgeless states e →
    ∃ r states', f e states = some (r, states') ∧ BuildSpec states e r states' ∧
      ∀ w, ¬Path states' e w r

section

variable {f g : Nat → List NFAState → Option (Nat × List NFAState)}

/-- An exit out of reach stays so through any later build from it. -/
theorem Unreachable.bind_left (hf : Unreachable f) (hg : Builds g) :
    Unreachable fun e states => (f e states).bind fun (r, states) => g r states := by
  intro e states he ht hedge
  obtain ⟨r, s₁, h₁, spec₁, hn⟩ := hf e states he ht hedge
  have ht₁ := spec₁.targetsIn 0 (Nat.zero_le _) ht
  obtain ⟨r₂, s₂, h₂, spec₂⟩ := hg r s₁ (spec₁.exit_lt he)
  refine ⟨r₂, s₂, by simp [h₁, h₂], spec₁.trans spec₂, fun w hp => ?_⟩
  obtain ⟨_, _, hp, -⟩ := hp.through_entry spec₂ ht₁ (lt_of_lt_of_le he spec₁.length_le)
  exact hn _ hp

/-- A chain, then a build whose exit is out of reach of the chain's end. -/
theorem BuildsChain.bind_unreachable {ls : List Char} (hf : BuildsChain f ls)
    (hg : Unreachable g) :
    Unreachable fun e states => (f e states).bind fun (r, states) => g r states := by
  intro e states he ht hedge
  obtain ⟨r, s₁, h₁, spec₁, -, hr⟩ := hf e states he
  have ht₁ := spec₁.targetsIn 0 (Nat.zero_le _) ht
  obtain ⟨r₂, s₂, h₂, spec₂, hn⟩ := hg r s₁ (spec₁.exit_lt he) ht₁ (hr (.inl hedge))
  refine ⟨r₂, s₂, by simp [h₁, h₂], spec₁.trans spec₂, fun w hp => ?_⟩
  obtain ⟨_, _, -, hp⟩ := hp.through_entry spec₂ ht₁ (lt_of_lt_of_le he spec₁.length_le)
  exact hn _ hp

theorem BuildsFresh.unreachable (hf : BuildsFresh f) : Unreachable f := fun _ _ he _ hedge =>
  let ⟨r, states', h, spec, _, hn⟩ := hf.not_path he hedge
  ⟨r, states', h, spec, hn⟩

theorem repeatBuild_unreachable (hf : Unreachable f) (hb : Builds f) (count : Nat) :
    Unreachable (repeatBuild f (count + 1)) :=
  hf.bind_left (repeatBuild_builds hb count)

end

/-- Copies of a chain are a chain. -/
theorem repeatLabels_some (ls : List Char) :
    ∀ count, ∃ ls', repeatLabels (some ls) count = some ls'
  | 0 => ⟨[], rfl⟩
  | count + 1 =>
    let ⟨ls', h⟩ := repeatLabels_some ls count
    ⟨ls ++ ls', by simp [repeatLabels, h]⟩

mutual

/-- **Where `labels` is `none`, the exit is out of reach**, by structural recursion. -/
theorem buildFromNode_unreachable : ∀ node, labels node = none →
    Unreachable (buildFromNode node)
  | .Concat nodes, h => buildConcat_unreachable nodes h
  | .Alternation nodes, _ => (buildFromNode_fresh (.alternation nodes)).unreachable
  | .Star node, _ => (buildFromNode_fresh (.star node)).unreachable
  | .Plus node, _ => (buildFromNode_fresh (.plus node)).unreachable
  | .Question node, _ => (buildFromNode_fresh (.question node)).unreachable
  | .Repeat node ⟨min, max⟩, h => by
    cases hl : labels node with
    | some ls =>
      obtain ⟨a, ha⟩ := repeatLabels_some ls min
      cases max with
      | none => simp [labels, hl, ha] at h
      | some max =>
        obtain ⟨b, hb⟩ := repeatLabels_some ls (max - min)
        simp [labels, hl, ha, hb] at h
    | none =>
      have hb := buildFromNode_builds node
      have hrep := repeatBuild_unreachable (buildFromNode_unreachable node hl) hb
      cases min with
      | succ k =>
        cases max with
        | none => exact (hrep k).bind_left fun e states _ => ⟨e, states, rfl, .refl states e⟩
        | some max => exact (hrep k).bind_left (repeatBuild_builds hb _)
      | zero =>
        rcases max with _ | _ | max
        · simp [labels, hl, repeatLabels] at h
        · simp [labels, hl, repeatLabels] at h
        · exact BuildsChain.pure.bind_unreachable (hrep max)
  | .Group node, h => buildFromNode_unreachable node h
  | .Char _, h | .AnyChar, h | .Digit, h | .WordChar, h | .Whitespace, h | .StartLine, h
  | .EndLine, h | .StartInput, h | .EndInput, h | .WordBoundary, h => by cases h

/-- The child loop of `Concat`: the exit is out of reach from the first child whose labels
are `none` on. -/
theorem buildConcat_unreachable : ∀ nodes, concatLabels nodes = none →
    Unreachable (buildConcat nodes)
  | node :: nodes, h => by
    cases hl : labels node with
    | none => exact (buildFromNode_unreachable node hl).bind_left (buildConcat_builds nodes)
    | some ls =>
      have hn : concatLabels nodes = none := by
        cases hc : concatLabels nodes with
        | none => rfl
        | some _ => simp [concatLabels, hl, hc] at h
      exact (buildFromNode_chain node ls hl).bind_unreachable (buildConcat_unreachable nodes hn)
  | [], h => by cases h

end

/-- **The language of every fragment.** Built from an edgeless entry in range of a vector
whose edges are all in range, every tree builds without panicking, and the words labelling a
path from the entry to the exit returned are exactly the words of the tree's labels, one
character per label; when the tree has no labels (a `Star`, `Plus`, `Question` or
`Alternation` on its spine) no word does. -/
theorem buildFromNode_language (node : RegexNode) {states : List NFAState} {e : Nat}
    (he : e < states.length) (ht : TargetsIn 0 states.length states) (hedge : Edgeless states e) :
    ∃ r states', buildFromNode node e states = some (r, states') ∧
      ∀ w, Path states' e w r ↔ ∃ ls, labels node = some ls ∧ w ∈ chainLanguage ls := by
  cases hl : labels node with
  | none =>
    obtain ⟨r, states', h, -, hn⟩ := buildFromNode_unreachable node hl e states he ht hedge
    exact ⟨r, states', h, fun w => iff_of_false (hn w) (by simp)⟩
  | some ls =>
    obtain ⟨r, states', h, -, hc, hr⟩ := buildFromNode_chain node ls hl e states he
    exact ⟨r, states', h, fun w => (hc.path_iff (hr (.inl hedge))).trans
      ⟨fun hw => ⟨ls, rfl, hw⟩, fun ⟨_, h, hw⟩ => Option.some.inj h ▸ hw⟩⟩

/-- `buildFromNode_language` on `ab*` from the one `Start` state: the fragment spells
nothing. -/
theorem buildFromNode_language_concat_star :
    0 < [NFAState.Start].length ∧ TargetsIn 0 [NFAState.Start].length [.Start] ∧
      Edgeless [.Start] 0 ∧
      ∃ r states', buildFromNode (.Concat [.Char 'a', .Star (.Char 'b')]) 0 [.Start] =
          some (r, states') ∧
        ∀ w, Path states' 0 w r ↔
          ∃ ls, labels (.Concat [.Char 'a', .Star (.Char 'b')]) = some ls ∧ w ∈ chainLanguage ls :=
  have ht : TargetsIn 0 [NFAState.Start].length [.Start] := by simp [TargetsIn]
  ⟨by decide, ht, edgeless_start, buildFromNode_language _ (by decide) ht edgeless_start⟩

/-! ## §3 — the engine with the exit as `accept`

`from_regex` keeps `accept = 0`, so its automaton accepts only the empty line. Taking the exit
that `build_from_node` returns as `accept` instead is not enough either: `matches` then decides
the language of the labels, and nothing once a `Star`, `Plus`, `Question` or `Alternation` is
on the spine. -/

/-- A run of `matches` follows edges of the graph: without the characters it spends on
epsilon edges, it is a path. -/
theorem Run.to_path {nfa : NFA} {i j : Nat} {w : List Char} (h : nfa.Run i w j) :
    ∃ w', Path nfa.states i w' j := by
  induction h with
  | nil => exact ⟨[], .refl _⟩
  | cons hm _ ih =>
    obtain ⟨w', hp⟩ := ih
    rcases hm with ⟨hs, hc⟩ | hs
    exacts [⟨_, .transition hs hc hp⟩, ⟨w', .epsilon hs hp⟩]

/-- **With the exit as `accept`, the engine decides the labels.** For every tree, the state
vector `from_regex` builds, read with `start = 0` and `accept` the exit of the build, gets an
answer from `matches` on every line without a panic, and the answer is `true` exactly when the
line is a word of the tree's labels; when the tree has none, it is `false` on every line, the
empty one included. -/
theorem matches_exit_accept (node : RegexNode) :
    ∃ r states', buildFromNode node 0 NFA.new.states = some (r, states') ∧
      ∀ s : String, ∃ b, (⟨states', 0, r⟩ : NFA).«matches» s = some b ∧
        (b = true ↔ ∃ ls, labels node = some ls ∧ s.data ∈ chainLanguage ls) := by
  obtain ⟨r, states', h, spec, hrun⟩ : ∃ r states', buildFromNode node 0 [.Start] =
      some (r, states') ∧ BuildSpec [.Start] 0 r states' ∧ ∀ w,
        (⟨states', 0, r⟩ : NFA).Run 0 w r ↔ ∃ ls, labels node = some ls ∧ w ∈ chainLanguage ls := by
    cases hl : labels node with
    | none =>
      obtain ⟨r, states', h, spec, hn⟩ := buildFromNode_unreachable node hl 0 [.Start]
        (by decide) (by simp [TargetsIn]) edgeless_start
      exact ⟨r, states', h, spec, fun w => iff_of_false (fun hr =>
        let ⟨_, hp⟩ := hr.to_path; hn _ hp) (by simp)⟩
    | some ls =>
      obtain ⟨r, states', h, spec, hc, hr⟩ := buildFromNode_chain node ls hl 0 [.Start] (by decide)
      exact ⟨r, states', h, spec, fun w =>
        (@Chain.run_iff ⟨states', 0, r⟩ _ _ _ _ hc (hr (.inl edgeless_start))).trans
          ⟨fun hw => ⟨ls, rfl, hw⟩, fun ⟨_, h, hw⟩ => Option.some.inj h ▸ hw⟩⟩
  refine ⟨r, states', h, fun s => ?_⟩
  obtain ⟨b, hb, hiff⟩ := matches_spec (.of_build spec) s
  exact ⟨b, hb, hiff.trans (hrun s.data)⟩

end NFA

end Simplegrep
