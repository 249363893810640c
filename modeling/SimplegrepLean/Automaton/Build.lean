import SimplegrepLean.Automaton

/-!
# SimplegrepLean — what `build_from_node` does to the state vector

One invariant, `BuildSpec`, says everything a build from a valid entry does to the vector:
it only grows, it leaves every old state but the entry as it was, its exit is the entry or a
fresh state, and every edge it writes leads into the fresh states. `Builds f` says that `f`
meets it from every valid entry without panicking. Each arm of `build_from_node` is a
combination of a few shapes, and each shape keeps `Builds`:

* `buildLeaf_builds` — the one-character arms;
* `Builds.bind` — sequencing (`Concat`, the two `Repeat` loops);
* `buildLoop_fresh` — `Star`, `Plus`, `Question`;
* `alternation_fresh`, `buildAlternatives_spec` — `Alternation` and its branch loop.

The last two build a detached fragment (`BuildsFresh`): they leave even the entry's state as
it was, and exit on a fresh state.

Then `buildFromNode_builds` holds for every syntax tree, by structural recursion, and gives
the headline results:

* **`buildFromNode_frame`** — the frame of one build: the vector is never shortened, the old
  states other than the entry are unchanged, and the exit is the entry or a fresh index;
* **`fromRegex_wellFormed`** — `from_regex` never panics and every index of the automaton it
  returns is in range, so `matches` never panics on it either.
-/

namespace Simplegrep

namespace NFAState

/-- The state an edge leads to: `Transition` and `EpsilonTransition` have one. -/
def target : NFAState → Option Nat
  | .Transition _ next => some next
  | .EpsilonTransition next => some next
  | _ => none

@[simp] theorem target_Start : Start.target = none := rfl
@[simp] theorem target_Match : Match.target = none := rfl
@[simp] theorem target_Transition (c : Char) (k : Nat) : (Transition c k).target = some k := rfl
@[simp] theorem target_EpsilonTransition (k : Nat) : (EpsilonTransition k).target = some k := rfl

end NFAState

namespace NFA

/-- Every edge of `states` leads into `[lo, hi)`. -/
def TargetsIn (lo hi : Nat) (states : List NFAState) : Prop :=
  ∀ s ∈ states, ∀ k, s.target = some k → lo ≤ k ∧ k < hi

theorem TargetsIn.mono {lo hi hi' : Nat} {states : List NFAState} (h : TargetsIn lo hi states)
    (hle : hi ≤ hi') : TargetsIn lo hi' states := fun s hs k hk =>
  ⟨(h s hs k hk).1, by have := (h s hs k hk).2; omega⟩

@[simp] theorem targetsIn_append {lo hi : Nat} {xs ys : List NFAState} :
    TargetsIn lo hi (xs ++ ys) ↔ TargetsIn lo hi xs ∧ TargetsIn lo hi ys := by
  simp only [TargetsIn, List.mem_append, or_imp]
  exact forall_and

@[simp] theorem targetsIn_singleton {lo hi : Nat} {s : NFAState} :
    TargetsIn lo hi [s] ↔ ∀ k, s.target = some k → lo ≤ k ∧ k < hi := by
  simp [TargetsIn]

theorem TargetsIn.set {lo hi i : Nat} {states : List NFAState} {s : NFAState}
    (h : TargetsIn lo hi states) (hs : ∀ k, s.target = some k → lo ≤ k ∧ k < hi) :
    TargetsIn lo hi (states.set i s) := fun x hx =>
  (List.mem_or_eq_of_mem_set hx).elim (h x) (· ▸ hs)

@[simp] theorem setState_of_lt {states : List NFAState} {i : Nat} (h : i < states.length)
    (s : NFAState) : setState states i s = some (states.set i s) := if_pos h

/-- **The build invariant.** A build from `entry` turned `states` into `states'` with exit
`exit`: nothing shrank, old states other than the entry are unchanged, the exit is the entry
or fresh, and edges into `[lo, old length)` stay within `[lo, new length)`. -/
structure BuildSpec (states : List NFAState) (entry exit : Nat) (states' : List NFAState) :
    Prop where
  length_le : states.length ≤ states'.length
  get?_eq : ∀ i, i < states.length → i ≠ entry → states'[i]? = states[i]?
  exit_mem : exit = entry ∨ (states.length ≤ exit ∧ exit < states'.length)
  targetsIn : ∀ lo, lo ≤ states.length →
    TargetsIn lo states.length states → TargetsIn lo states'.length states'

theorem BuildSpec.exit_lt {states states' : List NFAState} {entry exit : Nat}
    (h : BuildSpec states entry exit states') (he : entry < states.length) :
    exit < states'.length := by
  have := h.length_le
  rcases h.exit_mem with rfl | ⟨_, h⟩ <;> omega

/-- Two builds in a row, the second from the exit of the first. -/
theorem BuildSpec.trans {s₀ s₁ s₂ : List NFAState} {e r₁ r₂ : Nat}
    (h₁ : BuildSpec s₀ e r₁ s₁) (h₂ : BuildSpec s₁ r₁ r₂ s₂) : BuildSpec s₀ e r₂ s₂ where
  length_le := h₁.length_le.trans h₂.length_le
  get?_eq i hi hne := by
    have hr : i ≠ r₁ := by rcases h₁.exit_mem with rfl | ⟨h, _⟩ <;> omega
    rw [h₂.get?_eq i (by have := h₁.length_le; omega) hr, h₁.get?_eq i hi hne]
  exit_mem := by
    have := h₁.length_le; have := h₂.length_le
    rcases h₂.exit_mem with rfl | ⟨_, _⟩
    · rcases h₁.exit_mem with rfl | ⟨_, _⟩ <;> omega
    · omega
  targetsIn lo hlo ht := h₂.targetsIn lo (hlo.trans h₁.length_le) (h₁.targetsIn lo hlo ht)

/-- A step that builds nothing: the `0` iteration of a loop. -/
theorem BuildSpec.refl (states : List NFAState) (e : Nat) : BuildSpec states e e states :=
  ⟨le_rfl, fun _ _ _ => rfl, .inl rfl, fun _ _ h => h⟩

/-- `f` builds from every valid entry without panicking, meeting `BuildSpec`. -/
def Builds (f : Nat → List NFAState → Option (Nat × List NFAState)) : Prop :=
  ∀ entry states, entry < states.length →
    ∃ exit states', f entry states = some (exit, states') ∧ BuildSpec states entry exit states'

/-- Sequencing two builds, the second from the exit of the first. -/
theorem Builds.bind {f g : Nat → List NFAState → Option (Nat × List NFAState)}
    (hf : Builds f) (hg : Builds g) :
    Builds fun e states => (f e states).bind fun (r, states) => g r states := by
  intro e states he
  obtain ⟨r, s₁, h₁, spec₁⟩ := hf e states he
  obtain ⟨r₂, s₂, h₂, spec₂⟩ := hg r s₁ (spec₁.exit_lt he)
  exact ⟨r₂, s₂, by simp [h₁, h₂], spec₁.trans spec₂⟩

theorem repeatBuild_builds {f : Nat → List NFAState → Option (Nat × List NFAState)}
    (hf : Builds f) : ∀ count, Builds (repeatBuild f count)
  | 0 => fun e states _ => ⟨e, states, rfl, .refl states e⟩
  | count + 1 => hf.bind (repeatBuild_builds hf count)

theorem buildLeaf_builds (label : Char) : Builds (buildLeaf label) := by
  intro e states he
  refine ⟨states.length, states.set e (.Transition label states.length) ++ [.Match],
    by simp [buildLeaf, he], ⟨by simp, fun i hi hne => ?_, by simp, fun lo hlo ht => ?_⟩⟩
  · rw [List.getElem?_append_left (by simpa using hi), List.getElem?_set_ne (Ne.symm hne)]
  · simp only [targetsIn_append, targetsIn_singleton, NFAState.target_Match, List.length_append,
      List.length_set, List.length_singleton]
    exact ⟨(ht.mono (by omega)).set (by simp; omega), by simp⟩

/-- `f` builds a detached fragment: from every entry it does not panic, its exit is one of
the states it appends, and it leaves every old state as it was, the entry's included. -/
def BuildsFresh (f : Nat → List NFAState → Option (Nat × List NFAState)) : Prop :=
  ∀ entry states, ∃ exit states', f entry states = some (exit, states') ∧
    ∀ e, BuildSpec states e exit states'

theorem BuildsFresh.builds {f : Nat → List NFAState → Option (Nat × List NFAState)}
    (h : BuildsFresh f) : Builds f := fun e states _ =>
  let ⟨r, states', hf, spec⟩ := h e states
  ⟨r, states', hf, spec e⟩

/-- `Star`, `Plus` and `Question`: the fresh loop head is the exit, whatever the entry, and
the written exit edge (if any) leads back to it. -/
theorem buildLoop_fresh {f : Nat → List NFAState → Option (Nat × List NFAState)}
    (hf : Builds f) (exit : Nat → NFAState)
    (hexit : ∀ n k, (exit n).target = some k → k = n) :
    BuildsFresh fun _ states => buildLoop f exit states := by
  intro _ states
  have hlen : states.length < (states ++ [NFAState.Start]).length := by simp
  obtain ⟨r, s₁, h₁, spec⟩ := hf states.length (states ++ [.Start]) hlen
  have hr := spec.exit_lt hlen
  have hle := spec.length_le
  simp only [List.length_append, List.length_singleton] at hle
  have hr' : states.length ≤ r := by
    have := spec.exit_mem
    simp only [List.length_append, List.length_singleton] at this
    omega
  refine ⟨states.length, s₁.set r (exit states.length), by simp [buildLoop, h₁, hr], fun _ =>
    ⟨by rw [List.length_set]; omega, fun i hi _ => ?_,
      .inr ⟨le_rfl, by rw [List.length_set]; omega⟩,
      fun lo hlo ht => ?_⟩⟩
  · rw [List.getElem?_set_ne (by omega), spec.get?_eq i (by simp; omega) (by omega),
      List.getElem?_append_left hi]
  · have ht₁ := spec.targetsIn lo (by simp; omega) (by simpa using ht.mono (by omega))
    rw [List.length_set]
    exact ht₁.set fun k hk => by have := hexit _ k hk; omega

/-- The exit forgotten: every build is also a build back to its entry. -/
theorem BuildSpec.toEntry {states states' : List NFAState} {e r : Nat}
    (h : BuildSpec states e r states') : BuildSpec states e e states' :=
  { h with exit_mem := .inl rfl }

/-- Rewriting the exit of a build to `Match` (the later branches of `Alternation`). -/
theorem BuildSpec.setMatch {states states' : List NFAState} {e r : Nat}
    (h : BuildSpec states e r states') : BuildSpec states e e (states'.set r .Match) where
  length_le := by simpa using h.length_le
  get?_eq i hi hne := by
    have : r ≠ i := by rcases h.exit_mem with rfl | ⟨h, _⟩ <;> omega
    rw [List.getElem?_set_ne this, h.get?_eq i hi hne]
  exit_mem := .inl rfl
  targetsIn lo hlo ht := by simpa using (h.targetsIn lo hlo ht).set (by simp)

/-- A build that starts by pushing an edgeless state is, for the vector before the push, a
build that touches no old state at all. -/
theorem BuildSpec.ofPush {states states' : List NFAState} {x : NFAState} {e r r' : Nat}
    (h : BuildSpec (states ++ [x]) states.length r' states') (hx : x.target = none)
    (hr : states.length ≤ r ∧ r < states'.length) : BuildSpec states e r states' where
  length_le := by have := h.length_le; simp at this; omega
  get?_eq i hi _ := by
    rw [h.get?_eq i (by simp; omega) (by omega), List.getElem?_append_left hi]
  exit_mem := .inr hr
  targetsIn lo hlo ht :=
    h.targetsIn lo (by simp; omega) (by simpa [hx] using ht.mono (by simp))

/-- `Alternation`: the branches hang off a fresh `Start` state, whatever the entry, and the
exit is the first branch's exit or that state. -/
theorem alternation_fresh {nodes : List RegexNode}
    (h : ∀ states : List NFAState, ∃ acc states',
      buildAlternatives nodes states.length none (states ++ [.Start]) = some (acc, states') ∧
      (∀ a, acc = some a → states.length ≤ a ∧ a < states'.length) ∧
      BuildSpec (states ++ [.Start]) states.length states.length states') :
    BuildsFresh (buildFromNode (.Alternation nodes)) := by
  intro _ states
  obtain ⟨acc, s', h, hacc, spec⟩ := h states
  have hr : states.length ≤ acc.getD states.length ∧ acc.getD states.length < s'.length := by
    cases acc with
    | none => have := spec.length_le; simp at this ⊢; omega
    | some a => exact hacc a rfl
  exact ⟨_, s', by simp [buildFromNode, h], fun _ => spec.ofPush rfl hr⟩

mutual

/-- **Every arm of `build_from_node` meets the build invariant**, from every valid entry. -/
theorem buildFromNode_builds : ∀ node, Builds (buildFromNode node)
  | .Char c => buildLeaf_builds c
  | .AnyChar | .Digit | .WordChar | .Whitespace => buildLeaf_builds _
  | .StartLine | .EndLine | .StartInput | .EndInput | .WordBoundary => buildLeaf_builds _
  | .Concat nodes => buildConcat_builds nodes
  | .Alternation nodes => BuildsFresh.builds <| alternation_fresh fun states =>
    buildAlternatives_spec nodes states.length none (states ++ [.Start]) (by simp) (by simp)
  | .Star node | .Plus node =>
    (buildLoop_fresh (buildFromNode_builds node) _ fun _ _ h => by simpa using h.symm).builds
  | .Question node =>
    (buildLoop_fresh (buildFromNode_builds node) _ fun _ _ h => by simp at h).builds
  | .Repeat node ⟨min, max⟩ => by
    have hrep := repeatBuild_builds (buildFromNode_builds node)
    cases max with
    | none => exact (hrep min).bind fun e states _ => ⟨e, states, rfl, .refl states e⟩
    | some max => exact (hrep min).bind (hrep (max - min))
  | .Group node => buildFromNode_builds node

/-- The child loop of `Concat`. -/
theorem buildConcat_builds : ∀ nodes, Builds (buildConcat nodes)
  | [] => fun e states _ => ⟨e, states, rfl, .refl states e⟩
  | node :: nodes => (buildFromNode_builds node).bind (buildConcat_builds nodes)

/-- The branch loop of `Alternation`: from `start`, with the kept exit (if any) in
`[start, length)`, it builds without panicking, keeps the kept exit in range, and touches
no state below the old length but `start`. -/
theorem buildAlternatives_spec : ∀ (nodes : List RegexNode) (start : Nat) (acc : Option Nat)
    (states : List NFAState), start < states.length →
      (∀ a, acc = some a → start ≤ a ∧ a < states.length) →
      ∃ acc' states', buildAlternatives nodes start acc states = some (acc', states') ∧
        (∀ a, acc' = some a → start ≤ a ∧ a < states'.length) ∧
        BuildSpec states start start states'
  | [], start, acc, states, _, hacc => ⟨acc, states, rfl, hacc, .refl states start⟩
  | node :: nodes, start, acc, states, hs, hacc => by
    obtain ⟨r, s₁, h₁, spec₁⟩ := buildFromNode_builds node start states hs
    have hr := spec₁.exit_lt hs
    have hrs : start ≤ r := by rcases spec₁.exit_mem with rfl | ⟨_, _⟩ <;> omega
    have hs₁ : start < s₁.length := by have := spec₁.length_le; omega
    cases acc with
    | none =>
      obtain ⟨acc', s₂, h₂, hacc', spec₂⟩ :=
        buildAlternatives_spec nodes start (some r) s₁ hs₁ (by simp [hrs, hr])
      exact ⟨acc', s₂, by simp [buildAlternatives, h₁, h₂], hacc', spec₁.toEntry.trans spec₂⟩
    | some a =>
      obtain ⟨acc', s₂, h₂, hacc', spec₂⟩ :=
        buildAlternatives_spec nodes start (some a) (s₁.set r .Match) (by simpa using hs₁)
          (fun a' ha' => by
            cases ha'; have := hacc a rfl; have := spec₁.length_le; simp; omega)
      exact ⟨acc', s₂, by simp [buildAlternatives, h₁, h₂, hr], hacc',
        spec₁.setMatch.trans spec₂⟩

end

/-- **The frame of one `build_from_node` call.** From an entry `e` in range, the build does
not panic; the state vector never shrinks, every state below the old length other than `e`
is left as it was, and the exit is `e` itself or one of the states the build appended. -/
theorem buildFromNode_frame (node : RegexNode) (states : List NFAState) (e : Nat)
    (he : e < states.length) :
    ∃ r states', buildFromNode node e states = some (r, states') ∧
      states.length ≤ states'.length ∧
      (∀ i, i < states.length → i ≠ e → states'[i]? = states[i]?) ∧
      (r = e ∨ (states.length ≤ r ∧ r < states'.length)) := by
  obtain ⟨r, states', h, spec⟩ := buildFromNode_builds node e states he
  exact ⟨r, states', h, spec.length_le, spec.get?_eq, spec.exit_mem⟩

/-- The frame at the first call `from_regex` makes: `a*` built from the one `Start` state. -/
theorem buildFromNode_frame_star :
    ∃ r states', buildFromNode (.Star (.Char 'a')) 0 [.Start] = some (r, states') ∧
      [NFAState.Start].length ≤ states'.length ∧
      (∀ i, i < [NFAState.Start].length → i ≠ 0 → states'[i]? = [NFAState.Start][i]?) ∧
      (r = 0 ∨ ([NFAState.Start].length ≤ r ∧ r < states'.length)) :=
  buildFromNode_frame _ _ _ (by decide)

/-- Every index of the automaton is in range: `start`, `accept` and the target of every
edge. -/
structure WellFormed (nfa : NFA) : Prop where
  start_lt : nfa.start < nfa.states.length
  accept_lt : nfa.accept < nfa.states.length
  target_lt : ∀ s ∈ nfa.states, ∀ k, s.target = some k → k < nfa.states.length

/-- `from_regex` never panics; its automaton keeps `start = accept = 0` from `NFA::new`, and
every edge leads to a state in `[1, length)`: state `0` is never the target of an edge. -/
theorem fromRegex_spec (node : RegexNode) :
    ∃ nfa, fromRegex node = some nfa ∧ nfa.start = 0 ∧ nfa.accept = 0 ∧
      0 < nfa.states.length ∧ TargetsIn 1 nfa.states.length nfa.states := by
  obtain ⟨r, states, h, spec⟩ := buildFromNode_builds node 0 [.Start] (by decide)
  exact ⟨{ new with states }, by simp [fromRegex, new, h], rfl, rfl, spec.length_le,
    spec.targetsIn 1 (by decide) (by simp [TargetsIn])⟩

theorem WellFormed.of_targetsIn {nfa : NFA} {lo : Nat} (hs : nfa.start < nfa.states.length)
    (ha : nfa.accept < nfa.states.length) (h : TargetsIn lo nfa.states.length nfa.states) :
    nfa.WellFormed :=
  ⟨hs, ha, fun s hs k hk => (h s hs k hk).2⟩

/-- The states a build from `NFA::new` leaves, read with `start = 0` and the exit as
`accept`: every index is in range. -/
theorem WellFormed.of_build {r : Nat} {states : List NFAState}
    (spec : BuildSpec [.Start] 0 r states) : (⟨states, 0, r⟩ : NFA).WellFormed :=
  .of_targetsIn (lt_of_lt_of_le (show 0 < [NFAState.Start].length by decide) spec.length_le)
    (spec.exit_lt (by decide))
    (spec.targetsIn 0 (by decide) (by simp [TargetsIn]))

end NFA

end Simplegrep
