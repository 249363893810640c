import SimplegrepLean.Automaton.Build

/-!
# SimplegrepLean — what `matches` computes

`matches` keeps a vector of current states and, for each character, replaces it by the
states `transition` returns from them. `transition` follows a `Transition(c, j)` when `c` is
`'\0'` or the character, and follows an `EpsilonTransition(j)` *on* the character, as if it
consumed it; no epsilon closure is taken anywhere. So a match is a run with exactly one move
per character (`Run`), which is not a path in the usual sense (`Path`, where an epsilon edge
consumes nothing).

* `stepStates_spec` — one pass of the inner loop is `Mathlib`'s `stepSet`: its members are
  the targets of the moves from the current states;
* `matches_spec` — on a well-formed automaton `matches` never panics, and answers `true`
  exactly when a `Run` over the whole line leads from `start` to `accept`;
* **`matches_misses_epsilon_path`** — a three-state automaton with an `ε`-then-`a` path that
  `matches` rejects on `"a"`, and the fragment the builder writes for `a*`, whose back edge
  `matches` cannot take for free;
* **`fromRegex_wellFormed`** — `from_regex` and then `matches` never panic;
* **`matches_one_state`** — every state holds at most one edge, so the vector of current
  states never holds more than one: `matches` walks a single run.
-/

namespace Simplegrep

namespace NFA

/-- One move of `matches` on character `x`, along the edge of state `i`. -/
inductive Moves (nfa : NFA) : Nat → Char → Nat → Prop
  | transition {i j : Nat} {x c : Char} : nfa.states[i]? = some (.Transition c j) →
      (c = '\x00' ∨ c = x) → Moves nfa i x j
  | epsilon {i j : Nat} {x : Char} : nfa.states[i]? = some (.EpsilonTransition j) →
      Moves nfa i x j

/-- A run of `matches`: exactly one move per character. -/
inductive Run (nfa : NFA) : Nat → List Char → Nat → Prop
  | nil (i : Nat) : Run nfa i [] i
  | cons {i j k : Nat} {x : Char} {w : List Char} : nfa.Moves i x j → Run nfa j w k →
      Run nfa i (x :: w) k

/-- A path through a state vector in the usual sense: `Transition(c, j)` consumes one
character `x` with `c = x` or `c = '\0'`, `EpsilonTransition(j)` consumes none and may be
taken any number of times. -/
inductive Path (states : List NFAState) : Nat → List Char → Nat → Prop
  | refl (i : Nat) : Path states i [] i
  | transition {i j k : Nat} {x c : Char} {w : List Char} :
      states[i]? = some (.Transition c j) → (c = '\x00' ∨ c = x) → Path states j w k →
      Path states i (x :: w) k
  | epsilon {i j k : Nat} {w : List Char} : states[i]? = some (.EpsilonTransition j) →
      Path states j w k → Path states i w k

theorem moves_iff {nfa : NFA} {i j : Nat} {x : Char} :
    nfa.Moves i x j ↔ (∃ c, nfa.states[i]? = some (.Transition c j) ∧ (c = '\x00' ∨ c = x)) ∨
      nfa.states[i]? = some (.EpsilonTransition j) := by
  constructor
  · rintro (⟨h, hc⟩ | h)
    exacts [.inl ⟨_, h, hc⟩, .inr h]
  · rintro (⟨c, h, hc⟩ | h)
    exacts [.transition h hc, .epsilon h]

@[simp] theorem run_nil_iff {nfa : NFA} {i k : Nat} : nfa.Run i [] k ↔ i = k :=
  ⟨fun | .nil _ => rfl, fun h => h ▸ .nil i⟩

@[simp] theorem run_cons_iff {nfa : NFA} {i k : Nat} {x : Char} {w : List Char} :
    nfa.Run i (x :: w) k ↔ ∃ j, nfa.Moves i x j ∧ nfa.Run j w k :=
  ⟨fun | .cons h r => ⟨_, h, r⟩, fun ⟨_, h, r⟩ => .cons h r⟩

/-- A move leads to the target of the state it leaves. -/
theorem Moves.target {nfa : NFA} {i j : Nat} {x : Char} (h : nfa.Moves i x j) :
    ∃ s ∈ nfa.states, s.target = some j := by
  rcases h with ⟨h, _⟩ | h <;> exact ⟨_, List.getElem?_mem h, rfl⟩

theorem WellFormed.moves_lt {nfa : NFA} (hwf : nfa.WellFormed) {i j : Nat} {x : Char}
    (h : nfa.Moves i x j) : j < nfa.states.length :=
  let ⟨s, hs, ht⟩ := h.target
  hwf.target_lt s hs j ht

/-- `transition` on a state in range: no panic, and the states it returns are the moves. -/
theorem transition_spec {nfa : NFA} {i : Nat} (hi : i < nfa.states.length) (x : Char) :
    ∃ r, nfa.transition i x = some r ∧ ∀ j, j ∈ r.getD [] ↔ nfa.Moves i x j := by
  obtain ⟨s, hs⟩ : ∃ s, nfa.states[i]? = some s := ⟨_, List.getElem?_eq_getElem hi⟩
  simp only [transition, hs, Option.map_some', Option.some.injEq, exists_eq_left']
  intro j
  rw [moves_iff, hs]
  cases s with
  | Transition c k =>
    by_cases hc : c = '\x00' ∨ c = x
    · simp only [hc, if_true]
      simpa using ⟨fun h => ⟨c, ⟨rfl, h.symm⟩, hc⟩, fun ⟨_, ⟨_, h⟩, _⟩ => h.symm⟩
    · simpa [hc] using fun _ => not_or.1 hc
  | EpsilonTransition k => simpa using eq_comm
  | _ => simp

/-- **One pass of the inner loop** (`Mathlib`'s `mem_stepSet`): from current states in range,
no panic, and the next states are the targets of the moves from the current ones. -/
theorem stepStates_spec {nfa : NFA} (x : Char) :
    ∀ {current : List Nat}, (∀ i ∈ current, i < nfa.states.length) →
      ∃ next, nfa.stepStates x current = some next ∧
        ∀ j, j ∈ next ↔ ∃ i ∈ current, nfa.Moves i x j
  | [], _ => ⟨[], rfl, by simp⟩
  | i :: current, h => by
    obtain ⟨r, hr, hmem⟩ := transition_spec (h i (List.mem_cons_self _ _)) x
    obtain ⟨rest, hrest, hmem'⟩ :=
      stepStates_spec x fun k hk => h k (List.mem_cons_of_mem _ hk)
    exact ⟨r.getD [] ++ rest, by simp [stepStates, hr, hrest], fun j => by simp [hmem, hmem']⟩

/-- The outer loop from current states in range, on a well-formed automaton: no panic, and
`true` exactly when some current state has a run over the rest of the line to `accept`. The
early `return false` on an empty step agrees: no run continues from an empty set. -/
theorem matchFrom_spec {nfa : NFA} (hwf : nfa.WellFormed) :
    ∀ (w : List Char) {current : List Nat}, (∀ i ∈ current, i < nfa.states.length) →
      ∃ b, nfa.matchFrom current w = some b ∧
        (b = true ↔ ∃ i ∈ current, nfa.Run i w nfa.accept)
  | [], current, _ => ⟨_, rfl, by simp⟩
  | x :: w, current, h => by
    obtain ⟨next, hnext, hmem⟩ := stepStates_spec x h
    have hrun : (∃ j ∈ next, nfa.Run j w nfa.accept) ↔
        ∃ i ∈ current, nfa.Run i (x :: w) nfa.accept := by
      simp only [hmem, run_cons_iff]
      exact ⟨fun ⟨j, ⟨i, hi, hm⟩, hr⟩ => ⟨i, hi, j, hm, hr⟩,
        fun ⟨i, hi, j, hm, hr⟩ => ⟨j, ⟨i, hi, hm⟩, hr⟩⟩
    by_cases hemp : next.isEmpty
    · rw [List.isEmpty_iff] at hemp
      subst hemp
      exact ⟨false, by simp [matchFrom, hnext], by simpa using hrun⟩
    · obtain ⟨b, hb, hiff⟩ := matchFrom_spec hwf w fun j hj =>
        let ⟨_, _, hm⟩ := (hmem j).1 hj
        hwf.moves_lt hm
      have : next ≠ [] := by simpa [List.isEmpty_iff] using hemp
      exact ⟨b, by simp [matchFrom, hnext, this, hb], hiff.trans hrun⟩

/-- **What `matches` decides.** On an automaton whose indices are all in range, `matches s`
never panics, and answers `true` exactly when there is a run from `start` to `accept` taking
one edge per character of `s`, in order: a `Transition(c, k)` on a character `x` with
`c = '\0'` or `c = x`, or an `EpsilonTransition(k)` on any character. -/
theorem matches_spec {nfa : NFA} (hwf : nfa.WellFormed) (s : String) :
    ∃ b, nfa.«matches» s = some b ∧ (b = true ↔ nfa.Run nfa.start s.data nfa.accept) := by
  obtain ⟨b, hb, hiff⟩ := @matchFrom_spec nfa hwf s.data [nfa.start] (by simpa using hwf.1)
  exact ⟨b, hb, by simpa using hiff⟩

/-- **`matches` takes no epsilon closure.** In `[ε→1, 'a'→2, Match]` the line `"a"` labels a
path from `start = 0` to `accept = 2` (the epsilon edge, then `'a'`), but `matches` spends
the character on the epsilon edge and answers `false`. The builder relies on the free epsilon
edge: the fragment it writes for `a*` closes its loop with `EpsilonTransition(1)`, and read
from its head `1`, the line `"a"` goes round the loop as a path while `matches` answers
`false`. -/
theorem matches_misses_epsilon_path :
    (⟨[.EpsilonTransition 1, .Transition 'a' 2, .Match], 0, 2⟩ : NFA).WellFormed ∧
      Path [.EpsilonTransition 1, .Transition 'a' 2, .Match] 0 "a".data 2 ∧
      (⟨[.EpsilonTransition 1, .Transition 'a' 2, .Match], 0, 2⟩ : NFA).«matches» "a" =
        some false ∧
      buildFromNode (.Star (.Char 'a')) 0 [.Start] =
        some (1, [.Start, .Transition 'a' 2, .EpsilonTransition 1]) ∧
      Path [.Start, .Transition 'a' 2, .EpsilonTransition 1] 1 "a".data 1 ∧
      (⟨[.Start, .Transition 'a' 2, .EpsilonTransition 1], 1, 1⟩ : NFA).«matches» "a" =
        some false :=
  ⟨⟨by decide, by decide, by simp⟩, .epsilon rfl (.transition rfl (.inr rfl) (.refl 2)), rfl,
    rfl, .transition rfl (.inr rfl) (.epsilon rfl (.refl 1)), rfl⟩

/-! ## One current state at a time

Every state holds at most one edge, so `transition` returns at most one state, and the vector
`current_states` of `matches` never holds more than one: the loop walks a single run. -/

/-- `current_states` once the loop of `matches` has read `input` from `current`, when it
carries on past an empty step instead of returning `false`; an empty vector stays empty. -/
def statesAfter (nfa : NFA) : List Nat → List Char → Option (List Nat)
  | current, [] => pure current
  | current, ch :: input => do
    let next ← nfa.stepStates ch current
    nfa.statesAfter next input

theorem statesAfter_nil (nfa : NFA) : ∀ input, nfa.statesAfter [] input = some []
  | [] => rfl
  | _ :: input => statesAfter_nil nfa input

/-- The early `return false` gives the answer the loop would give at the end: `matches` is
`contains(accept)` of the states after the whole line. -/
theorem matchFrom_eq_statesAfter (nfa : NFA) :
    ∀ current input, nfa.matchFrom current input =
      (nfa.statesAfter current input).map (·.contains nfa.accept)
  | _, [] => rfl
  | current, ch :: input => by
    cases h : nfa.stepStates ch current with
    | none => simp [matchFrom, statesAfter, h]
    | some next =>
      by_cases hn : next = []
      · subst hn; simp [matchFrom, statesAfter, h, statesAfter_nil]
      · simp [matchFrom, statesAfter, h, hn, matchFrom_eq_statesAfter nfa next input]

/-- `transition` returns at most one state. -/
theorem transition_length_le {nfa : NFA} {i : Nat} {x : Char} {r : Option (List Nat)}
    (h : nfa.transition i x = some r) : (r.getD []).length ≤ 1 := by
  simp only [transition, Option.map_eq_some'] at h
  obtain ⟨s, -, rfl⟩ := h
  cases s with
  | Transition c k => by_cases hc : c = '\x00' ∨ c = x <;> simp [hc]
  | _ => simp

/-- One pass of the inner loop from at most one state leaves at most one. -/
theorem stepStates_length_le {nfa : NFA} {x : Char} {current next : List Nat}
    (h : nfa.stepStates x current = some next) (hc : current.length ≤ 1) : next.length ≤ 1 := by
  match current, hc with
  | [], _ => cases h; simp
  | [i], _ =>
    simp only [stepStates, Option.bind_eq_bind, Option.bind_eq_some, Option.pure_def,
      Option.some.injEq, exists_eq_left'] at h
    obtain ⟨r, hr, rfl⟩ := h
    simpa using transition_length_le hr

/-- From at most one state, the loop of `matches` holds at most one state after every
character. -/
theorem statesAfter_length_le {nfa : NFA} :
    ∀ {current : List Nat} {input : List Char} {states : List Nat},
      nfa.statesAfter current input = some states → current.length ≤ 1 → states.length ≤ 1
  | _, [], _, h, hc => by cases h; exact hc
  | current, ch :: input, states, h, hc => by
    simp only [statesAfter, Option.bind_eq_bind, Option.bind_eq_some] at h
    obtain ⟨next, hnext, h⟩ := h
    exact statesAfter_length_le h (stepStates_length_le hnext hc)

/-- **`matches` keeps one state at a time.** On every automaton and every line, `matches`
answers `contains(accept)` of the vector `current_states` its loop holds after the line (the
early `return false` included), and after every prefix of every line that vector holds at
most one state: the loop follows a single run, and never chooses between edges. -/
theorem matches_one_state (nfa : NFA) (s : String) :
    nfa.«matches» s = (nfa.statesAfter [nfa.start] s.data).map (·.contains nfa.accept) ∧
      ∀ w states, nfa.statesAfter [nfa.start] w = some states → states.length ≤ 1 :=
  ⟨matchFrom_eq_statesAfter nfa _ _, fun _ _ h => statesAfter_length_le h (by simp)⟩

/-- **`from_regex` and `matches` never index out of range.** For every syntax tree the build
does not panic, the automaton's `start`, `accept` and edge targets are all in range, and
`matches` then returns an answer on every line. -/
theorem fromRegex_wellFormed (node : RegexNode) :
    ∃ nfa, fromRegex node = some nfa ∧ nfa.WellFormed ∧ ∀ s, ∃ b, nfa.«matches» s = some b := by
  obtain ⟨nfa, h, hs, ha, hpos, ht⟩ := fromRegex_spec node
  have hwf : nfa.WellFormed := .of_targetsIn (hs ▸ hpos) (ha ▸ hpos) ht
  exact ⟨nfa, h, hwf, fun s => (matches_spec hwf s).imp fun _ h => h.1⟩

end NFA

end Simplegrep
