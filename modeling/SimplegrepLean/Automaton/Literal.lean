import SimplegrepLean.Automaton.Chain

/-!
# SimplegrepLean — literal trees: where the builder is right

On literal trees (`Char` other than `'\0'`, `AnyChar`, `Concat`, `Group`, and `Repeat` with
`max = min`) every label of the chain `build_from_node` lays down tests exactly what the tree
matches, and no copy of a `Repeat` is optional. `Spells` reads a word off a line between two
positions, one character per label; the tree's language and the chain's paths both come down
to it.

* **`buildFromNode_literal_correct`** — on literal trees the fragment spells exactly the tree's
  language: there the builder preserves the meaning of the tree;
* **`matches_exit_accept_literal`** — on literal trees, `matches` over the built vector with
  the exit as `accept` answers on every line, `true` exactly on the tree's language, so the one
  fault of the engine there is the `accept` that `from_regex` never updates.
-/

namespace Simplegrep

namespace NFA

/-! ## §1 — spelling a word between two positions -/

/-- `Spells s ls i j`: from position `i` to position `j`, the characters of `s` are accepted
one by one by the labels `ls`. -/
inductive Spells (s : List Char) : List Char → Nat → Nat → Prop
  | nil (i : Nat) : Spells s [] i i
  | cons {l x : Char} {ls : List Char} {i j : Nat} : s[i]? = some x → LabelAccepts l x →
      Spells s ls (i + 1) j → Spells s (l :: ls) i j

section

variable {s : List Char}

@[simp] theorem spells_nil_iff {i j : Nat} : Spells s [] i j ↔ i = j :=
  ⟨fun | .nil _ => rfl, fun h => h ▸ .nil i⟩

theorem spells_cons_iff {l : Char} {ls : List Char} {i j : Nat} :
    Spells s (l :: ls) i j ↔ ∃ x, s[i]? = some x ∧ LabelAccepts l x ∧ Spells s ls (i + 1) j :=
  ⟨fun | .cons hx hl h => ⟨_, hx, hl, h⟩, fun ⟨_, hx, hl, h⟩ => .cons hx hl h⟩

theorem spells_append : ∀ {ls ls' : List Char} {i k : Nat},
    Spells s (ls ++ ls') i k ↔ ∃ j, Spells s ls i j ∧ Spells s ls' j k
  | [], _, _, _ => by simp
  | l :: ls, ls', i, k => by
    simp only [List.cons_append, spells_cons_iff, spells_append]
    exact ⟨fun ⟨x, hx, hl, j, h₁, h₂⟩ => ⟨j, ⟨x, hx, hl, h₁⟩, h₂⟩,
      fun ⟨j, ⟨x, hx, hl, h₁⟩, h₂⟩ => ⟨x, hx, hl, j, h₁, h₂⟩⟩

/-- Spelling to the end of `s` from `i` is accepting the rest of `s`, letter by letter. -/
theorem spells_length_iff : ∀ {ls : List Char} {i : Nat}, i ≤ s.length →
    (Spells s ls i s.length ↔ List.Forall₂ LabelAccepts ls (s.drop i))
  | [], i, hi => by
    rw [spells_nil_iff, List.forall₂_nil_left_iff, List.drop_eq_nil_iff]
    omega
  | l :: ls, i, hi => by
    rcases hi.lt_or_eq with hi | rfl
    · rw [List.drop_eq_getElem_cons hi, List.forall₂_cons, spells_cons_iff,
        ← spells_length_iff hi, List.getElem?_eq_getElem hi]
      simp
    · simp [spells_cons_iff]

end

/-! ## §2 — literal trees: the fragment spells the language -/

mutual

/-- Trees whose fragment is exact: literals other than `'\0'`, `.`, and `Concat`, `Group` and
`Repeat` with `max = min` over them. -/
def literal : RegexNode → Bool
  | .Char ch => ch != '\x00'
  | .AnyChar => true
  | .Concat nodes => allLiteral nodes
  | .Repeat node range => range.max == some range.min && literal node
  | .Group node => literal node
  | _ => false

/-- Every tree of the list is literal. -/
def allLiteral : List RegexNode → Bool
  | [] => true
  | node :: nodes => literal node && allLiteral nodes

end

/-- `k` copies of a tree that matches as its labels spell match as `k` copies of the
labels. -/
theorem repeatLabels_spells {node : RegexNode} {ls : List Char}
    (h : ∀ s i j, MatchesAt s node i j ↔ Spells s ls i j) :
    ∀ k, ∃ ls', repeatLabels (some ls) k = some ls' ∧
      ∀ s i j, MatchesAt s (.Concat (List.replicate k node)) i j ↔ Spells s ls' i j
  | 0 => ⟨[], rfl, by simp⟩
  | k + 1 =>
    let ⟨ls', hls', h'⟩ := repeatLabels_spells h k
    ⟨ls ++ ls', by simp [repeatLabels, hls'], fun s i j => by
      simp only [List.replicate_succ, matchesAt_concat_cons_iff, spells_append, h, h']⟩

mutual

/-- **A literal tree matches as its labels spell**, by structural recursion. -/
theorem literal_spells : ∀ t, literal t = true →
    ∃ ls, labels t = some ls ∧ ∀ s i j, MatchesAt s t i j ↔ Spells s ls i j
  | .Char c, h => ⟨[c], rfl, fun s i j => by
      simp only [literal, bne_iff_ne, ne_eq] at h
      simp only [matchesAt_char_iff, spells_cons_iff, spells_nil_iff, LabelAccepts]
      constructor
      · rintro ⟨hx, rfl⟩; exact ⟨c, hx, .inr rfl, rfl⟩
      · rintro ⟨x, hx, hc | rfl, rfl⟩
        exacts [absurd hc h, ⟨hx, rfl⟩]⟩
  | .AnyChar, _ => ⟨['\x00'], rfl, fun s i j => by
      simp only [matchesAt_anyChar_iff, spells_cons_iff, spells_nil_iff, LabelAccepts, true_or,
        true_and, List.getElem?_eq_some_iff]
      exact ⟨fun ⟨hi, hj⟩ => ⟨_, ⟨hi, rfl⟩, hj.symm⟩, fun ⟨_, ⟨hi, _⟩, hj⟩ => ⟨hi, hj.symm⟩⟩⟩
  | .Concat nodes, h => allLiteral_spells nodes h
  | .Repeat node ⟨min, max⟩, h => by
    simp only [literal, Bool.and_eq_true, beq_iff_eq] at h
    obtain ⟨rfl, h⟩ := h
    obtain ⟨ls, hls, hiff⟩ := literal_spells node h
    obtain ⟨ls', hls', hiff'⟩ := repeatLabels_spells hiff min
    refine ⟨ls', by simp [labels, hls, hls', repeatLabels], fun s i j => ?_⟩
    rw [matchesAt_repeat_exactly_iff, hiff']
  | .Group node, h => by
    obtain ⟨ls, hls, hiff⟩ := literal_spells node h
    exact ⟨ls, hls, fun s i j => by rw [matchesAt_group_iff, hiff]⟩
  | .Digit, h | .WordChar, h | .Whitespace, h | .Alternation _, h | .Star _, h | .Plus _, h
  | .Question _, h | .StartLine, h | .EndLine, h | .StartInput, h | .EndInput, h
  | .WordBoundary, h => by cases h

/-- The children of a literal `Concat`. -/
theorem allLiteral_spells : ∀ nodes, allLiteral nodes = true →
    ∃ ls, concatLabels nodes = some ls ∧ ∀ s i j, MatchesAt s (.Concat nodes) i j ↔ Spells s ls i j
  | [], _ => ⟨[], rfl, by simp⟩
  | node :: nodes, h => by
    simp only [allLiteral, Bool.and_eq_true] at h
    obtain ⟨ls, hls, hiff⟩ := literal_spells node h.1
    obtain ⟨ls', hls', hiff'⟩ := allLiteral_spells nodes h.2
    exact ⟨ls ++ ls', by simp [concatLabels, hls, hls'], fun s i j => by
      simp only [matchesAt_concat_cons_iff, spells_append, hiff, hiff']⟩

end

/-- **On literal trees the builder preserves the meaning.** Built from an edgeless entry in
range, a literal tree does not panic, and a line labels a path from the entry to the exit it
returns exactly when the tree matches the whole line. -/
theorem buildFromNode_literal_correct {node : RegexNode} (hlit : literal node = true)
    {states : List NFAState} {e : Nat} (he : e < states.length) (hedge : Edgeless states e) :
    ∃ r states', buildFromNode node e states = some (r, states') ∧
      ∀ s : String, Path states' e s.data r ↔ Matches node s := by
  obtain ⟨ls, hls, hiff⟩ := literal_spells node hlit
  obtain ⟨r, states', h, -, hc, hr⟩ := buildFromNode_chain node ls hls e states he
  refine ⟨r, states', h, fun s => ?_⟩
  rw [hc.path_iff (hr (.inl hedge)), Matches, hiff, spells_length_iff (Nat.zero_le _),
    List.drop_zero]

/-- `buildFromNode_literal_correct` on `(a.)\x7b2,2]` from the one `Start` state. -/
theorem buildFromNode_literal_correct_repeat :
    literal (.Repeat (.Group (.Concat [.Char 'a', .AnyChar])) ⟨2, some 2⟩) = true ∧
      0 < [NFAState.Start].length ∧ Edgeless [.Start] 0 ∧
      ∃ r states', buildFromNode (.Repeat (.Group (.Concat [.Char 'a', .AnyChar])) ⟨2, some 2⟩) 0
        [.Start] = some (r, states') ∧ ∀ s : String, Path states' 0 s.data r ↔
          Matches (.Repeat (.Group (.Concat [.Char 'a', .AnyChar])) ⟨2, some 2⟩) s :=
  have hlit : literal (.Repeat (.Group (.Concat [.Char 'a', .AnyChar])) ⟨2, some 2⟩) = true := by
    decide
  ⟨hlit, by decide, edgeless_start, buildFromNode_literal_correct hlit (by decide) edgeless_start⟩

/-! ## §3 — the engine with the exit as `accept`

`from_regex` keeps `accept = 0` from `NFA::new` and drops the exit `build_from_node` returns.
On literal trees that is the whole of the failure: taking the exit as `accept`, `matches`
decides the tree's language. -/

/-- **With the exit as `accept`, the engine is right on literal trees.** For every literal
tree, the state vector `from_regex` builds, read with `start = 0` and `accept` the exit of the
build, gets an answer from `matches` on every line without a panic, and the answer is `true`
exactly when the tree matches the whole line. -/
theorem matches_exit_accept_literal {node : RegexNode} (hlit : literal node = true) :
    ∃ r states', buildFromNode node 0 NFA.new.states = some (r, states') ∧
      ∀ s : String, ∃ b, (⟨states', 0, r⟩ : NFA).«matches» s = some b ∧
        (b = true ↔ Matches node s) := by
  obtain ⟨ls, hls, hiff⟩ := literal_spells node hlit
  obtain ⟨r, states', h, spec, hc, hr⟩ := buildFromNode_chain node ls hls 0 [.Start] (by decide)
  refine ⟨r, states', h, fun s => ?_⟩
  obtain ⟨b, hb, hrun⟩ := matches_spec (.of_build spec) s
  refine ⟨b, hb, ?_⟩
  rw [hrun, @Chain.run_iff ⟨states', 0, r⟩ _ _ _ _ hc (hr (.inl edgeless_start)), Matches,
    hiff, spells_length_iff (Nat.zero_le _), List.drop_zero]

/-- `matches_exit_accept_literal` on `ab`. -/
theorem matches_exit_accept_literal_concat :
    literal (.Concat [.Char 'a', .Char 'b']) = true ∧
      ∃ r states', buildFromNode (.Concat [.Char 'a', .Char 'b']) 0 NFA.new.states =
        some (r, states') ∧ ∀ s : String, ∃ b, (⟨states', 0, r⟩ : NFA).«matches» s = some b ∧
          (b = true ↔ Matches (.Concat [.Char 'a', .Char 'b']) s) :=
  have hlit : literal (.Concat [.Char 'a', .Char 'b']) = true := by decide
  ⟨hlit, matches_exit_accept_literal hlit⟩

end NFA

end Simplegrep
