import SimplegrepLean.Ast
import Mathlib.Logic.Basic

/-!
# SimplegrepLean — what a pattern should match

The standard meaning of a syntax tree on a line, as the specification states it:
`MatchesAt s n i j` says that `n` matches the characters of `s` from position `i` to
position `j`. Classes match one character of their class, quantifiers repeat their child,
`Group` is transparent, and the anchors match the empty string at the positions where they
hold. `Matches n s` is the whole-line match the engine is meant to decide.
-/

namespace Simplegrep

/-- `[a-zA-Z0-9_]`, the class of `\w`. -/
def IsWordChar (c : Char) : Prop := c.isAlphanum = true ∨ c = '_'

/-- A word character sits at position `i` of `s`. -/
def WordAt (s : List Char) (i : Nat) : Prop := ∃ c, s[i]? = some c ∧ IsWordChar c

/-- `\b` at position `i`: exactly one of the two neighbouring characters is a word
character. -/
def AtWordBoundary (s : List Char) (i : Nat) : Prop := Xor' (0 < i ∧ WordAt s (i - 1)) (WordAt s i)

/-- `MatchesAt s n i j`: `n` matches `s` from position `i` to position `j`. -/
inductive MatchesAt (s : List Char) : RegexNode → Nat → Nat → Prop
  | char {c : Char} {i : Nat} : s[i]? = some c → MatchesAt s (.Char c) i (i + 1)
  | anyChar {i : Nat} : i < s.length → MatchesAt s .AnyChar i (i + 1)
  | digit {c : Char} {i : Nat} : s[i]? = some c → c.isDigit → MatchesAt s .Digit i (i + 1)
  | wordChar {c : Char} {i : Nat} : s[i]? = some c → IsWordChar c →
      MatchesAt s .WordChar i (i + 1)
  | whitespace {c : Char} {i : Nat} : s[i]? = some c → c.isWhitespace →
      MatchesAt s .Whitespace i (i + 1)
  | concatNil {i : Nat} : MatchesAt s (.Concat []) i i
  | concatCons {n : RegexNode} {ns : List RegexNode} {i j k : Nat} : MatchesAt s n i j →
      MatchesAt s (.Concat ns) j k → MatchesAt s (.Concat (n :: ns)) i k
  | alternation {n : RegexNode} {ns : List RegexNode} {i j : Nat} : n ∈ ns →
      MatchesAt s n i j → MatchesAt s (.Alternation ns) i j
  | starNil {n : RegexNode} {i : Nat} : MatchesAt s (.Star n) i i
  | starCons {n : RegexNode} {i j k : Nat} : MatchesAt s n i j → MatchesAt s (.Star n) j k →
      MatchesAt s (.Star n) i k
  | plus {n : RegexNode} {i j k : Nat} : MatchesAt s n i j → MatchesAt s (.Star n) j k →
      MatchesAt s (.Plus n) i k
  | questionNone {n : RegexNode} {i : Nat} : MatchesAt s (.Question n) i i
  | questionSome {n : RegexNode} {i j : Nat} : MatchesAt s n i j →
      MatchesAt s (.Question n) i j
  /-- Between `min` and `max` copies; at least `min` when `max` is `none`. -/
  | «repeat» {n : RegexNode} {r : RepeatRange} {count i j : Nat} : r.min ≤ count →
      (∀ m, r.max = some m → count ≤ m) →
      MatchesAt s (.Concat (List.replicate count n)) i j → MatchesAt s (.Repeat n r) i j
  | group {n : RegexNode} {i j : Nat} : MatchesAt s n i j → MatchesAt s (.Group n) i j
  | startLine : MatchesAt s .StartLine 0 0
  | startInput : MatchesAt s .StartInput 0 0
  | endLine : MatchesAt s .EndLine s.length s.length
  | endInput : MatchesAt s .EndInput s.length s.length
  | wordBoundary {i : Nat} : i ≤ s.length → AtWordBoundary s i →
      MatchesAt s .WordBoundary i i

/-- `n` matches the whole line `s`. -/
def Matches (n : RegexNode) (s : String) : Prop := MatchesAt s.data n 0 s.data.length

/-! The rules read backwards, for the constructors whose rules are structural. -/

section

variable {s : List Char} {i j : Nat}

theorem matchesAt_char_iff {c : Char} : MatchesAt s (.Char c) i j ↔ s[i]? = some c ∧ j = i + 1 :=
  ⟨fun | .char h => ⟨h, rfl⟩, fun ⟨h, hj⟩ => hj ▸ .char h⟩

theorem matchesAt_anyChar_iff : MatchesAt s .AnyChar i j ↔ i < s.length ∧ j = i + 1 :=
  ⟨fun | .anyChar h => ⟨h, rfl⟩, fun ⟨h, hj⟩ => hj ▸ .anyChar h⟩

@[simp] theorem matchesAt_concat_nil_iff : MatchesAt s (.Concat []) i j ↔ i = j :=
  ⟨fun | .concatNil => rfl, fun h => h ▸ .concatNil⟩

theorem matchesAt_concat_cons_iff {n : RegexNode} {ns : List RegexNode} {k : Nat} :
    MatchesAt s (.Concat (n :: ns)) i k ↔ ∃ j, MatchesAt s n i j ∧ MatchesAt s (.Concat ns) j k :=
  ⟨fun | .concatCons h₁ h₂ => ⟨_, h₁, h₂⟩, fun ⟨_, h₁, h₂⟩ => .concatCons h₁ h₂⟩

@[simp] theorem matchesAt_group_iff {n : RegexNode} :
    MatchesAt s (.Group n) i j ↔ MatchesAt s n i j :=
  ⟨fun | .group h => h, .group⟩

/-- A range `{k,k}` takes exactly `k` copies. -/
theorem matchesAt_repeat_exactly_iff {n : RegexNode} {k : Nat} :
    MatchesAt s (.Repeat n ⟨k, some k⟩) i j ↔ MatchesAt s (.Concat (List.replicate k n)) i j := by
  refine ⟨fun h => ?_, fun h => .repeat le_rfl (fun _ hm => (Option.some.inj hm).le) h⟩
  cases h with
  | «repeat» hmin hmax h =>
    obtain rfl : _ = k := le_antisymm (hmax k rfl) hmin
    exact h

end

end Simplegrep
