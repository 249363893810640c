import SimplegrepLean.Automaton.Run
import SimplegrepLean.Parser.Errors
import SimplegrepLean.Semantics

/-!
# SimplegrepLean — the engine end to end

`main` parses the pattern, builds `NFA::from_regex` once, and asks `nfa.matches(line)` of
every line, printing the lines selected (after a `path:number` header when a file was given).
`from_regex` leaves `start = accept = 0` (`NFA::new`), and no edge the builder writes ever
leads back to state `0` (`fromRegex_spec`). A run of `matches` over a non-empty line ends on
the target of an edge, so it never ends on `accept`:

* **`fromRegex_matches_iff_empty`** — for every syntax tree, the automaton matches a line
  exactly when the line is empty;
* **`engine_rejects_literal_line`** — the pattern `"a"` parses to `Char('a')`, which matches
  the line `"a"`, and the engine answers `false`;
* **`main_output`** — for every pattern that parses, `main` prints, line by line, what it
  prints for a line that matches exactly when the line is empty, and ends with `Ok(())`;
* **`main_ascii`** — on a pattern of one-byte characters `main` never panics: it ends as
  `main_output` says, or prints nothing and exits on one of the parser's three refusals.

The lines are given: reading them from the file or standard input, and the I/O errors of that,
are left out.
-/

namespace Simplegrep

namespace NFA

/-- A run over a non-empty word ends on the target of some edge. -/
theorem Run.end_is_target {nfa : NFA} {i k : Nat} {w : List Char} (h : nfa.Run i w k)
    (hw : w ≠ []) : ∃ s ∈ nfa.states, s.target = some k := by
  induction h with
  | nil => exact absurd rfl hw
  | @cons _ _ _ _ w hm hr ih =>
    rcases w with _ | ⟨_, _⟩
    · cases hr; exact hm.target
    · exact ih (List.cons_ne_nil _ _)

/-- With every edge leading into `[1, length)`, a run from `0` back to `0` reads nothing. -/
theorem run_zero_zero_iff {nfa : NFA} (h : TargetsIn 1 nfa.states.length nfa.states)
    {w : List Char} : nfa.Run 0 w 0 ↔ w = [] := by
  refine ⟨fun hr => ?_, fun hw => hw ▸ .nil 0⟩
  by_contra hw
  obtain ⟨s, hs, ht⟩ := hr.end_is_target hw
  exact absurd (h s hs 0 ht).1 (by decide)

/-- An automaton shaped as `from_regex` leaves it (`start = accept = 0`, no edge into `0`)
matches exactly the empty line. -/
theorem matches_eq_isEmpty {nfa : NFA} (hs : nfa.start = 0) (ha : nfa.accept = 0)
    (hpos : 0 < nfa.states.length) (ht : TargetsIn 1 nfa.states.length nfa.states)
    (s : String) : nfa.«matches» s = some (decide (s = "")) := by
  obtain ⟨b, hb, hiff⟩ := matches_spec (.of_targetsIn (hs ▸ hpos) (ha ▸ hpos) ht) s
  rw [hb]
  rw [hs, ha, run_zero_zero_iff ht] at hiff
  have : s = "" ↔ s.data = [] := ⟨fun h => h ▸ rfl, fun h => String.ext h⟩
  cases b <;> simp_all

/-- **The built automaton accepts only the empty line.** For every syntax tree, `from_regex`
succeeds and `matches` answers, on every line, whether the line is empty. -/
theorem fromRegex_matches_iff_empty (node : RegexNode) (s : String) :
    ∃ nfa, fromRegex node = some nfa ∧ nfa.«matches» s = some (decide (s = "")) := by
  obtain ⟨nfa, h, hs, ha, hpos, ht⟩ := fromRegex_spec node
  exact ⟨nfa, h, matches_eq_isEmpty hs ha hpos ht s⟩

end NFA

/-- **The engine rejects a literal line.** The pattern `"a"` parses to `Char('a')`, which by
the standard semantics matches the line `"a"`; the automaton `from_regex` builds for it
answers `false` on that line, since its `accept` is still the start state `0`. -/
theorem engine_rejects_literal_line :
    ∃ p, parsePattern "a" = .ok (.Char 'a') p ∧ Matches (.Char 'a') "a" ∧
      (NFA.fromRegex (.Char 'a')).bind (·.«matches» "a") = some false :=
  ⟨_, rfl, .char rfl, rfl⟩

/-! ## `main` -/

/-- How `main` ends. -/
inductive Exit where
  /-- `Ok(())`. -/
  | ok
  /-- `eprintln!("Error parsing regex: ...", e)`, then `std::process::exit(1)`. -/
  | parseError (e : ParseError)
  /-- A panic: of the lexer, or of an index out of range in the builder or the matcher. -/
  | panic
deriving DecidableEq, Repr

/-- The lines one turn of the loop prints for line `line_num` (counted from `0`), given
`matches = nfa.matches(&line)`: the line when `should_print`, after the header
`println!("{}:{}", file, line_num + 1)` when a file was given. -/
def printLine (file : Option String) (invertMatch : Bool) (lineNum : Nat) (line : String)
    («matches» : Bool) : List String :=
  let shouldPrint := if invertMatch then !«matches» else «matches»
  if shouldPrint then
    (match file with
      | some path => [path ++ ":" ++ toString (lineNum + 1)]
      | none => []) ++ [line]
  else []

/-- `for (line_num, line) in input.lines().enumerate()`, from line `lineNum` on, with `out` the
lines printed so far: the lines printed when the loop ends, and how it ends. A panic of
`nfa.matches(&line)` ends the run on that line, after the lines already printed. -/
def processLines (nfa : NFA) (file : Option String) (invertMatch : Bool) :
    Nat → List String → List String → List String × Exit
  | _, out, [] => (out, .ok)
  | lineNum, out, line :: lines =>
    match nfa.«matches» line with
    | some m =>
      processLines nfa file invertMatch (lineNum + 1)
        (out ++ printLine file invertMatch lineNum line m) lines
    | none => (out, .panic)

/-- `main`, on the pattern, the `--file` and `--invert-match` arguments and the input lines:
the lines printed on standard output, and how it ends. -/
def main (pattern : String) (file : Option String) (invertMatch : Bool) (lines : List String) :
    List String × Exit :=
  match parsePattern pattern with
  | .ok regexAst _ =>
    match NFA.fromRegex regexAst with
    | some nfa => processLines nfa file invertMatch 0 [] lines
    | none => ([], .panic)
  | .err e => ([], .parseError e)
  | .panic | .outOfFuel => ([], .panic)

/-- The loop over an automaton that answers `f line` on every line: no panic, and after what
was printed before, each line prints what `printLine` prints for it. -/
theorem processLines_eq {nfa : NFA} {file : Option String} {invertMatch : Bool}
    {f : String → Bool} : ∀ {lineNum : Nat} {out lines : List String},
      (∀ line ∈ lines, nfa.«matches» line = some (f line)) →
      processLines nfa file invertMatch lineNum out lines =
        (out ++ (lines.enumFrom lineNum).flatMap fun (i, line) =>
          printLine file invertMatch i line (f line), .ok)
  | _, out, [], _ => by rw [processLines, List.enumFrom_nil, List.flatMap_nil, List.append_nil]
  | lineNum, out, line :: lines, h => by
    simp only [processLines, h line (List.mem_cons_self _ _),
      processLines_eq fun l hl => h l (List.mem_cons_of_mem _ hl), List.append_assoc]
    rfl

/-- **What `main` prints.** For every pattern that parses, on every input, with or without
`--file` and `--invert-match`, `main` does not panic, ends with `Ok(())`, and prints for each
line what it prints for a line that matches exactly when the line is empty. -/
theorem main_output {pattern : String} {t : RegexNode} {p : Parser}
    (h : parsePattern pattern = .ok t p) (file : Option String) (invertMatch : Bool)
    (lines : List String) :
    main pattern file invertMatch lines =
      (lines.enum.flatMap fun (i, line) =>
        printLine file invertMatch i line (decide (line = "")), .ok) := by
  obtain ⟨nfa, hnfa, hs, ha, hpos, ht⟩ := NFA.fromRegex_spec t
  rw [main, h]
  simp only [hnfa]
  exact processLines_eq fun line _ => NFA.matches_eq_isEmpty hs ha hpos ht line

/-- `main_output` on the pattern `banana` over the lines `apple`, `banana`, `cherry`: nothing
is printed; with `--invert-match`, all three lines are. -/
theorem main_output_banana :
    (∃ p, parsePattern "banana" = .ok (.Concat ((String.toList "banana").map .Char)) p) ∧
      main "banana" none false ["apple", "banana", "cherry"] = ([], .ok) ∧
      main "banana" none true ["apple", "banana", "cherry"] =
        (["apple", "banana", "cherry"], .ok) :=
  have h : parsePattern "banana" = .ok (.Concat ((String.toList "banana").map .Char))
      ⟨⟨"banana", 6⟩, .EOF⟩ := rfl
  ⟨⟨_, h⟩, (main_output h none false _).trans rfl, (main_output h none true _).trans rfl⟩

/-- **`main` on a one-byte pattern.** On every pattern whose characters are one byte each,
with any `--file`, `--invert-match` and input, `main` never panics: either it ends with
`Ok(())` after printing, line by line, what it prints for a line that matches exactly when it
is empty, or it prints nothing and exits on a parse error that is one of the parser's three
refusals. -/
theorem main_ascii {pattern : String} (hs : ∀ c ∈ pattern.data, c.utf8Size = 1)
    (file : Option String) (invertMatch : Bool) (lines : List String) :
    main pattern file invertMatch lines =
        (lines.enum.flatMap fun (i, line) =>
          printLine file invertMatch i line (decide (line = "")), .ok) ∨
      ∃ e, main pattern file invertMatch lines = ([], .parseError e) ∧ Parser.Refusal e := by
  obtain ⟨toks, hl⟩ := Option.isSome_iff_exists.1 ((lexChars_isSome_iff _).2 hs)
  replace hl := (lexes_iff_lexChars _ (Lexer.at_new pattern) toks).2 hl
  obtain ⟨p, q, hp, hq, hpq⟩ := Parser.new_sameTokens hl hl
  obtain rfl : p = q := Option.some.inj (hp.symm.trans hq)
  have hpanic := (Parser.parse_agree (le_refl p.budget) p p hpq).ne_panic
  have hpat : parsePattern pattern = Parser.parse p.budget p := by rw [parsePattern, hp]
  rcases h : Parser.parse p.budget p with ⟨t, _⟩ | e | _ | _
  · obtain ⟨nfa, hnfa, hstart, hacc, hpos, ht⟩ := NFA.fromRegex_spec t
    left
    rw [main, hpat, h]
    simp only [hnfa]
    exact processLines_eq fun line _ => NFA.matches_eq_isEmpty hstart hacc hpos ht line
  · exact .inr ⟨e, by rw [main, hpat, h], Parser.parse_refuses _ _ e h⟩
  · exact absurd h hpanic
  · exact absurd h (Parser.parse_budget_ne_outOfFuel p)

/-- `main_ascii` on the pattern `(a|b`, which the parser refuses: nothing is printed. -/
theorem main_ascii_unclosed :
    (∀ c ∈ "(a|b".data, c.utf8Size = 1) ∧
      (main "(a|b" none false ["a", ""] =
          (["a", ""].enum.flatMap fun (i, line) =>
            printLine none false i line (decide (line = "")), .ok) ∨
        ∃ e, main "(a|b" none false ["a", ""] = ([], .parseError e) ∧ Parser.Refusal e) :=
  have hs : ∀ c ∈ "(a|b".data, c.utf8Size = 1 := by decide
  ⟨hs, main_ascii hs none false ["a", ""]⟩

end Simplegrep
