import SimplegrepLean.Tokens

/-!
# SimplegrepLean — the lexer, character by character

`next_token` works on byte offsets but always advances by one byte. On a character boundary
this reads exactly one character, so from a boundary the lexer is a function of the
characters left: `lexChars` reads them one at a time, and returns `none` as soon as it reads
a character wider than one byte, because the byte after it is not a boundary and the next
`next_token` panics slicing there.

* `Lexer.At lx rest` — `lx` sits on a boundary with the characters `rest` left;
* `Lexes lx toks` — repeated `next_token` calls from `lx` return `toks`, then `EOF`, and
  never panic; `LexesOk s` — lexing the pattern `s` to its end never panics;
* **`lexes_iff_lexChars`** — from a boundary, `Lexes` is `lexChars` (the refinement);
* **`lexesOk_iff`** — lexing a pattern never panics exactly when every character of it is one
  byte long;
* **`nextToken_panics_after_two_byte_char`** — the pattern `"é"`: the second `next_token`
  call slices at byte `1`, inside `é`;
* **`lexes_padded`** — blanks inserted where a token may start change none of the tokens.
-/

namespace Simplegrep

open String (utf8Len)

/-! ## §1 — slicing at byte offsets -/

theorem utf8ByteSize_eq_utf8Len (s : String) : s.utf8ByteSize = utf8Len s.data := by
  cases s; simp

@[simp] theorem sliceFrom_zero (cs : List Char) : sliceFrom cs 0 = some cs := by
  cases cs <;> rfl

theorem sliceFrom_append (pre rest : List Char) (k : Nat) :
    sliceFrom (pre ++ rest) (utf8Len pre + k) = sliceFrom rest k := by
  induction pre with
  | nil => simp
  | cons c pre ih =>
    have := c.utf8Size_pos
    obtain ⟨n, hn⟩ : ∃ n, utf8Len pre + c.utf8Size + k = n + 1 :=
      ⟨utf8Len pre + c.utf8Size + k - 1, by omega⟩
    rw [List.cons_append, String.utf8Len_cons, hn, sliceFrom, if_pos (by omega),
      show n + 1 - c.utf8Size = utf8Len pre + k by omega, ih]

/-- A slice that succeeds is a suffix, and the offset is the byte length before it. -/
theorem exists_of_sliceFrom : ∀ {cs : List Char} {p : Nat} {rest : List Char},
    sliceFrom cs p = some rest → ∃ pre, cs = pre ++ rest ∧ utf8Len pre = p
  | cs, 0, rest, h => ⟨[], by simpa using h, rfl⟩
  | [], _ + 1, _, h => by simp [sliceFrom] at h
  | c :: cs, i + 1, rest, h => by
    simp only [sliceFrom] at h
    split at h
    · obtain ⟨pre, rfl, hpre⟩ := exists_of_sliceFrom h
      exact ⟨c :: pre, rfl, by simp; omega⟩
    · simp at h

/-- `lx` sits on a character boundary, with the characters `rest` still to read. -/
def Lexer.At (lx : Lexer) (rest : List Char) : Prop :=
  sliceFrom lx.input.data lx.position = some rest

namespace Lexer.At

variable {lx : Lexer} {c : Char} {rest : List Char}

theorem position_add (h : lx.At rest) : lx.position + utf8Len rest = lx.input.utf8ByteSize := by
  obtain ⟨pre, hpre, hp⟩ := exists_of_sliceFrom h
  rw [utf8ByteSize_eq_utf8Len, hpre, String.utf8Len_append, hp]

theorem end_iff (h : lx.At rest) : lx.input.utf8ByteSize ≤ lx.position ↔ rest = [] := by
  rw [← h.position_add, ← String.utf8Len_eq_zero]; omega

theorem charAt (h : lx.At (c :: rest)) : Simplegrep.charAt lx.input lx.position = some c := by
  simp [Simplegrep.charAt, show sliceFrom lx.input.data lx.position = _ from h]

/-- Reading `c` from a boundary and advancing by its width lands on the next boundary. -/
theorem next (h : lx.At (c :: rest)) :
    ({ lx with position := lx.position + c.utf8Size } : Lexer).At rest := by
  obtain ⟨pre, hpre, hp⟩ := exists_of_sliceFrom h
  have := c.utf8Size_pos
  obtain ⟨n, hn⟩ : ∃ n, c.utf8Size = n + 1 := ⟨c.utf8Size - 1, by omega⟩
  simp only [Lexer.At, hpre, ← hp, sliceFrom_append, hn, sliceFrom, le_refl, if_true,
    Nat.sub_self, sliceFrom_zero]

/-- Advancing by fewer bytes than the width of `c` lands inside `c`. -/
theorem inside (h : lx.At (c :: rest)) {k : Nat} (hk : 0 < k) (hk' : k < c.utf8Size) :
    sliceFrom lx.input.data (lx.position + k) = none := by
  obtain ⟨pre, hpre, hp⟩ := exists_of_sliceFrom h
  obtain ⟨n, rfl⟩ : ∃ n, k = n + 1 := ⟨k - 1, by omega⟩
  rw [hpre, ← hp, sliceFrom_append, sliceFrom, if_neg (by omega)]

end Lexer.At

/-! ## §2 — one `next_token` call from a boundary -/

theorem symbolToken_ne_EOF (c : Char) : symbolToken c ≠ .EOF := by
  unfold symbolToken; split <;> simp

theorem escapeToken_ne_EOF (c : Char) : escapeToken c ≠ .EOF := by
  unfold escapeToken; split <;> simp

theorem Skipped.utf8Size {c : Char} (h : Skipped c) : c.utf8Size = 1 := by
  rcases h with rfl | rfl | rfl | rfl <;> rfl

namespace Lexer

variable {lx : Lexer} {c : Char} {rest : List Char}

/-- The lexer advanced by one byte. -/
abbrev succ (lx : Lexer) : Lexer := { lx with position := lx.position + 1 }

theorem nextToken_of_at_nil (h : lx.At []) : lx.nextToken = some (.EOF, lx) := by
  rw [nextToken_eq, if_pos (h.end_iff.2 rfl)]

theorem nextToken_of_at_cons (h : lx.At (c :: rest)) :
    lx.nextToken =
      if Skipped c then lx.succ.nextToken
      else if c = '\\' then lx.succ.handleEscape
      else some (symbolToken c, lx.succ) := by
  rw [nextToken_eq, if_neg (by simp [h.end_iff]), h.charAt, Option.some_bind]

theorem handleEscape_of_at_nil (h : lx.At []) : lx.handleEscape = some (.Char '\\', lx) := by
  rw [handleEscape, if_pos (h.end_iff.2 rfl)]

theorem handleEscape_of_at_cons (h : lx.At (c :: rest)) :
    lx.handleEscape = some (escapeToken c, lx.succ) := by
  rw [handleEscape, if_neg (by simp [h.end_iff]), h.charAt]; rfl

/-- A one-byte character read from a boundary leaves the lexer on the next boundary. -/
theorem At.succ (h : lx.At (c :: rest)) (hc : c.utf8Size = 1) : lx.succ.At rest := by
  simpa [hc] using h.next

/-- A character wider than one byte read from a boundary leaves the lexer inside it, short of
the end. -/
theorem At.succ_inside (h : lx.At (c :: rest)) (hc : c.utf8Size ≠ 1) :
    sliceFrom lx.succ.input.data lx.succ.position = none ∧
      lx.succ.position < lx.succ.input.utf8ByteSize := by
  have := c.utf8Size_pos
  refine ⟨h.inside (by omega) (by omega), ?_⟩
  have := h.position_add; simp at this ⊢; omega

/-- Inside a character, short of the end, `next_token` panics. -/
theorem nextToken_inside (h : sliceFrom lx.input.data lx.position = none)
    (hp : lx.position < lx.input.utf8ByteSize) : lx.nextToken = none := by
  rw [nextToken_eq, if_neg (by omega), Simplegrep.charAt, h]; rfl

end Lexer

/-! ## §3 — lexing to the end -/

/-- `Lexes lx toks`: calling `next_token` on `lx` again and again returns `toks` and then
`EOF`, and no call panics. -/
inductive Lexes : Lexer → List Token → Prop
  | eof {lx lx' : Lexer} : lx.nextToken = some (.EOF, lx') → Lexes lx []
  | token {lx lx' : Lexer} {tok : Token} {toks : List Token} :
      lx.nextToken = some (tok, lx') → tok ≠ .EOF → Lexes lx' toks → Lexes lx (tok :: toks)

/-- Lexing the pattern `s` to its end never panics. -/
def LexesOk (s : String) : Prop := ∃ toks, Lexes (Lexer.new s) toks

theorem lexes_congr {lx lx' : Lexer} (h : lx.nextToken = lx'.nextToken) {toks : List Token} :
    Lexes lx toks ↔ Lexes lx' toks := by
  constructor <;> rintro (⟨h'⟩ | ⟨h', ht, hl⟩)
  exacts [.eof (h ▸ h'), .token (h ▸ h') ht hl, .eof (h ▸ h'), .token (h ▸ h') ht hl]

theorem lexes_of_step {lx lx' : Lexer} {tok : Token} (h : lx.nextToken = some (tok, lx'))
    (ht : tok ≠ .EOF) {toks : List Token} :
    Lexes lx toks ↔ ∃ toks', toks = tok :: toks' ∧ Lexes lx' toks' := by
  constructor
  · rintro (⟨h'⟩ | ⟨h', _, hl⟩) <;> rw [h] at h' <;> cases h'
    exacts [absurd rfl ht, ⟨_, rfl, hl⟩]
  · rintro ⟨toks', rfl, hl⟩
    exact .token h ht hl

theorem not_lexes_of_panic {lx : Lexer} (h : lx.nextToken = none) {toks : List Token} :
    ¬Lexes lx toks := by
  rintro (⟨h'⟩ | ⟨h', _, _⟩) <;> rw [h] at h' <;> cases h'

theorem lexes_of_at_nil {lx : Lexer} (h : lx.At []) {toks : List Token} :
    Lexes lx toks ↔ toks = [] := by
  have hn := Lexer.nextToken_of_at_nil h
  constructor
  · rintro (⟨_⟩ | ⟨h', ht, _⟩)
    · rfl
    · rw [hn] at h'; cases h'; exact absurd rfl ht
  · rintro rfl; exact .eof hn

/-- The lexer read off the characters left, one character at a time: `none` as soon as a
character wider than one byte is read, since the next call then slices inside it. -/
def lexChars : List Char → Option (List Token)
  | [] => some []
  | c :: cs =>
    if Skipped c then lexChars cs
    else if c = '\\' then
      match cs with
      | [] => some [.Char '\\']
      | e :: cs => if e.utf8Size = 1 then (lexChars cs).map (escapeToken e :: ·) else none
    else if c.utf8Size = 1 then (lexChars cs).map (symbolToken c :: ·) else none

theorem lexChars_skipped {c : Char} (cs : List Char) (h : Skipped c) :
    lexChars (c :: cs) = lexChars cs := by
  cases cs <;> simp [lexChars, h]

theorem lexChars_backslash (e : Char) (cs : List Char) : lexChars ('\\' :: e :: cs) =
    if e.utf8Size = 1 then (lexChars cs).map (escapeToken e :: ·) else none := rfl

theorem lexChars_other {c : Char} (cs : List Char) (hc : ¬Skipped c) (hb : c ≠ '\\') :
    lexChars (c :: cs) =
      if c.utf8Size = 1 then (lexChars cs).map (symbolToken c :: ·) else none := by
  cases cs <;> simp [lexChars, hc, hb]

/-- One `next_token` call that returns `tok`, followed by a lexer that lexes as `o` says. -/
theorem lexes_of_step_iff {lx lx' : Lexer} {tok : Token} {o : Option (List Token)}
    (h : lx.nextToken = some (tok, lx')) (ht : tok ≠ .EOF)
    (h' : ∀ toks, Lexes lx' toks ↔ o = some toks) (toks : List Token) :
    Lexes lx toks ↔ o.map (tok :: ·) = some toks := by
  rw [lexes_of_step h ht, Option.map_eq_some']
  exact ⟨fun ⟨t, h₁, h₂⟩ => ⟨t, (h' t).1 h₂, h₁.symm⟩,
    fun ⟨t, h₁, h₂⟩ => ⟨t, h₂.symm, (h' t).2 h₁⟩⟩

/-- A panicking lexer lexes as `none`. -/
theorem lexes_iff_none {lx : Lexer} (h : lx.nextToken = none) (toks : List Token) :
    Lexes lx toks ↔ none = some toks :=
  iff_of_false (not_lexes_of_panic h) (by simp)

/-- **The byte lexer refines the character lexer.** From a character boundary with the
characters `rest` left, `next_token` calls run to `EOF` without panicking, returning `toks`,
exactly when `lexChars rest = some toks`. -/
theorem lexes_iff_lexChars (rest : List Char) :
    ∀ {lx : Lexer}, lx.At rest → ∀ toks, Lexes lx toks ↔ lexChars rest = some toks := by
  induction rest using lexChars.induct with
  | case1 =>
    intro lx h toks
    rw [lexes_of_at_nil h, lexChars, Option.some.injEq, eq_comm]
  | case2 c cs hc ih =>
    intro lx h toks
    rw [lexes_congr (show lx.nextToken = lx.succ.nextToken by
      rw [Lexer.nextToken_of_at_cons h, if_pos hc]),
      ih (h.succ hc.utf8Size), lexChars_skipped cs hc]
  | case3 hb =>
    intro lx h toks
    have h₁ := h.succ rfl
    rw [@lexes_of_step_iff _ _ _ (some []) (by rw [Lexer.nextToken_of_at_cons h, if_neg hb,
      if_pos rfl, Lexer.handleEscape_of_at_nil h₁]) (by simp)
      (fun _ => by rw [lexes_of_at_nil h₁, Option.some.injEq, eq_comm])]
    rfl
  | case4 e cs he hb ih =>
    intro lx h toks
    have h₁ := h.succ rfl
    rw [lexes_of_step_iff (by rw [Lexer.nextToken_of_at_cons h, if_neg hb, if_pos rfl,
      Lexer.handleEscape_of_at_cons h₁]) (escapeToken_ne_EOF e) (ih (h₁.succ he)),
      lexChars_backslash, if_pos he]
  | case5 e cs he hb =>
    intro lx h toks
    have h₁ := h.succ rfl
    obtain ⟨hin, hlt⟩ := h₁.succ_inside he
    rw [lexes_of_step_iff (by rw [Lexer.nextToken_of_at_cons h, if_neg hb, if_pos rfl,
      Lexer.handleEscape_of_at_cons h₁]) (escapeToken_ne_EOF e)
      (lexes_iff_none (Lexer.nextToken_inside hin hlt)), lexChars_backslash, if_neg he]
    rfl
  | case6 c cs hc hb he ih =>
    intro lx h toks
    rw [lexes_of_step_iff (by rw [Lexer.nextToken_of_at_cons h, if_neg hc, if_neg hb])
      (symbolToken_ne_EOF c) (ih (h.succ he)), lexChars_other cs hc hb, if_pos he]
  | case7 c cs hc hb he =>
    intro lx h toks
    obtain ⟨hin, hlt⟩ := h.succ_inside he
    rw [lexes_of_step_iff (by rw [Lexer.nextToken_of_at_cons h, if_neg hc, if_neg hb])
      (symbolToken_ne_EOF c) (lexes_iff_none (Lexer.nextToken_inside hin hlt)),
      lexChars_other cs hc hb, if_neg he]
    rfl

theorem lexChars_isSome_iff (cs : List Char) :
    (lexChars cs).isSome ↔ ∀ c ∈ cs, c.utf8Size = 1 := by
  induction cs using lexChars.induct with
  | case1 => simp [lexChars]
  | case2 c cs hc ih => simp [lexChars_skipped cs hc, ih, hc.utf8Size]
  | case3 => decide
  | case4 e cs he _ ih => simp [lexChars_backslash, he, ih, show '\\'.utf8Size = 1 from rfl]
  | case5 e cs he _ => simp [lexChars_backslash, he]
  | case6 c cs hc hb he ih => simp [lexChars_other cs hc hb, he, ih]
  | case7 c cs hc hb he => simp [lexChars_other cs hc hb, he]

theorem Lexer.at_new (s : String) : (Lexer.new s).At s.data := sliceFrom_zero _

/-- **When lexing panics.** Lexing a pattern to its end never panics exactly when every
character of it is one byte (ASCII). -/
theorem lexesOk_iff (s : String) : LexesOk s ↔ ∀ c ∈ s.data, c.utf8Size = 1 := by
  rw [← lexChars_isSome_iff, Option.isSome_iff_exists]
  exact exists_congr fun toks => lexes_iff_lexChars _ (Lexer.at_new s) toks

/-- **`next_token` slices inside a character.** On the pattern `"é"` (two bytes) the first
call returns `Char('é')` and moves to byte `1`; the second call slices `input[1..]`, inside
`é`, and panics. -/
theorem nextToken_panics_after_two_byte_char :
    (Lexer.new "é").nextToken = some (.Char 'é', ⟨"é", 1⟩) ∧
      (⟨"é", 1⟩ : Lexer).nextToken = none := by
  decide

/-! ## §4 — blanks between tokens

`next_token` skips `' '`, `'\t'`, `'\n'` and `'\r'` wherever a token may start, and only
there: right after a backslash that begins an escape, `handle_escape` reads the next
character whatever it is. `Padded false s s'` says that `s'` is `s` with such blanks
inserted at token starts; the flag records that the character before was a backslash that
begins an escape. -/

/-- `Padded esc s s'`: `s'` is `s` with blanks inserted, none right after a backslash that
begins an escape (`esc` says the character before `s` was one). -/
inductive Padded : Bool → List Char → List Char → Prop
  | nil (esc : Bool) : Padded esc [] []
  | blank {w : Char} {s s' : List Char} : Skipped w → Padded false s s' →
      Padded false s (w :: s')
  | char {esc : Bool} {c : Char} {s s' : List Char} : Padded (!esc && c == '\\') s s' →
      Padded esc (c :: s) (c :: s')

/-- **Blanks at token starts are invisible to the character lexer.** With the pending
backslash put back in front when the flag is set, both sides lex alike. -/
theorem lexChars_padded {esc : Bool} {s s' : List Char} (h : Padded esc s s') :
    lexChars (cond esc ('\\' :: s') s') = lexChars (cond esc ('\\' :: s) s) := by
  induction h with
  | nil esc => rfl
  | blank hw _ ih => simpa only [cond_false, lexChars_skipped _ hw] using ih
  | @char esc c s s' _ ih =>
    cases esc with
    | true =>
      simp only [Bool.not_true, Bool.false_and, cond_false] at ih
      simp only [cond_true, lexChars_backslash, ih]
    | false =>
      simp only [Bool.not_false, Bool.true_and] at ih
      by_cases hb : c = '\\'
      · subst hb; exact ih
      · rw [show (c == '\\') = false by simp [hb], cond_false, cond_false] at ih
        by_cases hc : Skipped c
        · simpa only [cond_false, lexChars_skipped _ hc] using ih
        · simp only [cond_false, lexChars_other _ hc hb, ih]

/-- **Blanks at token starts are invisible to `next_token`.** Lexing `s'` returns the same
tokens up to `EOF` as lexing `s`, and panics exactly when that does. -/
theorem lexes_padded {s s' : String} (h : Padded false s.data s'.data) (toks : List Token) :
    Lexes (Lexer.new s') toks ↔ Lexes (Lexer.new s) toks := by
  rw [lexes_iff_lexChars _ (Lexer.at_new s'), lexes_iff_lexChars _ (Lexer.at_new s)]
  exact iff_of_eq (congrArg (· = some toks) (lexChars_padded h))

end Simplegrep
