import Mathlib.Data.List.Induction
import Mathlib.Data.List.TakeWhile
import StackLang.Source

/-!
# A text is cut into longest lexemes

The lexemes of each kind and the gaps between lexemes are described without the functions that read
them. Reading a text cuts it into gaps and lexemes: each gap goes as far as it can, each lexeme is
the longest one at its place, and each token stands at the line and column that the characters
before it give. A text is refused exactly at the first place, so reached, where neither starts.
-/

namespace StackLang

/-! ## Places -/

/-- The characters since the last newline. -/
def sinceNewline (before : List Char) : List Char := (before.reverse.takeWhile (· != '\n')).reverse

/-- The place after characters of a file: one line for each newline, and one column for each
character since the last one. -/
def Location.afterText (file : String) (before : List Char) : Location :=
  ⟨file, 1 + before.count '\n', (sinceNewline before).length⟩

theorem sinceNewline_concat_newline (before : List Char) :
    sinceNewline (before ++ ['\n']) = [] := by
  simp [sinceNewline]

theorem sinceNewline_concat {c : Char} (hc : c ≠ '\n') (before : List Char) :
    sinceNewline (before ++ [c]) = sinceNewline before ++ [c] := by
  simp [sinceNewline, hc]

/-- Counting along a text gives its place. -/
theorem Location.ofPosition_after (file : String) (before : List Char) :
    Location.ofPosition file (Position.start.after before) = .afterText file before := by
  induction before using List.reverseRecOn with
  | nil => rfl
  | append_singleton cs c ih =>
    rw [ofPosition, afterText, Location.mk.injEq] at ih
    obtain ⟨-, hline, hcolumn⟩ := ih
    rw [Position.after_append, Position.after_cons, Position.after_nil, Position.next, ofPosition,
      afterText]
    by_cases hc : c = '\n'
    · subst hc
      rw [if_pos rfl, sinceNewline_concat_newline, List.count_append, List.count_singleton_self]
      simp only [Location.mk.injEq, true_and]
      push_cast at hline ⊢
      exact ⟨by omega, rfl⟩
    · have hcount : (cs ++ [c]).count '\n' = cs.count '\n' := by simp [List.count_append, hc]
      rw [if_neg hc, sinceNewline_concat hc, hcount, List.length_append, List.length_singleton]
      simp only [Location.mk.injEq, true_and]
      push_cast at hcolumn ⊢
      exact ⟨hline, by omega⟩

theorem Position.line_after (before : List Char) :
    (Position.start.after before).line = 1 + before.count '\n' := by
  have hline := congrArg Location.line (Location.ofPosition_after "" before)
  exact Int.ofNat_inj.mp hline

/-- The line that a text has around a place, from newline to newline. -/
def lineAround (before after : List Char) : List Char :=
  sinceNewline before ++ after.takeWhile (· != '\n')

theorem sinceNewline_of_not_mem {before : List Char} (h : '\n' ∉ before) :
    sinceNewline before = before := by
  have hall : ∀ c ∈ before.reverse, (c != '\n') = true := by
    intro c hc
    simpa using fun heq : c = '\n' => h (heq ▸ List.mem_reverse.mp hc)
  rw [sinceNewline, List.takeWhile_eq_self_iff.mpr hall, List.reverse_reverse]

theorem sinceNewline_append_cons (first before : List Char) :
    sinceNewline (first ++ '\n' :: before) = sinceNewline before := by
  induction before using List.reverseRecOn with
  | nil => exact sinceNewline_concat_newline first
  | append_singleton before c ih =>
    rw [← List.cons_append, ← List.append_assoc]
    by_cases hc : c = '\n'
    · rw [hc, sinceNewline_concat_newline, sinceNewline_concat_newline]
    · rw [sinceNewline_concat hc, sinceNewline_concat hc, ih]

/-- Counting newlines leads to the line around a place. -/
theorem newlineLine_count (before after : List Char) :
    Text.newlineLine (before.count '\n') (before ++ after) = lineAround before after := by
  induction hn : before.count '\n' generalizing before with
  | zero =>
    have hmem : '\n' ∉ before := List.count_eq_zero.mp hn
    have hall : ∀ c ∈ before, (c != '\n') = true := by
      intro c hc
      simpa using fun heq : c = '\n' => hmem (heq ▸ hc)
    rw [Text.newlineLine, lineAround, sinceNewline_of_not_mem hmem,
      List.takeWhile_append_of_pos hall]
  | succ n ih =>
    have hmem : '\n' ∈ before := List.count_pos_iff.mp (by omega)
    obtain ⟨first, rest, rfl, hfirst⟩ := List.eq_append_cons_of_mem hmem
    have hall : ∀ c ∈ first, (c != '\n') = true := by
      intro c hc
      simpa using fun heq : c = '\n' => hfirst (heq ▸ hc)
    have hcount : rest.count '\n' = n := by
      rw [List.count_append, List.count_cons_self, List.count_eq_zero.mpr hfirst] at hn
      omega
    have hdrop : ((first ++ '\n' :: rest ++ after).dropWhile (· != '\n')).drop 1 =
        rest ++ after := by
      rw [List.append_assoc, List.dropWhile_append_of_pos hall]
      rfl
    rw [Text.newlineLine, hdrop, ih rest hcount, lineAround, lineAround, sinceNewline_append_cons]

/-! ## Lexemes and gaps -/

namespace Token

/-- The kinds of operators and separators. -/
def Kind.operators : List Kind :=
  [.plus, .minus, .star, .slash, .equal, .notEqual, .less, .greater, .lessEqual, .greaterEqual,
    .comma, .colon, .leftParen, .rightParen, .leftBrace, .rightBrace, .arrow, .assign]

/-- A letter or an underscore, then letters, digits and underscores. -/
structure IsWord (cs : List Char) : Prop where
  start : ∃ c ∈ cs.head?, isWordStart c = true
  chars : ∀ c ∈ cs, isWordChar c = true

/-- The lexemes of each kind of token. -/
inductive Lexeme : Kind → List Char → Prop
  | keyword (k : Kind) (h : k ∈ Kind.keywords) : Lexeme k k.spelling.toList
  | identifier (cs : List Char) (hword : IsWord cs)
      (hother : ∀ k ∈ Kind.keywords, k.spelling.toList ≠ cs) : Lexeme .identifier cs
  | number (cs : List Char) (hne : cs ≠ []) (hdigits : ∀ c ∈ cs, Text.isAsciiDigit c = true) :
      Lexeme .number cs
  | operator (k : Kind) (h : k ∈ Kind.operators) : Lexeme k k.spelling.toList

/-- A lexeme that starts a text, and none that does is longer. -/
structure Longest (k : Kind) (lexeme text : List Char) : Prop where
  isLexeme : Lexeme k lexeme
  isInitial : lexeme <+: text
  isLongest : ∀ k' other, Lexeme k' other → other <+: text → other.length ≤ lexeme.length

/-- Spaces and comments before a text. A comment goes on to the next newline or to the end. -/
inductive Gap (text : List Char) : List Char → Prop
  | nil : Gap text []
  | space (c : Char) (gap : List Char) (hc : c ∈ [' ', '\t', '\n', '\r']) (h : Gap text gap) :
      Gap text (c :: gap)
  | comment (body gap : List Char) (hbody : '\n' ∉ body)
      (hend : gap ++ text = [] ∨ (gap ++ text).head? = some '\n') (h : Gap text gap) :
      Gap text ('/' :: '/' :: body ++ gap)

/-- A gap starts here: a space or two slashes. -/
def GapStarts (text : List Char) : Prop :=
  (∃ c ∈ [' ', '\t', '\n', '\r'], text.head? = some c) ∨ ['/', '/'] <+: text

/-- The characters `text` after `before` are cut into tokens `ts` and gaps, up to the characters
`rest` before which the last gap ends. -/
inductive Cut (file : String) (rest : List Char) : List Char → List Char → List Token → Prop
  | last (before gap : List Char) (hgap : Gap rest gap) (hbare : ¬GapStarts rest) :
      Cut file rest before (gap ++ rest) []
  | token (before gap text : List Char) (k : Kind) (lexeme : List Char) (ts : List Token)
      (hgap : Gap (lexeme ++ text) gap) (hbare : ¬GapStarts (lexeme ++ text))
      (hlexeme : Longest k lexeme (lexeme ++ text))
      (h : Cut file rest (before ++ gap ++ lexeme) text ts) :
      Cut file rest before (gap ++ (lexeme ++ text))
        (⟨k, String.ofList lexeme, .afterText file (before ++ gap)⟩ :: ts)

/-! ## Reading one lexeme -/

/-- What starts a text and lies in a class of characters is within the longest such start. -/
theorem length_le_takeWhile {p : Char → Bool} {cs text : List Char} (h : cs <+: text)
    (hall : ∀ c ∈ cs, p c = true) : cs.length ≤ (text.takeWhile p).length := by
  obtain ⟨rest, rfl⟩ := h
  rw [List.takeWhile_append_of_pos hall, List.length_append]
  exact Nat.le_add_right _ _

theorem isAsciiDigit_of_isWordStart {c : Char} (h : isWordStart c = true) :
    Text.isAsciiDigit c = false := by
  simp only [isWordStart, Bool.or_eq_true, Bool.and_eq_true, decide_eq_true_eq] at h
  simp only [Text.isAsciiDigit, Bool.and_eq_false_iff, decide_eq_false_iff_not]
  rcases h with (⟨ha, -⟩ | ⟨ha, -⟩) | rfl
  · exact .inr fun hle => absurd (Char.le_trans ha hle) (by decide)
  · exact .inr fun hle => absurd (Char.le_trans ha hle) (by decide)
  · exact .inr (by decide)

theorem between_of_isWordChar {c : Char} (h : isWordChar c = true) : '0' ≤ c ∧ c ≤ 'z' := by
  simp only [isWordChar, isWordStart, Text.isAsciiDigit, Bool.or_eq_true, Bool.and_eq_true,
    decide_eq_true_eq] at h
  rcases h with ((⟨hfirst, hlast⟩ | ⟨hfirst, hlast⟩) | rfl) | ⟨hfirst, hlast⟩
  · exact ⟨Char.le_trans (by decide) hfirst, hlast⟩
  · exact ⟨Char.le_trans (by decide) hfirst, Char.le_trans hlast (by decide)⟩
  · decide
  · exact ⟨hfirst, Char.le_trans hlast (by decide)⟩

theorem isWord_keyword {k : Kind} (h : k ∈ Kind.keywords) : IsWord k.spelling.toList := by
  have hall : ∀ k ∈ Kind.keywords, k.spelling.toList.head?.any isWordStart = true ∧
      k.spelling.toList.all isWordChar = true := by decide
  obtain ⟨hstart, hchars⟩ := hall k h
  exact ⟨(Option.any_eq_true ..).mp hstart, List.all_eq_true.mp hchars⟩

theorem first_operator {k : Kind} (h : k ∈ Kind.operators) :
    ∃ c ∈ k.spelling.toList.head?, isWordStart c = false ∧ Text.isAsciiDigit c = false := by
  have hall : ∀ k ∈ Kind.operators,
      k.spelling.toList.head?.any (fun c => !isWordStart c && !Text.isAsciiDigit c) = true := by
    decide
  obtain ⟨c, hc, hother⟩ := (Option.any_eq_true ..).mp (hall k h)
  exact ⟨c, hc, by simpa using hother⟩

section First

variable {k : Kind} {c : Char} {cs : List Char}

/-- The first character of a lexeme tells its class. -/
theorem Lexeme.exists_first (h : Lexeme k cs) :
    ∃ c ∈ cs.head?,
      (isWordStart c = true ∧ IsWord cs) ∨
      (Text.isAsciiDigit c = true ∧ ∀ d ∈ cs, Text.isAsciiDigit d = true) ∨
      (isWordStart c = false ∧ Text.isAsciiDigit c = false ∧ k ∈ Kind.operators ∧
        cs = k.spelling.toList) := by
  cases h with
  | keyword k h =>
    have hword := isWord_keyword h
    obtain ⟨c, hc, hstart⟩ := hword.start
    exact ⟨c, hc, .inl ⟨hstart, hword⟩⟩
  | identifier cs hword hother =>
    obtain ⟨c, hc, hstart⟩ := hword.start
    exact ⟨c, hc, .inl ⟨hstart, hword⟩⟩
  | number cs hne hdigits =>
    obtain ⟨c, rest, rfl⟩ := List.exists_cons_of_ne_nil hne
    exact ⟨c, rfl, .inr (.inl ⟨hdigits c List.mem_cons_self, hdigits⟩)⟩
  | operator k h =>
    obtain ⟨c, hc, hword, hdigit⟩ := first_operator h
    exact ⟨c, hc, .inr (.inr ⟨hword, hdigit, h, rfl⟩)⟩

/-- A lexeme that starts a text starts with the first character of the text. -/
theorem Lexeme.head?_of_prefix {text : List Char} (h : Lexeme k cs) (hbegins : cs <+: c :: text) :
    cs.head? = some c := by
  obtain ⟨d, hd, -⟩ := h.exists_first
  obtain ⟨rest, hrest⟩ := hbegins
  cases cs with
  | nil => cases hd
  | cons e cs =>
    obtain ⟨rfl, -⟩ := List.cons.inj hrest
    rfl

theorem Lexeme.chars_of_wordStart (h : Lexeme k cs) (hc : cs.head? = some c)
    (hstart : isWordStart c = true) : ∀ d ∈ cs, isWordChar d = true := by
  obtain ⟨d, hd, hclass⟩ := h.exists_first
  obtain rfl : c = d := Option.some.inj (hc.symm.trans hd)
  rcases hclass with ⟨-, hword⟩ | ⟨hdigit, -⟩ | ⟨hother, -⟩
  · exact hword.chars
  · rw [isAsciiDigit_of_isWordStart hstart] at hdigit
    cases hdigit
  · rw [hstart] at hother
    cases hother

theorem Lexeme.chars_of_digit (h : Lexeme k cs) (hc : cs.head? = some c)
    (hdigit : Text.isAsciiDigit c = true) : ∀ d ∈ cs, Text.isAsciiDigit d = true := by
  obtain ⟨d, hd, hclass⟩ := h.exists_first
  obtain rfl : c = d := Option.some.inj (hc.symm.trans hd)
  rcases hclass with ⟨hstart, -⟩ | ⟨-, hdigits⟩ | ⟨-, hother, -⟩
  · rw [isAsciiDigit_of_isWordStart hstart] at hdigit
    cases hdigit
  · exact hdigits
  · rw [hdigit] at hother
    cases hother

theorem Lexeme.operator_of_other (h : Lexeme k cs) (hc : cs.head? = some c)
    (hstart : isWordStart c = false) (hdigit : Text.isAsciiDigit c = false) :
    k ∈ Kind.operators ∧ cs = k.spelling.toList := by
  obtain ⟨d, hd, hclass⟩ := h.exists_first
  obtain rfl : c = d := Option.some.inj (hc.symm.trans hd)
  rcases hclass with ⟨hword, -⟩ | ⟨hnumber, -⟩ | ⟨-, -, hoperator⟩
  · rw [hstart] at hword
    cases hword
  · rw [hdigit] at hnumber
    cases hnumber
  · exact hoperator

end First

/-- The lexeme of an operator that is read. -/
theorem lexeme_of_operator? {cs lexeme rest : List Char} {k : Kind}
    (h : operator? cs = some (k, lexeme, rest)) :
    k ∈ Kind.operators ∧ lexeme = k.spelling.toList := by
  unfold operator? at h
  split at h <;> simp only [Option.some.injEq, Prod.mk.injEq, reduceCtorEq] at h
  all_goals
    obtain ⟨rfl, rfl, -⟩ := h
    exact ⟨by decide, by decide⟩

/-- The four characters that start two operators each are operators themselves. -/
theorem operator?_ne_none {c : Char} (hc : c ∈ ['-', '=', '<', '>']) (rest : List Char) :
    operator? (c :: rest) ≠ none := by
  intro hnone
  unfold operator? at hnone
  split at hnone
  case h_19 hminus hassign hless hgreater _ _ _ _ _ _ _ _ _ =>
    simp only [List.mem_cons, List.not_mem_nil, or_false] at hc
    rcases hc with rfl | rfl | rfl | rfl
    · exact hminus rest rfl
    · exact hassign rest rfl
    · exact hless rest rfl
    · exact hgreater rest rfl
  all_goals cases hnone

/-- Where an operator stands, one is read that is at least as long. -/
theorem exists_operator?_of_prefix {cs : List Char} {k : Kind} (hk : k ∈ Kind.operators)
    (h : k.spelling.toList <+: cs) :
    ∃ k' lexeme rest, operator? cs = some (k', lexeme, rest) ∧
      k.spelling.toList.length ≤ lexeme.length := by
  obtain ⟨rest, rfl⟩ := h
  have hone : ∀ c ∈ ['-', '=', '<', '>'], ∃ k' lexeme rest',
      operator? (c :: rest) = some (k', lexeme, rest') ∧ 1 ≤ lexeme.length := by
    intro c hc
    obtain ⟨⟨k', lexeme, rest'⟩, hread⟩ :=
      Option.ne_none_iff_exists'.mp (operator?_ne_none hc rest)
    exact ⟨k', lexeme, rest', hread, List.length_pos_iff.mpr (operator?_append hread).2⟩
  simp only [Kind.operators, List.mem_cons, List.not_mem_nil, or_false] at hk
  rcases hk with rfl | rfl | rfl | rfl | rfl | rfl | rfl | rfl | rfl | rfl | rfl | rfl | rfl | rfl |
    rfl | rfl | rfl | rfl
  -- What follows matters only after the four characters that start two operators.
  any_goals exact ⟨_, _, _, rfl, le_refl _⟩
  all_goals exact hone _ (by decide)

/-- The kind of a word is that of a keyword or of an identifier. -/
theorem lexeme_ofWord {cs : List Char} (h : IsWord cs) :
    Lexeme (Kind.ofWord (String.ofList cs)) cs := by
  unfold Kind.ofWord
  cases hfind : Kind.keywords.find? (·.spelling = String.ofList cs) with
  | none =>
    refine .identifier cs h fun k hk heq => ?_
    have hother := List.find?_eq_none.mp hfind k hk
    exact hother (by simp [← heq])
  | some k =>
    have hspelling : k.spelling = String.ofList cs := by simpa using List.find?_some hfind
    have hkeyword := Lexeme.keyword k (List.mem_of_find?_eq_some hfind)
    rwa [hspelling, String.toList_ofList] at hkeyword

theorem isWord_takeWhile {c : Char} {text : List Char} (h : isWordStart c = true) :
    IsWord ((c :: text).takeWhile isWordChar) := by
  have hc : isWordChar c = true := by simp [isWordChar, h]
  refine ⟨⟨c, ?_, h⟩, fun d hd => List.all_eq_true.mp List.all_takeWhile d hd⟩
  rw [List.takeWhile_cons_of_pos hc]
  rfl

/-- The lexeme that is read is the longest one. -/
theorem longest_of_munch {text lexeme rest : List Char} {k : Kind}
    (h : munch text = some (k, lexeme, rest)) : Longest k lexeme text := by
  have hinitial : lexeme <+: text := ⟨rest, (munch_append h).1⟩
  unfold munch at h
  cases text with
  | nil => cases h
  | cons c text =>
    simp only at h
    split at h
    next hstart =>
      simp only [Option.some.injEq, Prod.mk.injEq] at h
      obtain ⟨rfl, rfl, -⟩ := h
      refine ⟨lexeme_ofWord (isWord_takeWhile hstart), hinitial, fun k' other hother hbegins => ?_⟩
      have hhead := hother.head?_of_prefix hbegins
      exact length_le_takeWhile hbegins (hother.chars_of_wordStart hhead hstart)
    next hstart =>
      split at h
      next hdigit =>
        simp only [Option.some.injEq, Prod.mk.injEq] at h
        obtain ⟨rfl, rfl, -⟩ := h
        have hne : (c :: text).takeWhile Text.isAsciiDigit ≠ [] := by simp [hdigit]
        refine ⟨.number _ hne fun d hd => List.all_eq_true.mp List.all_takeWhile d hd, hinitial,
          fun k' other hother hbegins => ?_⟩
        have hhead := hother.head?_of_prefix hbegins
        exact length_le_takeWhile hbegins (hother.chars_of_digit hhead hdigit)
      next hdigit =>
        obtain ⟨hk, rfl⟩ := lexeme_of_operator? h
        refine ⟨.operator k hk, hinitial, fun k' other hother hbegins => ?_⟩
        have hhead := hother.head?_of_prefix hbegins
        rw [Bool.not_eq_true] at hstart hdigit
        obtain ⟨hk', rfl⟩ := hother.operator_of_other hhead hstart hdigit
        obtain ⟨k'', lexeme, rest', hread, hle⟩ := exists_operator?_of_prefix hk' hbegins
        rw [h, Option.some.injEq, Prod.mk.injEq, Prod.mk.injEq] at hread
        rwa [hread.2.1]

/-- Where nothing is read, no lexeme stands. -/
theorem not_prefix_of_munch {text : List Char} (h : munch text = none) {k : Kind}
    {lexeme : List Char} (hlexeme : Lexeme k lexeme) : ¬lexeme <+: text := by
  intro hbegins
  unfold munch at h
  cases text with
  | nil =>
    obtain ⟨c, hc, -⟩ := hlexeme.exists_first
    rw [List.prefix_nil.mp hbegins] at hc
    cases hc
  | cons c text =>
    simp only at h
    split at h
    next => cases h
    next hstart =>
      split at h
      next => cases h
      next hdigit =>
        have hhead := hlexeme.head?_of_prefix hbegins
        rw [Bool.not_eq_true] at hstart hdigit
        obtain ⟨hk, rfl⟩ := hlexeme.operator_of_other hhead hstart hdigit
        obtain ⟨k', lexeme, rest, hread, -⟩ := exists_operator?_of_prefix hk hbegins
        rw [h] at hread
        cases hread

/-! ## Reading a whole text -/

theorem isSpace_iff {c : Char} : isSpace c = true ↔ c ∈ [' ', '\t', '\n', '\r'] := by
  simp only [isSpace, Bool.or_eq_true, decide_eq_true_eq, List.mem_cons, List.not_mem_nil, or_false,
    or_assoc]

/-- What is skipped is a gap, and none starts after it. -/
theorem exists_gap (p : Position) (text : List Char) :
    ∃ gap, text = gap ++ (skipGap p text).2 ∧ (skipGap p text).1 = p.after gap ∧
      Gap (skipGap p text).2 gap ∧ ¬GapStarts (skipGap p text).2 := by
  fun_induction skipGap p text with
  | case1 p => exact ⟨[], rfl, rfl, .nil, by simp [GapStarts]⟩
  | case2 p c rest hspace ih =>
    obtain ⟨gap, htext, hplace, hgap, hbare⟩ := ih
    refine ⟨c :: gap, ?_, ?_, .space c gap (isSpace_iff.mp hspace) hgap, hbare⟩
    · rw [List.cons_append, ← htext]
    · rw [hplace, Position.after_cons]
  | case3 p c rest hspace hslash ih =>
    obtain ⟨rfl, hhead⟩ := hslash
    obtain ⟨body, rfl⟩ : ∃ body, rest = '/' :: body := by
      cases rest with
      | nil => cases hhead
      | cons d body => exact ⟨body, by rw [Option.some.inj hhead]⟩
    obtain ⟨gap, htext, hplace, hgap, hbare⟩ := ih
    have htake : ('/' :: body).takeWhile (· != '\n') = '/' :: body.takeWhile (· != '\n') := rfl
    have hdrop : ('/' :: body).dropWhile (· != '\n') = body.dropWhile (· != '\n') := rfl
    rw [htake, hdrop] at htext hplace hgap hbare ⊢
    refine ⟨'/' :: '/' :: body.takeWhile (· != '\n') ++ gap, ?_, ?_, ?_, hbare⟩
    · rw [List.append_assoc, ← htext, List.cons_append, List.cons_append,
        List.takeWhile_append_dropWhile]
    · rw [hplace, Position.after_append]
    · refine .comment _ gap ?_ ?_ hgap
      · intro hmem
        exact absurd (List.all_eq_true.mp List.all_takeWhile _ hmem) (by decide)
      · -- A comment stops at the first newline.
        rw [← htext]
        have hnot := List.head?_dropWhile_not (· != '\n') body
        cases hrest : body.dropWhile (· != '\n') with
        | nil => exact .inl rfl
        | cons d after =>
          rw [hrest] at hnot
          exact .inr (congrArg some (by simpa using hnot))
  | case4 p c rest hspace hslash =>
    refine ⟨[], rfl, rfl, .nil, ?_⟩
    rintro (⟨d, hd, hhead⟩ | ⟨after, hafter⟩)
    · obtain rfl : c = d := Option.some.inj hhead
      exact hspace (isSpace_iff.mpr hd)
    · obtain ⟨rfl, rfl⟩ := List.cons.inj hafter
      exact hslash ⟨rfl, rfl⟩

theorem scan_last (file : String) {p q : Position} {text : List Char}
    (h : skipGap p text = (q, [])) : scan file p text = .ok [ending (.ofPosition file q)] := by
  rw [scan]
  split
  next q' h' => rw [(Prod.mk.inj (h.symm.trans h')).1]
  next q' c rest h' => cases h.symm.trans h'

theorem scan_refused (file : String) {p q : Position} {c : Char} {text rest : List Char}
    (h : skipGap p text = (q, c :: rest)) (hmunch : munch (c :: rest) = none) :
    scan file p text = .error (q, c) := by
  rw [scan]
  split
  next q' h' => cases h.symm.trans h'
  next q' c' rest' h' =>
    cases h.symm.trans h'
    split
    next => rfl
    next h'' => rw [hmunch] at h''; cases h''

theorem scan_token (file : String) {p q : Position} {c : Char} {text rest lexeme after : List Char}
    {k : Kind} (h : skipGap p text = (q, c :: rest))
    (hmunch : munch (c :: rest) = some (k, lexeme, after)) :
    scan file p text =
      match scan file (q.after lexeme) after with
      | .error e => .error e
      | .ok ts => .ok (⟨k, String.ofList lexeme, .ofPosition file q⟩ :: ts) := by
  rw [scan]
  split
  next q' h' => cases h.symm.trans h'
  next q' c' rest' h' =>
    cases h.symm.trans h'
    split
    next h'' => rw [hmunch] at h''; cases h''
    next h'' =>
      cases hmunch.symm.trans h''
      rfl

/-- What a result of reading the characters `text` after `before` has to say: they are cut into
tokens up to their end, or up to a place where none starts. -/
def Explains (file : String) (before text : List Char) :
    Except (Position × Char) (List Token) → Prop
  | .ok ts => ∃ us, Cut file [] before text us ∧
      ts = us ++ [ending (.afterText file (before ++ text))]
  | .error (p, c) => ∃ us start rest, Cut file (c :: rest) before text us ∧
      before ++ text = start ++ c :: rest ∧ p = Position.start.after start ∧
      ∀ k lexeme, Lexeme k lexeme → ¬lexeme <+: c :: rest

theorem explains_scan (file : String) (before text : List Char) :
    Explains file before text (scan file (Position.start.after before) text) := by
  induction hn : text.length using Nat.strongRecOn generalizing before text with
  | _ n ih =>
    obtain ⟨gap, htext, hplace, hgap, hbare⟩ := exists_gap (Position.start.after before) text
    rw [← Position.after_append] at hplace
    rcases hskip : skipGap (Position.start.after before) text with ⟨q, _ | ⟨c, rest⟩⟩
    · simp only [hskip] at htext hplace hgap hbare
      rw [scan_last file hskip, hplace, Location.ofPosition_after]
      refine ⟨[], htext ▸ .last before gap hgap hbare, ?_⟩
      rw [htext, List.append_nil, List.nil_append]
    simp only [hskip] at htext hplace hgap hbare
    cases hmunch : munch (c :: rest) with
    | none =>
      rw [scan_refused file hskip hmunch]
      refine ⟨[], before ++ gap, rest, htext ▸ .last before gap hgap hbare, ?_, hplace, ?_⟩
      · rw [htext, List.append_assoc]
      · exact fun k lexeme hlexeme => not_prefix_of_munch hmunch hlexeme
    | some read =>
      obtain ⟨k, lexeme, after⟩ := read
      obtain ⟨happend, hne⟩ := munch_append hmunch
      have hlexeme := longest_of_munch hmunch
      rw [← happend] at htext hgap hbare hlexeme
      have hlength : after.length < n := by
        have hpos := List.length_pos_iff.mpr hne
        rw [← hn, htext]
        simp only [List.length_append]
        omega
      have hrest := ih after.length hlength (before ++ gap ++ lexeme) after rfl
      have hwhole : before ++ text = before ++ gap ++ lexeme ++ after := by
        rw [htext]
        simp only [List.append_assoc]
      have hcut {rest' : List Char} {us : List Token}
          (h : Cut file rest' (before ++ gap ++ lexeme) after us) :=
        Cut.token before gap after k lexeme us hgap hbare hlexeme h
      rw [← htext] at hcut
      rw [scan_token file hskip hmunch, hplace, ← Position.after_append, Location.ofPosition_after]
      cases hscan : scan file (Position.start.after (before ++ gap ++ lexeme)) after with
      | error e =>
        rw [hscan] at hrest
        obtain ⟨us, start, rest', hcut', hsplit, hp, hnone⟩ := hrest
        exact ⟨_, start, rest', hcut hcut', hwhole.trans hsplit, hp, hnone⟩
      | ok ts =>
        rw [hscan] at hrest
        obtain ⟨us, hcut', rfl⟩ := hrest
        exact ⟨_, hcut hcut', by rw [hwhole, List.cons_append]⟩

theorem Lexeme.kind_ne_end {k : Kind} {cs : List Char} (h : Lexeme k cs) : k ≠ .endOfInput := by
  cases h with
  | keyword k h => exact fun heq => absurd h (by rw [heq]; decide)
  | identifier cs => decide
  | number cs => decide
  | operator k h => exact fun heq => absurd h (by rw [heq]; decide)

theorem Cut.isLexeme {file : String} {rest before text : List Char} {ts : List Token}
    (h : Cut file rest before text ts) : ∀ t ∈ ts, Lexeme t.kind t.lexeme.toList := by
  induction h with
  | last before gap hgap hbare => simp
  | token before gap text k lexeme ts hgap hbare hlexeme hcut ih =>
    refine List.forall_mem_cons.mpr ⟨?_, ih⟩
    simpa using hlexeme.isLexeme

theorem Cut.kind_ne_end {file : String} {rest before text : List Char} {ts : List Token}
    (h : Cut file rest before text ts) : ∀ t ∈ ts, t.kind ≠ .endOfInput := by
  induction h with
  | last before gap hgap hbare => simp
  | token before gap text k lexeme ts hgap hbare hlexeme hcut ih =>
    exact List.forall_mem_cons.mpr ⟨hlexeme.isLexeme.kind_ne_end, ih⟩

theorem Cut.not_gapStarts {file : String} {rest before text : List Char} {ts : List Token}
    (h : Cut file rest before text ts) : ¬GapStarts rest := by
  induction h with
  | last before gap hgap hbare => exact hbare
  | token before gap text k lexeme ts hgap hbare hlexeme hcut ih => exact ih

end Token

/-- Reading a source text cuts it into gaps and longest lexemes. If it can be cut to its end, its
tokens are these lexemes with their places, and one more that ends the input at the end. If not,
the diagnostic is about the first character, so reached, at which neither a lexeme nor a gap starts,
with its place and its line. -/
theorem tokens_longest (file source : String) :
    match Source.tokens file source with
    | .ok ts => ∃ us, Token.Cut file [] [] source.toList us ∧
        ts = us ++ [Token.ending (.afterText file source.toList)] ∧
        ∀ t ∈ us, t.kind ≠ .endOfInput
    | .error d => ∃ us before c after, source.toList = before ++ c :: after ∧
        Token.Cut file (c :: after) [] source.toList us ∧
        (∀ k lexeme, Token.Lexeme k lexeme → ¬lexeme <+: c :: after) ∧
        ¬Token.GapStarts (c :: after) ∧
        (∃ hint, d.cause = .invalidCharacter c hint) ∧
        d.location = some (.afterText file before) ∧
        d.sourceLine = some (String.ofList (lineAround before (c :: after))) := by
  have hcuts := Token.explains_scan file [] source.toList
  rw [Position.after_nil] at hcuts
  unfold Source.tokens
  cases hscan : Token.scan file .start source.toList with
  | ok ts =>
    rw [hscan] at hcuts
    obtain ⟨us, hcut, rfl⟩ := hcuts
    exact ⟨us, hcut, rfl, hcut.kind_ne_end⟩
  | error e =>
    obtain ⟨p, c⟩ := e
    rw [hscan] at hcuts
    obtain ⟨us, before, after, hcut, hsplit, rfl, hnone⟩ := hcuts
    refine ⟨us, before, c, after, hsplit, hcut, hnone, hcut.not_gapStarts, ⟨_, rfl⟩, ?_, ?_⟩
    · exact congrArg some (Location.ofPosition_after file before)
    · change some _ = some _
      rw [Position.line_after, Nat.add_sub_cancel_left, ← newlineLine_count, ← hsplit,
        List.nil_append]

end StackLang
