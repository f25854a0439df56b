/-!
# Lines of a text

A text has lines in two senses. `lines` splits at every line break of the Unicode set and is used to
quote source text. `newlineLine` counts newline characters only. `unifyNewlines` turns the line ends
of a text file into newlines.
-/

namespace StackLang.Text

/-- The characters that end a line by themselves. -/
def isLineBreak (c : Char) : Bool :=
  let n := c.toNat
  (0xA ≤ n && n ≤ 0xD) || (0x1C ≤ n && n ≤ 0x1E) || n == 0x85 || n == 0x2028 || n == 0x2029

/-- The lines of a text without their breaks; a carriage return and a newline after it are one
break, and a break at the end adds no empty line. -/
def lines : List Char → List (List Char)
  | [] => []
  | '\r' :: '\n' :: rest => [] :: lines rest
  | c :: rest =>
    if isLineBreak c then [] :: lines rest
    else
      match lines rest with
      | [] => [[c]]
      | line :: others => (c :: line) :: others

/-- The line with `n` newlines before it, ended by the next newline or the end of the text. -/
def newlineLine : Nat → List Char → List Char
  | 0, cs => cs.takeWhile (· != '\n')
  | n + 1, cs => newlineLine n ((cs.dropWhile (· != '\n')).drop 1)

/-- Every carriage return, alone or before a newline, becomes one newline with it. -/
def unifyNewlines : List Char → List Char
  | [] => []
  | '\r' :: '\n' :: rest => '\n' :: unifyNewlines rest
  | c :: rest => (if c = '\r' then '\n' else c) :: unifyNewlines rest

theorem not_mem_unifyNewlines (cs : List Char) : '\r' ∉ unifyNewlines cs := by
  fun_induction unifyNewlines cs with
  | case1 => simp
  | case2 rest ih => simp [ih]
  | case3 c rest _ ih =>
    by_cases hc : c = '\r'
    · simp [hc, ih]
    · simp [hc, ih, Ne.symm hc]

/-- A text without carriage returns stays as it is. -/
theorem unifyNewlines_eq_self {cs : List Char} (h : '\r' ∉ cs) : unifyNewlines cs = cs := by
  fun_induction unifyNewlines cs with
  | case1 => rfl
  | case2 rest ih => simp at h
  | case3 c rest _ ih =>
    simp only [List.mem_cons, not_or] at h
    simp [ih h.2, Ne.symm h.1]

end StackLang.Text
