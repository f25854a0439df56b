import StackLang.Token
import StackLang.Text.Line
import StackLang.Text.Numeral

/-!
# From text to tokens

`scan` cuts a text into tokens. Between them stand gaps of spaces and comments; each token is the
longest that starts where the gap ends, and where none starts the text is refused.
-/

namespace StackLang.Token

/-- The characters that separate tokens. -/
def isSpace (c : Char) : Bool := c = ' ' || c = '\t' || c = '\n' || c = '\r'

/-- The characters that start a word. -/
def isWordStart (c : Char) : Bool :=
  ('a' ≤ c && c ≤ 'z') || ('A' ≤ c && c ≤ 'Z') || c = '_'

/-- The characters of a word. -/
def isWordChar (c : Char) : Bool := isWordStart c || Text.isAsciiDigit c

/-- The operator or separator at the start of a text and what follows it, two characters before one.
-/
def operator? : List Char → Option (Kind × List Char × List Char)
  | '-' :: '>' :: rest => some (.arrow, ['-', '>'], rest)
  | '=' :: '=' :: rest => some (.equal, ['=', '='], rest)
  | '!' :: '=' :: rest => some (.notEqual, ['!', '='], rest)
  | '<' :: '=' :: rest => some (.lessEqual, ['<', '='], rest)
  | '>' :: '=' :: rest => some (.greaterEqual, ['>', '='], rest)
  | '-' :: rest => some (.minus, ['-'], rest)
  | '=' :: rest => some (.assign, ['='], rest)
  | '<' :: rest => some (.less, ['<'], rest)
  | '>' :: rest => some (.greater, ['>'], rest)
  | '+' :: rest => some (.plus, ['+'], rest)
  | '*' :: rest => some (.star, ['*'], rest)
  | '/' :: rest => some (.slash, ['/'], rest)
  | '(' :: rest => some (.leftParen, ['('], rest)
  | ')' :: rest => some (.rightParen, [')'], rest)
  | '\x7b' :: rest => some (.leftBrace, ['\x7b'], rest)
  | '\x7d' :: rest => some (.rightBrace, ['\x7d'], rest)
  | ',' :: rest => some (.comma, [','], rest)
  | ':' :: rest => some (.colon, [':'], rest)
  | _ => none

/-- The longest token at the start of a text: its kind, its characters and what follows it. -/
def munch (cs : List Char) : Option (Kind × List Char × List Char) :=
  match cs with
  | [] => none
  | c :: _ =>
    if isWordStart c then
      let word := cs.takeWhile isWordChar
      some (Kind.ofWord (String.ofList word), word, cs.dropWhile isWordChar)
    else if Text.isAsciiDigit c then
      some (.number, cs.takeWhile Text.isAsciiDigit, cs.dropWhile Text.isAsciiDigit)
    else operator? cs

theorem operator?_append {cs lexeme rest : List Char} {k : Kind}
    (h : operator? cs = some (k, lexeme, rest)) : lexeme ++ rest = cs ∧ lexeme ≠ [] := by
  unfold operator? at h
  split at h <;> simp only [Option.some.injEq, Prod.mk.injEq, reduceCtorEq] at h
  all_goals
    obtain ⟨-, rfl, rfl⟩ := h
    simp

/-- A token and what follows it make up the text, and the token is not empty. -/
theorem munch_append {cs lexeme rest : List Char} {k : Kind}
    (h : munch cs = some (k, lexeme, rest)) : lexeme ++ rest = cs ∧ lexeme ≠ [] := by
  unfold munch at h
  split at h
  · simp at h
  · rename_i c tail
    split at h
    · rename_i hc
      simp only [Option.some.injEq, Prod.mk.injEq] at h
      obtain ⟨_, rfl, rfl⟩ := h
      exact ⟨List.takeWhile_append_dropWhile, by simp [isWordChar, hc]⟩
    · split at h
      · rename_i hc
        simp only [Option.some.injEq, Prod.mk.injEq] at h
        obtain ⟨_, rfl, rfl⟩ := h
        exact ⟨List.takeWhile_append_dropWhile, by simp [hc]⟩
      · exact operator?_append h

/-- Skips spaces and comments; a comment runs from two slashes to the end of the line. -/
def skipGap (p : Position) (cs : List Char) : Position × List Char :=
  match cs with
  | [] => (p, [])
  | c :: rest =>
    if isSpace c then skipGap (p.next c) rest
    else if c = '/' ∧ rest.head? = some '/' then
      skipGap (p.after (c :: rest.takeWhile (· != '\n'))) (rest.dropWhile (· != '\n'))
    else (p, cs)
termination_by cs.length
decreasing_by
  · simp
  · exact Nat.lt_succ_of_le (List.dropWhile_sublist _).length_le

theorem length_skipGap_le (p : Position) (cs : List Char) :
    (skipGap p cs).2.length ≤ cs.length := by
  fun_induction skipGap p cs with
  | case1 => simp
  | case2 p c rest _ ih => simp; omega
  | case3 p c rest _ _ ih =>
    exact Nat.le_succ_of_le (Nat.le_trans ih (List.dropWhile_sublist _).length_le)
  | case4 => simp

/-- The tokens of a text that starts at `p`, or the character that starts no token and its place. -/
def scan (file : String) (p : Position) (cs : List Char) : Except (Position × Char) (List Token) :=
  match _hgap : skipGap p cs with
  | (q, []) => .ok [ending (.ofPosition file q)]
  | (q, c :: rest) =>
    match _hmunch : munch (c :: rest) with
    | none => .error (q, c)
    | some (kind, lexeme, after) =>
      match scan file (q.after lexeme) after with
      | .error e => .error e
      | .ok ts => .ok (⟨kind, String.ofList lexeme, .ofPosition file q⟩ :: ts)
termination_by cs.length
decreasing_by
  have hle := length_skipGap_le p cs
  obtain ⟨happend, hne⟩ := munch_append _hmunch
  have hpos := List.length_pos_iff.mpr hne
  have hlen := congrArg List.length happend
  rw [_hgap] at hle
  simp only [List.length_append, List.length_cons] at hlen hle
  omega

end StackLang.Token
