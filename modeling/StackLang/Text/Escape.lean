import StackLang.Text.Numeral

/-!
# Escape sequences

A terminal is told to change colours or to move by sequences of characters: an escape, an opening
bracket, parameters, and a letter at the end. A text that is not meant for a terminal leaves them
out.
-/

namespace StackLang.Text

/-- The characters of the parameters. -/
def isParameter (c : Char) : Bool := isAsciiDigit c || c = ';' || c = '?'

/-- The letters that end a sequence. -/
def isAsciiLetter (c : Char) : Bool := ('a' ≤ c && c ≤ 'z') || ('A' ≤ c && c ≤ 'Z')

/-- What follows the escape sequence that a text starts with. -/
def afterEscape? : List Char → Option (List Char)
  | '\x1b' :: '[' :: rest =>
    match rest.dropWhile isParameter with
    | c :: after => if isAsciiLetter c then some after else none
    | [] => none
  | _ => none

theorem length_afterEscape? {cs after : List Char} (h : afterEscape? cs = some after) :
    after.length < cs.length := by
  unfold afterEscape? at h
  split at h
  · rename_i rest
    have hle := (List.dropWhile_sublist (l := rest) isParameter).length_le
    split at h
    · rename_i c tail htail
      split at h
      · obtain rfl := Option.some.inj h
        rw [htail] at hle
        simp only [List.length_cons] at hle ⊢
        omega
      · simp at h
    · simp at h
  · simp at h

/-- A text without its escape sequences. What is left is not searched again. -/
def dropEscapes (cs : List Char) : List Char :=
  match _h : afterEscape? cs with
  | some after => dropEscapes after
  | none =>
    match cs with
    | [] => []
    | c :: rest => c :: dropEscapes rest
termination_by cs.length
decreasing_by
  · exact length_afterEscape? _h
  · exact Nat.lt_succ_self _

@[simp]
theorem dropEscapes_nil : dropEscapes [] = [] := by rw [dropEscapes]; rfl

/-- A sequence at the start is left out. -/
theorem dropEscapes_of_some {cs after : List Char} (h : afterEscape? cs = some after) :
    dropEscapes cs = dropEscapes after := by
  rw [dropEscapes]
  split
  · rename_i found hfound
    rw [Option.some.inj (hfound.symm.trans h)]
  · rename_i hnone
    exact absurd (hnone.symm.trans h) nofun

/-- A character that starts no sequence is kept. -/
theorem dropEscapes_cons_of_none {c : Char} {rest : List Char}
    (h : afterEscape? (c :: rest) = none) : dropEscapes (c :: rest) = c :: dropEscapes rest := by
  rw [dropEscapes]
  split
  · rename_i found hfound
    exact absurd (h.symm.trans hfound) nofun
  · rfl

theorem afterEscape?_eq_none {cs : List Char} (h : '\x1b' ∉ cs) : afterEscape? cs = none := by
  unfold afterEscape?
  split
  · simp at h
  · rfl

/-- A text without the escape character stays as it is. -/
theorem dropEscapes_eq_self {cs : List Char} (h : '\x1b' ∉ cs) : dropEscapes cs = cs := by
  induction cs with
  | nil => exact dropEscapes_nil
  | cons c rest ih =>
    rw [dropEscapes_cons_of_none (afterEscape?_eq_none h),
      ih fun hrest => h (List.mem_cons_of_mem c hrest)]

/-- A text without its escape sequences. -/
def withoutEscapes (s : String) : String := String.ofList (dropEscapes s.toList)

end StackLang.Text
