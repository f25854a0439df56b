import StackLang.Program
import StackLang.Proofs.Lexemes
import StackLang.Proofs.Texts

/-!
# What listings tell

A line of a listing that ends with a colon is a label. Any other line starts with an address, goes
on with an operation and perhaps ends with a comment, and all three can be read off it. So programs
with one listing have the same code, and the labels of a program are found in its listing with their
addresses. This needs labels and comments that keep to their lines.
-/

namespace StackLang

/-! ## Operations -/

namespace Operation

/-- An operation that the machine knows. -/
def IsNative (op : Operation) : Prop := ∀ x, op ≠ .foreign x

/-- The characters of names and operands. -/
def isMark (c : Char) : Bool := Token.isWordChar c || c = '-'

theorem isMark_name {op : Operation} (h : op.IsNative) :
    op.name.toList.isEmpty = false ∧ op.name.toList.all isMark = true := by
  cases op with
  | foreign x => exact absurd rfl (h x)
  | compute op => cases op <;> decide
  | _ => rw [name]; decide

/-- An operation is found by its name. -/
theorem ofName?_name {op : Operation} (h : op.IsNative) :
    ofName? op.name (op.operand?.getD 0) = some op := by
  cases op with
  | foreign x => exact absurd rfl (h x)
  | compute op => cases op <;> rfl
  | _ => rfl

/-- What the text of an operation shows behind the name. -/
def argument (op : Operation) : List Char :=
  op.operand?.elim [] fun n =>
    List.replicate (8 - op.name.length) ' ' ++ ' ' :: (Text.decimal n).toList

theorem toList_text (op : Operation) : op.text.toList = op.name.toList ++ op.argument := by
  rw [text, argument]
  cases op.operand? with
  | none => simp
  | some n => simp [Text.flushLeft]

theorem isMark_of_mem_decimal {n : Int} {c : Char} (h : c ∈ (Text.decimal n).toList) :
    isMark c = true := by
  rcases Text.mem_decimal h with hdigit | rfl
  · simp [isMark, Token.isWordChar, hdigit]
  · rfl

/-- The text of an operation has spaces only within. -/
theorem isMark_or_eq_of_mem_text {op : Operation} (h : op.IsNative) {c : Char}
    (hc : c ∈ op.text.toList) : isMark c = true ∨ c = ' ' := by
  rw [toList_text, List.mem_append] at hc
  rcases hc with hname | hargument
  · exact .inl (List.all_eq_true.mp (isMark_name h).2 c hname)
  · rw [argument] at hargument
    cases hoperand : op.operand? with
    | none => simp [hoperand] at hargument
    | some n =>
      rw [hoperand, Option.elim_some, List.mem_append, List.mem_cons] at hargument
      rcases hargument with hspace | hspace | hdecimal
      · exact .inr (List.eq_of_mem_replicate hspace)
      · exact .inr hspace
      · exact .inl (isMark_of_mem_decimal hdecimal)

theorem text_ne_nil {op : Operation} (h : op.IsNative) : op.text.toList ≠ [] := by
  rw [toList_text]
  exact List.append_ne_nil_of_left_ne_nil (List.isEmpty_eq_false_iff.mp (isMark_name h).1) _

/-- The text of an operation ends with its name or its operand. -/
theorem isMark_of_getLast?_text {op : Operation} (h : op.IsNative) {c : Char}
    (hc : c ∈ op.text.toList.getLast?) : isMark c = true := by
  rw [toList_text, argument] at hc
  cases hoperand : op.operand? with
  | none =>
    rw [hoperand, Option.elim_none, List.append_nil] at hc
    exact List.all_eq_true.mp (isMark_name h).2 c (List.mem_of_getLast? hc)
  | some n =>
    rw [hoperand, Option.elim_some, ← List.append_assoc, List.append_cons,
      List.getLast?_append_of_ne_nil _ (Text.decimal_ne_nil n)] at hc
    exact isMark_of_mem_decimal (List.mem_of_getLast? hc)

theorem ne_space_of_isMark {c : Char} (h : isMark c = true) : (c != ' ') = true := by
  refine bne_iff_ne.mpr ?_
  rintro rfl
  cases h

theorem head?_argument (op : Operation) : ∀ c ∈ op.argument.head?, (c != ' ') = false := by
  intro c hc
  rw [argument] at hc
  cases hoperand : op.operand? with
  | none => simp [hoperand] at hc
  | some n =>
    obtain rfl : ' ' = c := by
      cases hwidth : 8 - op.name.length <;> simpa [hoperand, hwidth, List.replicate_succ] using hc
    rfl

theorem operand?_eq_of_argument {op op' : Operation} (hname : op.name = op'.name)
    (h : op.argument = op'.argument) : op.operand? = op'.operand? := by
  rw [argument, argument, hname] at h
  cases ho : op.operand? with
  | none =>
    cases ho' : op'.operand? with
    | none => rfl
    | some n => simp [ho, ho'] at h
  | some m =>
    cases ho' : op'.operand? with
    | none => simp [ho, ho'] at h
    | some n =>
      rw [ho, ho', Option.elim_some, Option.elim_some, List.append_cancel_left_eq] at h
      rw [Text.decimal_inj (String.toList_inj.mp (List.cons.inj h).2)]

/-- Operations with one text are the same. -/
theorem text_inj {op op' : Operation} (h : op.IsNative) (h' : op'.IsNative)
    (heq : op.text = op'.text) : op = op' := by
  have hlist := congrArg String.toList heq
  rw [toList_text, toList_text] at hlist
  obtain ⟨hname, hargument⟩ := Text.append_inj_of_class
    (fun c hc => ne_space_of_isMark (List.all_eq_true.mp (isMark_name h).2 c hc))
    (fun c hc => ne_space_of_isMark (List.all_eq_true.mp (isMark_name h').2 c hc))
    op.head?_argument op'.head?_argument hlist
  have hname := String.toList_inj.mp hname
  have hfound := ofName?_name h
  rw [hname, operand?_eq_of_argument hname hargument, ofName?_name h'] at hfound
  exact (Option.some.inj hfound).symm

end Operation

/-! ## Notes -/

namespace Text

theorem isBlank_eq_false {c : Char} (hfirst : '!' ≤ c) (hlast : c ≤ '~') : isBlank c = false := by
  have hfirst : 0x21 ≤ c.toNat := hfirst
  have hlast : c.toNat ≤ 0x7E := hlast
  simp [isBlank]
  omega

theorem isBlank_eq_false_of_isWordChar {c : Char} (h : Token.isWordChar c = true) :
    isBlank c = false := by
  obtain ⟨hfirst, hlast⟩ := Token.between_of_isWordChar h
  exact isBlank_eq_false (Char.le_trans (by decide) hfirst) (Char.le_trans hlast (by decide))

/-- Whether a text can end a line: it has no newline in it, and its last character is neither blank
nor a colon. -/
def isNote (s : String) : Bool :=
  !s.toList.contains '\n' && s.toList.getLast?.any fun c => !isBlank c && c != ':'

theorem newline_not_mem_of_isNote {s : String} (h : isNote s = true) : '\n' ∉ s.toList := by
  simp only [isNote, Bool.and_eq_true, Bool.not_eq_true', List.contains_eq_mem,
    decide_eq_false_iff_not] at h
  exact h.1

theorem exists_getLast?_of_isNote {s : String} (h : isNote s = true) :
    ∃ c, s.toList.getLast? = some c ∧ isBlank c = false ∧ c ≠ ':' := by
  simp only [isNote, Bool.and_eq_true, Option.any_eq_true, Bool.not_eq_true', bne_iff_ne] at h
  exact h.2

theorem toList_ne_nil_of_isNote {s : String} (h : isNote s = true) : s.toList ≠ [] := by
  obtain ⟨c, hc, -⟩ := exists_getLast?_of_isNote h
  intro hnil
  simp [hnil] at hc

/-- A note behind what is on one line is a note. -/
theorem isNote_append {front s : String} (hfront : '\n' ∉ front.toList) (h : isNote s = true) :
    isNote (front ++ s) = true := by
  obtain ⟨c, hc, hblank, hcolon⟩ := exists_getLast?_of_isNote h
  simp only [isNote, String.toList_append, Bool.and_eq_true, Bool.not_eq_true', Option.any_eq_true,
    List.contains_eq_mem, decide_eq_false_iff_not, List.mem_append, not_or, bne_iff_ne]
  refine ⟨⟨hfront, newline_not_mem_of_isNote h⟩, c, ?_, hblank, hcolon⟩
  rw [List.getLast?_append_of_ne_nil _ (toList_ne_nil_of_isNote h), hc]

end Text

/-! ## Instructions -/

namespace Instruction

/-- An instruction whose label and comment keep to their lines. -/
structure IsListable (i : Instruction) : Prop where
  isNative : i.operation.IsNative
  label : ∀ l, i.label = some l → l ≠ "" ∧ '\n' ∉ l.toList
  comment : ∀ c, i.comment = some c → Text.isNote c = true

/-- What a line shows behind the address. -/
def shown (i : Instruction) : List Char :=
  i.comment.elim i.text.toList fun c =>
    (Text.flushLeft 17 i.text).toList ++ ' ' :: ';' :: ' ' :: c.toList

variable {i j : Instruction}

theorem IsListable.present_comment (h : i.IsListable) : present i.comment = i.comment := by
  cases hc : i.comment with
  | none => rfl
  | some c =>
    have hne : c ≠ "" := by
      rintro rfl
      exact Text.toList_ne_nil_of_isNote (h.comment _ hc) rfl
    simp [present, hne]

theorem IsListable.present_label (h : i.IsListable) : present i.label = i.label := by
  cases hl : i.label with
  | none => rfl
  | some l => simp [present, (h.label l hl).1]

theorem isBlank_of_isMark {c : Char} (h : Operation.isMark c = true) :
    Text.isBlank c = false ∧ c ≠ ':' := by
  refine ⟨?_, by rintro rfl; cases h⟩
  rcases (Bool.or_eq_true _ _).mp h with hword | hsign
  · exact Text.isBlank_eq_false_of_isWordChar hword
  · rw [of_decide_eq_true hsign]
    decide

/-- No line of an instruction ends like the line of a label. -/
theorem IsListable.exists_getLast?_shown (h : i.IsListable) :
    ∃ c, i.shown.getLast? = some c ∧ Text.isBlank c = false ∧ c ≠ ':' := by
  rw [shown]
  cases hc : i.comment with
  | none =>
    have hlast := List.getLast?_eq_some_getLast (Operation.text_ne_nil h.isNative)
    exact ⟨_, hlast, isBlank_of_isMark (Operation.isMark_of_getLast?_text h.isNative hlast)⟩
  | some note =>
    have hnote := h.comment note hc
    obtain ⟨c, hlast, hends⟩ := Text.exists_getLast?_of_isNote hnote
    refine ⟨c, ?_, hends⟩
    have hassoc : (Text.flushLeft 17 i.text).toList ++ ' ' :: ';' :: ' ' :: note.toList =
        ((Text.flushLeft 17 i.text).toList ++ [' ', ';', ' ']) ++ note.toList := by simp
    rw [Option.elim_some, hassoc,
      List.getLast?_append_of_ne_nil _ (Text.toList_ne_nil_of_isNote hnote), hlast]

theorem IsListable.exists_getLast?_line (h : i.IsListable) (front : List Char) :
    ∃ c, (front ++ ':' :: ' ' :: i.shown).getLast? = some c ∧ Text.isBlank c = false ∧ c ≠ ':' := by
  obtain ⟨c, hlast, hends⟩ := h.exists_getLast?_shown
  have hne : i.shown ≠ [] := by
    intro hnil
    simp [hnil] at hlast
  have hassoc : front ++ ':' :: ' ' :: i.shown = (front ++ [':', ' ']) ++ i.shown := by simp
  exact ⟨c, by rw [hassoc, List.getLast?_append_of_ne_nil _ hne, hlast], hends⟩

theorem IsListable.dropEnd_line (h : i.IsListable) (front : List Char) :
    Text.dropEnd Text.isBlank (front ++ ':' :: ' ' :: i.shown) =
      front ++ ':' :: ' ' :: i.shown := by
  obtain ⟨c, hlast, hblank, -⟩ := h.exists_getLast?_line front
  refine Text.dropEnd_eq_self fun d hd => ?_
  rwa [← Option.some.inj (hlast.symm.trans hd)]

/-- Trimming takes away no more than the padding of an operation without a comment. -/
theorem IsListable.toList_listed (h : i.IsListable) (k : Nat) :
    (i.listed k).toList = (Text.zeroPadded 4 k).toList ++ ':' :: ' ' :: i.shown := by
  have hcolon : ": ".toList = [':', ' '] := rfl
  have hspaces : ∀ c ∈ List.replicate (17 - i.text.length) ' ', Text.isBlank c = true := by
    intro c hc
    rw [List.eq_of_mem_replicate hc]
    rfl
  rw [listed, h.present_comment, String.toList_ofList, ← h.dropEnd_line, shown]
  generalize Text.zeroPadded 4 k = front
  cases hc : i.comment with
  | none =>
    refine Eq.trans ?_ (Text.dropEnd_append_of_all hspaces)
    simp [Text.flushLeft, hcolon]
  | some c => simp [hcolon]

/-- An operation shows neither semicolons nor newlines. -/
theorem IsListable.not_mem_text (h : i.IsListable) {c : Char} (hmark : Operation.isMark c = false)
    (hspace : c ≠ ' ') : c ∉ i.text.toList := by
  intro hmem
  rcases Operation.isMark_or_eq_of_mem_text h.isNative hmem with hyes | heq
  · exact Bool.false_ne_true (hmark.symm.trans hyes)
  · exact hspace heq

theorem IsListable.semicolon_not_mem_text (h : i.IsListable) : ';' ∉ i.text.toList :=
  h.not_mem_text rfl (by decide)

theorem IsListable.ne_semicolon (h : i.IsListable) :
    ∀ c ∈ (Text.flushLeft 17 i.text).toList ++ [' '], (c != ';') = true := by
  intro c hc
  refine bne_iff_ne.mpr ?_
  rintro rfl
  rw [Text.flushLeft, String.toList_append, String.toList_ofList, List.mem_append,
    List.mem_append] at hc
  rcases hc with (htext | hspace) | hspace
  · exact h.semicolon_not_mem_text htext
  · cases List.eq_of_mem_replicate hspace
  · cases List.mem_singleton.mp hspace

theorem IsListable.getLast?_text (h : i.IsListable) : ∀ c ∈ i.text.toList.getLast?, c ≠ ' ' :=
  fun _ hc => bne_iff_ne.mp
    (Operation.ne_space_of_isMark (Operation.isMark_of_getLast?_text h.isNative hc))

/-- The operation and the comment can be told from what a line shows. -/
theorem IsListable.eq_of_shown (h : i.IsListable) (h' : j.IsListable) (heq : i.shown = j.shown) :
    i.operation = j.operation ∧ i.comment = j.comment := by
  rw [shown, shown] at heq
  cases hi : i.comment with
  | none =>
    cases hj : j.comment with
    | none =>
      rw [hi, hj] at heq
      exact ⟨Operation.text_inj h.isNative h'.isNative (String.toList_inj.mp heq), rfl⟩
    | some d =>
      rw [hi, hj, Option.elim_none, Option.elim_some] at heq
      exact absurd (by rw [heq]; simp) h.semicolon_not_mem_text
  | some c =>
    cases hj : j.comment with
    | none =>
      rw [hi, hj, Option.elim_none, Option.elim_some] at heq
      exact absurd (by rw [← heq]; simp) h'.semicolon_not_mem_text
    | some d =>
      -- the first semicolon stands between the two
      rw [hi, hj, Option.elim_some, Option.elim_some, List.append_cons,
        List.append_cons (Text.flushLeft 17 j.text).toList] at heq
      obtain ⟨hcolumn, hrest⟩ :=
        Text.append_inj_of_class h.ne_semicolon h'.ne_semicolon (by simp) (by simp) heq
      have htext := Text.flushLeft_inj h.getLast?_text h'.getLast?_text
        (String.toList_inj.mp (List.append_cancel_right hcolumn))
      refine ⟨Operation.text_inj h.isNative h'.isNative htext, ?_⟩
      rw [String.toList_inj.mp (List.cons.inj (List.cons.inj hrest).2).2]

/-- The lines of an instruction at an address. -/
def lines (k : Nat) (i : Instruction) : List String :=
  i.label.toList.map (· ++ ":") ++ [i.listed k]

theorem IsListable.newline_not_mem_shown (h : i.IsListable) : '\n' ∉ i.shown := by
  have htext : '\n' ∉ i.text.toList := h.not_mem_text rfl (by decide)
  rw [shown]
  cases hc : i.comment with
  | none => exact htext
  | some c =>
    rw [Option.elim_some, Text.flushLeft, String.toList_append, String.toList_ofList]
    simp [htext, Text.newline_not_mem_of_isNote (h.comment c hc)]

theorem IsListable.newline_not_mem_lines (h : i.IsListable) (k : Nat) :
    ∀ line ∈ i.lines k, '\n' ∉ line.toList := by
  have haddress : '\n' ∉ (Text.zeroPadded 4 k).toList := by
    intro hmem
    cases Text.isAsciiDigit_of_mem_zeroPadded hmem
  intro line hline
  rw [lines, List.mem_append, List.mem_map, List.mem_singleton] at hline
  rcases hline with ⟨l, hl, rfl⟩ | rfl
  · rw [String.toList_append]
    simp [(h.label l (Option.mem_toList.mp hl)).2]
  · rw [h.toList_listed]
    simp [haddress, h.newline_not_mem_shown]

theorem getLast?_label (l : String) : (l ++ ":").toList.getLast? = some ':' := by
  rw [String.toList_append]
  exact List.getLast?_concat

theorem IsListable.getLast?_listed (h : i.IsListable) (k : Nat) :
    (i.listed k).toList.getLast? ≠ some ':' := by
  obtain ⟨c, hlast, -, hne⟩ := h.exists_getLast?_line (Text.zeroPadded 4 k).toList
  rw [h.toList_listed, hlast]
  exact fun heq => hne (Option.some.inj heq)

theorem IsListable.listed_ne_label (h : i.IsListable) (k : Nat) (l : String) :
    i.listed k ≠ l ++ ":" :=
  fun heq => h.getLast?_listed k (heq ▸ getLast?_label l)

theorem IsListable.eq_of_listed (h : i.IsListable) (h' : j.IsListable) {k : Nat}
    (hlabel : i.label = j.label) (heq : i.listed k = j.listed k) : i = j := by
  have hlist := congrArg String.toList heq
  rw [h.toList_listed, h'.toList_listed] at hlist
  obtain ⟨hoperation, hcomment⟩ :=
    h.eq_of_shown h' (List.cons.inj (List.cons.inj (List.append_cancel_left hlist)).2).2
  cases i
  cases j
  simp_all

/-- The lines of an instruction tell it from others at its address. -/
theorem IsListable.eq_of_lines (h : i.IsListable) (h' : j.IsListable) {k : Nat}
    {others others' : List String} (heq : i.lines k ++ others = j.lines k ++ others') :
    i = j ∧ others = others' := by
  rw [lines, lines] at heq
  cases hi : i.label with
  | none =>
    cases hj : j.label with
    | none =>
      rw [hi, hj] at heq
      obtain ⟨hlisted, hothers⟩ := List.cons.inj heq
      exact ⟨h.eq_of_listed h' (hi.trans hj.symm) hlisted, hothers⟩
    | some m =>
      rw [hi, hj] at heq
      exact absurd (List.cons.inj heq).1 (h.listed_ne_label k m)
  | some l =>
    cases hj : j.label with
    | none =>
      rw [hi, hj] at heq
      exact absurd (List.cons.inj heq).1.symm (h'.listed_ne_label k l)
    | some m =>
      rw [hi, hj] at heq
      obtain ⟨hlabel, hrest⟩ := List.cons.inj heq
      obtain ⟨hlisted, hothers⟩ := List.cons.inj hrest
      have hname : l = m := by simpa using hlabel
      exact ⟨h.eq_of_listed h' (by rw [hi, hj, hname]) hlisted, hothers⟩

end Instruction

/-! ## Listings -/

/-- The lines of instructions from an address on. -/
def linesFrom (k : Nat) (is : List Instruction) : List String :=
  (is.zipIdx k).flatMap fun x => x.1.lines x.2

theorem linesFrom_cons (k : Nat) (i : Instruction) (is : List Instruction) :
    linesFrom k (i :: is) = i.lines k ++ linesFrom (k + 1) is := by
  rw [linesFrom, List.zipIdx_cons, List.flatMap_cons]
  rfl

theorem linesFrom_cons_ne_nil (k : Nat) (i : Instruction) (is : List Instruction) :
    linesFrom k (i :: is) ≠ [] := by
  simp [linesFrom_cons, Instruction.lines]

/-- Instructions with the same lines are the same. -/
theorem eq_of_linesFrom {k : Nat} {is js : List Instruction} (his : ∀ i ∈ is, i.IsListable)
    (hjs : ∀ j ∈ js, j.IsListable) (h : linesFrom k is = linesFrom k js) : is = js := by
  induction is generalizing k js with
  | nil =>
    cases js with
    | nil => rfl
    | cons j js => exact absurd h.symm (linesFrom_cons_ne_nil k j js)
  | cons i is ih =>
    cases js with
    | nil => exact absurd h (linesFrom_cons_ne_nil k i is)
    | cons j js =>
      rw [linesFrom_cons, linesFrom_cons] at h
      obtain ⟨hi, hrest⟩ := List.forall_mem_cons.mp his
      obtain ⟨hj, hrest'⟩ := List.forall_mem_cons.mp hjs
      obtain ⟨heq, hothers⟩ := hi.eq_of_lines hj h
      rw [heq, ih hrest hrest' hothers]

namespace Listing

/-- The name on a line that ends with a colon. -/
def name? (line : List Char) : Option String :=
  if line.getLast? = some ':' then some (String.ofList line.dropLast) else none

/-- The address with which a line starts. -/
def address (line : List Char) : Nat :=
  Text.ofAsciiDigits (line.takeWhile Text.isAsciiDigit)

/-- The names among lines, each with the address of the line below. -/
def entriesOf (lines : List (List Char)) : List (String × Nat) :=
  (lines.zip lines.tail).filterMap fun x => (name? x.1).map (·, address x.2)

/-- The names that label lines of a listing, with the addresses that they label. -/
def entries (listing : String) : List (String × Nat) := entriesOf (listing.toList.splitOn '\n')

theorem name?_label (l : String) : name? (l ++ ":").toList = some l := by
  have hdrop : (l ++ ":").toList.dropLast = l.toList := by
    rw [String.toList_append]
    exact List.dropLast_concat
  rw [name?, if_pos (Instruction.getLast?_label l), hdrop, String.ofList_toList]

theorem name?_listed {i : Instruction} (h : i.IsListable) (k : Nat) :
    name? (i.listed k).toList = none := by
  rw [name?, if_neg (h.getLast?_listed k)]

/-- Addresses are read as they are written, however many digits they have. -/
theorem address_listed {i : Instruction} (h : i.IsListable) (k : Nat) :
    address (i.listed k).toList = k := by
  have hdigits : ∀ c ∈ (Text.zeroPadded 4 k).toList, Text.isAsciiDigit c = true :=
    fun c hc => Text.isAsciiDigit_of_mem_zeroPadded hc
  rw [address, h.toList_listed, List.takeWhile_append_of_pos hdigits,
    List.takeWhile_cons_of_neg (by decide), List.append_nil, Text.ofAsciiDigits_zeroPadded]

theorem entriesOf_cons {line : List Char} (h : name? line = none) (lines : List (List Char)) :
    entriesOf (line :: lines) = entriesOf lines := by
  cases lines with
  | nil => rfl
  | cons next others => simp [entriesOf, h]

theorem entriesOf_cons_cons {line next : List Char} {name : String} (h : name? line = some name)
    (lines : List (List Char)) :
    entriesOf (line :: next :: lines) = (name, address next) :: entriesOf (next :: lines) := by
  simp [entriesOf, h]

theorem entriesOf_linesFrom {is : List Instruction} (h : ∀ i ∈ is, i.IsListable) (k : Nat) :
    entriesOf ((linesFrom k is).map String.toList) =
      (is.zipIdx k).filterMap fun x => x.1.label.map (·, x.2) := by
  induction is generalizing k with
  | nil => rfl
  | cons i is ih =>
    obtain ⟨hi, his⟩ := List.forall_mem_cons.mp h
    rw [linesFrom_cons, Instruction.lines, List.zipIdx_cons]
    cases hlabel : i.label with
    | none =>
      rw [List.filterMap_cons_none (by rw [hlabel]; rfl), ← ih his]
      exact entriesOf_cons (name?_listed hi k) _
    | some l =>
      rw [List.filterMap_cons_some (by rw [hlabel]; rfl), ← ih his]
      refine (entriesOf_cons_cons (name?_label l) _).trans ?_
      rw [address_listed hi, entriesOf_cons (name?_listed hi k)]
      rfl

end Listing

namespace Program

/-- A program whose labels and comments keep to their lines. -/
structure IsListable (p : Program) : Prop where
  ne_nil : p.code.toList ≠ []
  instruction : ∀ i ∈ p.code.toList, i.IsListable

variable {p q : Program}

theorem IsListable.listingLines_eq (h : p.IsListable) :
    p.listingLines = linesFrom 0 p.code.toList := by
  rw [listingLines, numbered, List.flatMap_map, linesFrom]
  refine List.flatMap_congr fun x hx => ?_
  have hpresent := (h.instruction x.1 (List.fst_mem_of_mem_zipIdx hx)).present_label
  simp only [hpresent, Instruction.lines]
  cases x.1.label <;> rfl

/-- The lines of the listing are those of the instructions. -/
theorem IsListable.splitOn_listing (h : p.IsListable) :
    p.listing.toList.splitOn '\n' = (linesFrom 0 p.code.toList).map String.toList := by
  have hseparator : "\n".toList = ['\n'] := rfl
  have hlines : ∀ line ∈ (linesFrom 0 p.code.toList).map String.toList, '\n' ∉ line := by
    refine List.forall_mem_map.mpr fun line hline => ?_
    obtain ⟨x, hx, hline⟩ := List.mem_flatMap.mp hline
    exact (h.instruction x.1 (List.fst_mem_of_mem_zipIdx hx)).newline_not_mem_lines x.2 line hline
  have hne : (linesFrom 0 p.code.toList).map String.toList ≠ [] := by
    obtain ⟨i, is, hcode⟩ := List.exists_cons_of_ne_nil h.ne_nil
    rw [hcode, Ne, List.map_eq_nil_iff]
    exact linesFrom_cons_ne_nil 0 i is
  rw [listing, h.listingLines_eq, String.toList_intercalate, hseparator]
  exact List.splitOn_intercalate '\n' hlines hne

/-- Programs with one listing have the same code. -/
theorem IsListable.code_eq (hp : p.IsListable) (hq : q.IsListable) (h : p.listing = q.listing) :
    p.code = q.code := by
  have hlines := hp.splitOn_listing
  rw [h, hq.splitOn_listing] at hlines
  have hmap := List.map_injective_iff.mpr (fun _ _ => String.toList_inj.mp) hlines
  exact Array.toList_inj.mp (eq_of_linesFrom hq.instruction hp.instruction hmap).symm

/-- The labels of a program are found in its listing. -/
theorem IsListable.entries_listing (h : p.IsListable) :
    Listing.entries p.listing =
      p.code.toList.zipIdx.filterMap fun x => x.1.label.map (·, x.2) := by
  rw [Listing.entries, h.splitOn_listing, Listing.entriesOf_linesFrom h.instruction]

end Program

end StackLang
