import Mathlib.Data.List.TakeWhile
import StackLang.Proofs.Grammar.Acceptance
import StackLang.Proofs.Grammar.Settled

/-!
# The first token that no program can have

A refused token list is refused at the earliest token possible. The tokens before that one start a
program; together with that one they start none. The token that ends the input counts as a token
here, and a list that does not end in one gets one.
-/

namespace StackLang

open Token (Kind)

namespace Grammar

/-! ## Derivations have no end in them -/

/-- None of the tokens ends the input. -/
def Endless (ts : List Token) : Prop := ∀ t ∈ ts, t.kind ≠ .endOfInput

@[simp] theorem endless_nil : Endless [] := by simp [Endless]

@[simp] theorem endless_cons {t : Token} {ts : List Token} :
    Endless (t :: ts) ↔ t.kind ≠ .endOfInput ∧ Endless ts := by simp [Endless]

@[simp] theorem endless_append {ts us : List Token} :
    Endless (ts ++ us) ↔ Endless ts ∧ Endless us := List.forall_mem_append

theorem kind_ne_end {p : Kind → Bool} (h : p .endOfInput = false) (t : OneOf p) :
    t.1.kind ≠ .endOfInput := by
  intro hk
  have ht := t.2
  rw [hk, h] at ht
  cases ht

mutual

theorem Factor.endless (f : Factor) : Endless f.word := by
  cases f with
  | parenthesised left inner right => simp [Factor.word, left.2, right.2, inner.endless]
  | negative sign operand => simp [Factor.word, sign.2, operand.endless]
  | number digits => simp [Factor.word, digits.2]
  | name token => simp [Factor.word, token.2]
  | call name left arguments right =>
    simp [Factor.word, name.2, left.2, right.2, arguments.endless]

theorem Term.endless (t : Term) : Endless t.word := by
  cases t with
  | mk first others => simp [Term.word, first.endless, others.endless]

theorem Factors.endless (fs : Factors) : Endless fs.word := by
  cases fs with
  | nil => simp [Factors.word]
  | cons operator next others =>
    simp [Factors.word, kind_ne_end rfl operator, next.endless, others.endless]

theorem Expression.endless (e : Expression) : Endless e.word := by
  cases e with
  | mk first others => simp [Expression.word, first.endless, others.endless]

theorem Terms.endless (ts : Terms) : Endless ts.word := by
  cases ts with
  | nil => simp [Terms.word]
  | cons operator next others =>
    simp [Terms.word, kind_ne_end rfl operator, next.endless, others.endless]

theorem Arguments.endless (as : Arguments) : Endless as.word := by
  cases as with
  | none => simp [Arguments.word]
  | some first others => simp [Arguments.word, first.endless, others.endless]

theorem MoreArguments.endless (as : MoreArguments) : Endless as.word := by
  cases as with
  | nil => simp [MoreArguments.word]
  | cons comma next others =>
    simp [MoreArguments.word, comma.2, next.endless, others.endless]

end

theorem Test.endless (t : Test) : Endless t.word := by
  simp [Test.word, Condition.word, t.left.2, t.right.2, t.condition.left.endless,
    t.condition.right.endless, kind_ne_end rfl t.condition.operator]

theorem Parameter.endless (p : Parameter) : Endless p.word := by
  simp [Parameter.word, p.name.2, p.colon.2, kind_ne_end rfl p.type]

theorem endless_moreParameters (ps : List (Of .comma × Parameter)) :
    Endless (moreParametersWord ps) := by
  induction ps with
  | nil => simp [moreParametersWord]
  | cons p ps ih =>
    have hword : moreParametersWord (p :: ps) = p.1.1 :: (p.2.word ++ moreParametersWord ps) := rfl
    simp [hword, p.1.2, p.2.endless, ih]

theorem Parameters.endless (ps : Parameters) : Endless ps.word := by
  cases ps with
  | none => simp [Parameters.word]
  | some first others => simp [Parameters.word, first.endless, endless_moreParameters others]

theorem endless_valueWord (value : Option (Of .assign × Expression)) :
    Endless (valueWord value) := by
  cases value with
  | none => simp [valueWord]
  | some v => simp [valueWord, v.1.2, v.2.endless]

mutual

theorem Statement.endless (s : Statement) : Endless s.word := by
  cases s with
  | function word name left parameters right arrow type body =>
    simp [Statement.word, word.2, name.2, left.2, right.2, arrow.2, kind_ne_end rfl type,
      parameters.endless, body.endless]
  | declaration word name colon type value =>
    simp [Statement.word, word.2, name.2, colon.2, kind_ne_end rfl type, endless_valueWord value]
  | conditional word test body others =>
    simp [Statement.word, word.2, test.endless, body.endless, others.endless]
  | loop word test body => simp [Statement.word, word.2, test.endless, body.endless]
  | giveBack word value => simp [Statement.word, word.2, value.endless]
  | assignment name sign value => simp [Statement.word, name.2, sign.2, value.endless]
  | expression value => exact value.endless

theorem Block.endless (b : Block) : Endless b.word := by
  cases b with
  | mk left statements right => simp [Block.word, left.2, right.2, statements.endless]

theorem Statements.endless (ss : Statements) : Endless ss.word := by
  cases ss with
  | nil => simp [Statements.word]
  | cons first others => simp [Statements.word, first.endless, others.endless]

theorem Branches.endless (bs : Branches) : Endless bs.word := by
  cases bs with
  | nil => simp [Branches.word]
  | elseIf word test body others =>
    simp [Branches.word, word.2, test.endless, body.endless, others.endless]
  | otherwise word body => simp [Branches.word, word.2, body.endless]

end

/-! ## Sentences -/

/-- Tokens of a file that surely end: a list that does not end in the end of the input gets one. -/
def ended (file : String) (ts : List Token) : List Token :=
  if ts.getLast?.map Token.kind = some .endOfInput then ts
  else ts ++ [Token.ending (.ofPosition file .start)]

/-- What the parser reads of a token list stands at its front, the token that ends it included. -/
theorem exists_ended (file : String) (ts : List Token) :
    ∃ after, ended file ts =
      (Parser.sentence file ts).1 ++ (Parser.sentence file ts).2 :: after := by
  have hsplit : ts = ts.takeWhile (·.kind ≠ .endOfInput) ++ ts.dropWhile (·.kind ≠ .endOfInput) :=
    List.takeWhile_append_dropWhile.symm
  cases hdrop : ts.dropWhile (·.kind ≠ .endOfInput) with
  | nil =>
    have hall : ∀ t ∈ ts, t.kind ≠ .endOfInput := by simpa using hdrop
    have hfind : ts.find? (·.kind = .endOfInput) = none := by simpa using hall
    have hword : ts.takeWhile (·.kind ≠ .endOfInput) = ts := by
      rw [hdrop, List.append_nil] at hsplit
      exact hsplit.symm
    have hlast : ts.getLast?.map Token.kind ≠ some .endOfInput := by
      intro h
      obtain ⟨t, ht, hk⟩ := Option.map_eq_some_iff.mp h
      exact hall t (List.mem_of_getLast? ht) hk
    refine ⟨[], ?_⟩
    rw [ended, if_neg hlast, Parser.sentence, hfind, hword, Option.getD_none]
  | cons t after =>
    have hend : t.kind = .endOfInput := by
      have hnot := List.head?_dropWhile_not (fun u : Token => decide (u.kind ≠ .endOfInput)) ts
      rw [hdrop] at hnot
      simpa using hnot
    have hfind : ts.find? (·.kind = .endOfInput) = some t := by
      rw [hsplit, hdrop, List.find?_append, List.find?_eq_none.mpr, Option.none_or,
        List.find?_cons_of_pos (by simpa using hend)]
      intro u hu
      simpa using List.all_eq_true.mp List.all_takeWhile u hu
    have hsentence : Parser.sentence file ts = (ts.takeWhile (·.kind ≠ .endOfInput), t) := by
      rw [Parser.sentence, hfind, Option.getD_some]
    rw [hdrop] at hsplit
    rw [hsentence, ended]
    split
    · exact ⟨after, hsplit⟩
    · refine ⟨after ++ [Token.ending (.ofPosition file .start)], ?_⟩
      rw [← List.cons_append, ← List.append_assoc, ← hsplit]

/-- Some program starts with these tokens. -/
def Viable (file : String) (ts : List Token) : Prop :=
  ∃ rest t, Parser.program file (ts ++ rest) = .ok t

/-- The start of a derivation starts a program. -/
theorem viable_of_word {d : Statements} {start more : List Token} (file : String)
    (h : d.word = start ++ more) : Viable file start := by
  refine ⟨more, exists_program_iff.mpr ⟨d, ?_⟩⟩
  have hendless : ∀ t ∈ start ++ more, decide (t.kind ≠ .endOfInput) = true :=
    fun t ht => decide_eq_true (d.endless t (h ▸ ht))
  rw [Parser.sentence, List.takeWhile_eq_self_iff.mpr hendless, h]

/-- The parser reads nothing of what follows the end of the input. -/
theorem sentence_append {start : List Token} {stop : Token} (file : String) (us : List Token)
    (hstart : Endless start) (hstop : stop.kind = .endOfInput) :
    Parser.sentence file (start ++ stop :: us) = (start, stop) := by
  have hword : ∀ t ∈ start, decide (t.kind ≠ .endOfInput) = true :=
    fun t ht => decide_eq_true (hstart t ht)
  have hnone : start.find? (·.kind = .endOfInput) = none :=
    List.find?_eq_none.mpr fun t ht => by simpa using hstart t ht
  rw [Parser.sentence, List.takeWhile_append_of_pos hword, List.find?_append, hnone]
  simp [hstop]

/-- Before the end of the input the word goes on. -/
theorem sentence_cons_append {start : List Token} {t : Token} (file : String) (us : List Token)
    (hstart : Endless start) (ht : t.kind ≠ .endOfInput) :
    ∃ us', (Parser.sentence file (start ++ t :: us)).1 = start ++ t :: us' := by
  have hword : ∀ u ∈ start, decide (u.kind ≠ .endOfInput) = true :=
    fun u hu => decide_eq_true (hstart u hu)
  refine ⟨us.takeWhile (·.kind ≠ .endOfInput), ?_⟩
  rw [Parser.sentence, List.takeWhile_append_of_pos hword, List.takeWhile_cons]
  exact congrArg (start ++ ·) (if_pos (decide_eq_true ht))

/-! ## Refusals -/

/-- A program is refused if its statements are. -/
theorem program_eq_error_iff {file : String} {ts : List Token} {r : Parser.Refusal} :
    Parser.program file ts = .error r ↔
      Parser.statements (Parser.sentence file ts).2 (Parser.sentence file ts).1 = .error r := by
  have hprogram : Parser.program file ts =
      (Parser.statements (Parser.sentence file ts).2 (Parser.sentence file ts).1).bind fun v =>
        .ok (plainNode .program (Parser.peek (Parser.sentence file ts).2
          (Parser.sentence file ts).1).location v) := rfl
  rw [hprogram]
  cases Parser.statements (Parser.sentence file ts).2 (Parser.sentence file ts).1 <;>
    simp [Except.bind]

/-- Where statements are refused: after the start of a derivation, whatever comes later. -/
theorem exists_refusal {stop : Token} {ts : List Token} {r : Parser.Refusal}
    (h : Parser.statements stop ts = .error r) :
    ∃ start rest, ts = start ++ rest ∧ r.found = Parser.peek stop rest ∧
      (∃ (d : Statements) (more : List Token), d.word = start ++ more) ∧
      ∀ stop' us, Parser.Alike us rest → Parser.statements stop' (start ++ us) = .error r := by
  cases Parser.statements_settles stop ts with
  | taken v d rest split result steady =>
    rw [h] at result
    cases result
  | refused r' start rest split result found viable steady =>
    rw [h] at result
    obtain rfl : r = r' := Except.error.inj result
    refine ⟨start, rest, split, found, viable, fun stop' us hus => ?_⟩
    have hsteady := steady stop' us hus
    cases hstatements : Parser.statements stop' (start ++ us) with
    | ok v =>
      rw [hstatements] at hsteady
      cases hsteady
    | error r' =>
      rw [hstatements] at hsteady
      exact congrArg Except.error (Except.error.inj hsteady)

theorem kind_stop (file : String) (ts : List Token) :
    (Parser.sentence file ts).2.kind = .endOfInput := by
  unfold Parser.sentence
  cases hfind : ts.find? (·.kind = .endOfInput) with
  | none => rfl
  | some t => simpa using List.find?_some hfind

theorem endless_sentence (file : String) (ts : List Token) :
    Endless (Parser.sentence file ts).1 :=
  fun t ht => of_decide_eq_true (List.all_eq_true.mp List.all_takeWhile t ht)

/-- The tokens up to a refused one start no program. -/
theorem not_viable_of_refusal {file : String} {start rest : List Token} {stop : Token}
    {r : Parser.Refusal} (hstart : Endless (start ++ rest)) (hstop : stop.kind = .endOfInput)
    (hstatements : Parser.statements stop (start ++ rest) = .error r)
    (hsteady : ∀ stop' us, Parser.Alike us rest →
      Parser.statements stop' (start ++ us) = .error r) :
    ¬Viable file (start ++ [Parser.peek stop rest]) := by
  rintro ⟨us, t, ht⟩
  rw [List.append_assoc, List.singleton_append] at ht
  suffices herror : Parser.program file (start ++ Parser.peek stop rest :: us) = .error r by
    rw [herror] at ht
    cases ht
  rw [program_eq_error_iff]
  cases rest with
  | nil =>
    -- The end of the input is refused: what comes after it is not read.
    rw [List.append_nil] at hstart hstatements
    rw [Parser.peek, List.headD_nil, sentence_append file us hstart hstop]
    exact hstatements
  | cons u rest =>
    rw [endless_append, endless_cons] at hstart
    obtain ⟨us', hword⟩ := sentence_cons_append file us hstart.1 hstart.2.1
    rw [Parser.peek, List.headD_cons, hword]
    exact hsteady _ _ ⟨List.cons_ne_nil _ _, rfl⟩

/-- A token list that is no program is refused at its earliest token that no program can have there,
and the diagnostic has the place and the text of that token. -/
theorem refused_at_earliest {file : String} {ts : List Token} {r : Parser.Refusal}
    (h : Parser.program file ts = .error r) (lines : List String) :
    ∃ k t, (ended file ts)[k]? = some t ∧
      (r.diagnostic lines).location = some t.location ∧
      (let text := if t.kind = .endOfInput then "end of input" else t.lexeme
       (∃ expected, (r.diagnostic lines).cause = .missingToken expected text) ∨
         ∃ expected, (r.diagnostic lines).cause = .unexpectedToken text expected) ∧
      (∀ j ≤ k, Viable file ((ended file ts).take j)) ∧
      ¬Viable file ((ended file ts).take (k + 1)) := by
  have hstatements := program_eq_error_iff.mp h
  obtain ⟨start, rest, hsplit, hfound, ⟨d, more, hd⟩, hsteady⟩ := exists_refusal hstatements
  obtain ⟨after, hended⟩ := exists_ended file ts
  have hendless := endless_sentence file ts
  rw [hsplit] at hended hendless hstatements
  -- The refused token stands right after the start of the derivation.
  obtain ⟨us, hus⟩ : ∃ us, ended file ts =
      start ++ Parser.peek (Parser.sentence file ts).2 rest :: us := by
    cases rest with
    | nil => exact ⟨after, by rw [hended, List.append_nil]; rfl⟩
    | cons u rest =>
      refine ⟨rest ++ (Parser.sentence file ts).2 :: after, ?_⟩
      rw [hended, List.append_assoc]
      rfl
  refine ⟨start.length, r.found, ?_, rfl, ?_, fun j hj => ?_, ?_⟩
  · rw [hus, hfound, List.getElem?_append_right (le_refl _), Nat.sub_self]
    rfl
  · change (∃ expected, r.cause = .missingToken expected r.found.described) ∨
      ∃ expected, r.cause = .unexpectedToken r.found.described expected
    unfold Parser.Refusal.cause
    split
    · exact .inr ⟨_, rfl⟩
    · exact .inr ⟨_, rfl⟩
    · exact .inl ⟨_, rfl⟩
  · rw [hus, List.take_append_of_le_length hj]
    have hword : d.word = start.take j ++ (start.drop j ++ more) := by
      rw [← List.append_assoc, List.take_append_drop, hd]
    exact viable_of_word file hword
  · rw [hus, List.take_length_add_append, List.take_succ_cons, List.take_zero]
    exact not_viable_of_refusal hendless (kind_stop file ts) hstatements hsteady

/-- An assignment of a call that lacks an argument and ends too early. -/
def unclosed : List Token :=
  [Kind.identifier, .assign, .identifier, .leftParen, .number, .comma].map fun k =>
    ⟨k, k.spelling, .ofPosition "unclosed" .start⟩

theorem refused_at_earliest_unclosed :
    ∃ r, Parser.program "unclosed" unclosed = .error r ∧
      ∃ k t, (ended "unclosed" unclosed)[k]? = some t ∧
        (r.diagnostic []).location = some t.location ∧
        (∀ j ≤ k, Viable "unclosed" ((ended "unclosed" unclosed).take j)) ∧
        ¬Viable "unclosed" ((ended "unclosed" unclosed).take (k + 1)) := by
  have hrefused : (Parser.program "unclosed" unclosed).toBool = false := by
    decide +kernel
  cases h : Parser.program "unclosed" unclosed with
  | ok t =>
    rw [h] at hrefused
    cases hrefused
  | error r =>
    obtain ⟨k, t, ht, hlocation, -, hviable, hnot⟩ := refused_at_earliest h []
    exact ⟨r, rfl, k, t, ht, hlocation, hviable, hnot⟩

end Grammar

end StackLang
