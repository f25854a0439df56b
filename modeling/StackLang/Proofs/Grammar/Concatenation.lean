import StackLang.Proofs.Grammar.Earliest

/-!
# Programs one after the other

The tokens of two programs, one after the other, are a program. Its statements are those of the
first and then those of the second one, unless the first token of the second program continues the
value with which the first one ends: a minus sign goes on with any value, and a parenthesis makes a
call of a name. No other token that starts a statement continues one.
-/

namespace StackLang.Grammar

open Token (Kind)
open StackLang.Parser (lead lead_cons)

/-! ## Where programs meet -/

/-- The kinds of the tokens with which expressions end. -/
def isExpressionEnd : Kind → Bool
  | .identifier | .number | .rightParen => true
  | _ => false

/-- The last token is one with which expressions end. -/
def EndsExpression (ts : List Token) : Prop := (trail ts).any isExpressionEnd = true

/-- The first token of `us` continues the value with which `ts` ends. -/
def Joins (ts us : List Token) : Prop :=
  (lead us = some .minus ∧ EndsExpression ts) ∨
    (lead us = some .leftParen ∧ trail ts = some .identifier)

instance (ts us : List Token) : Decidable (Joins ts us) :=
  inferInstanceAs (Decidable
    ((lead us = some .minus ∧ (trail ts).any isExpressionEnd = true) ∨
      (lead us = some .leftParen ∧ trail ts = some .identifier)))

theorem endsExpression_concat {t : Token} (h : isExpressionEnd t.kind = true) (ts : List Token) :
    EndsExpression (ts ++ [t]) := by
  rw [EndsExpression, trail_append ts (List.cons_ne_nil t [])]
  exact h

theorem EndsExpression.ne_nil {ts : List Token} (h : EndsExpression ts) : ts ≠ [] := by
  rintro rfl
  cases h

theorem EndsExpression.append {us : List Token} (h : EndsExpression us) (ts : List Token) :
    EndsExpression (ts ++ us) := by
  rwa [EndsExpression, trail_append ts h.ne_nil]

theorem Joins.append {ts us : List Token} (h : Joins ts us) (start : List Token) :
    Joins (start ++ ts) us := by
  rcases h with ⟨hminus, hend⟩ | ⟨hparen, hname⟩
  · exact .inl ⟨hminus, hend.append start⟩
  · have hne : ts ≠ [] := by
      rintro rfl
      cases hname
    exact .inr ⟨hparen, (trail_append start hne).trans hname⟩

theorem Factor.endsExpression (f : Factor) : EndsExpression f.word := by
  cases f with
  | parenthesised left inner right =>
    exact endsExpression_concat (by rw [right.2]; rfl) (left.1 :: inner.word)
  | negative sign operand => exact operand.endsExpression.append [sign.1]
  | number digits => exact endsExpression_concat (by rw [digits.2]; rfl) []
  | name token => exact endsExpression_concat (by rw [token.2]; rfl) []
  | call name left arguments right =>
    exact endsExpression_concat (by rw [right.2]; rfl) (name.1 :: left.1 :: arguments.word)

theorem Factors.endsExpression {ts : List Token} (h : EndsExpression ts) (fs : Factors) :
    EndsExpression (ts ++ fs.word) := by
  cases fs with
  | nil => rwa [Factors.word, List.append_nil]
  | cons operator next others =>
    rw [Factors.word, ← List.append_assoc]
    exact others.endsExpression ((next.endsExpression.append [operator.1]).append ts)

theorem Term.endsExpression (t : Term) : EndsExpression t.word := by
  obtain ⟨first, others⟩ := t
  exact others.endsExpression first.endsExpression

theorem Terms.endsExpression {us : List Token} (h : EndsExpression us) (ts : Terms) :
    EndsExpression (us ++ ts.word) := by
  cases ts with
  | nil => rwa [Terms.word, List.append_nil]
  | cons operator next others =>
    rw [Terms.word, ← List.append_assoc]
    exact others.endsExpression ((next.endsExpression.append [operator.1]).append us)

theorem Expression.endsExpression (e : Expression) : EndsExpression e.word := by
  obtain ⟨first, others⟩ := e
  exact others.endsExpression first.endsExpression

/-- The first token, if there is one, starts a statement. -/
def StartsStatement (us : List Token) : Prop := Ends (fun k => !isStatementStart k) us

/-- A statement does not continue an expression unless it joins it. -/
theorem StartsStatement.apart {ts us : List Token} (h : StartsStatement us)
    (hts : EndsExpression ts) (hjoins : ¬Joins ts us) : Apart ts us where
  additive := fun k hk => by
    by_cases hminus : k = .minus
    · exact absurd (.inl ⟨hminus ▸ hk, hts⟩) hjoins
    · have hstart := h k hk
      cases k <;> first | rfl | exact absurd rfl hminus | cases hstart
  multiplicative := h.imp fun k hk => by cases k <;> first | rfl | cases hk
  callFree := fun hname hparen => hjoins (.inr ⟨hparen, hname⟩)

/-- Statements after statements are statements. -/
theorem Statements.exists_append (d e : Statements) :
    ∃ f : Statements, f.word = d.word ++ e.word := by
  cases d with
  | nil => exact ⟨e, rfl⟩
  | cons first others =>
    obtain ⟨f, hf⟩ := others.exists_append e
    exact ⟨.cons first f, by rw [Statements.word, hf, Statements.word, List.append_assoc]⟩

theorem Statements.startsStatement (d : Statements) : StartsStatement d.word := by
  cases d with
  | nil => rintro k ⟨⟩
  | cons first others =>
    obtain ⟨t, w, hw, ht⟩ := first.word_eq_cons
    rw [Statements.word, hw]
    exact ends_cons (by rw [ht]; rfl) _

end StackLang.Grammar

namespace StackLang.Parser

open Token (Kind)
open Grammar

/-! ## Reading on -/

theorem ne_nil_of_plain {ts rest : List Token} {α : Type} {a : Attempt (Parsed ts.length α)} {v : α}
    (h : plain a = .ok (v, rest)) : ts ≠ [] :=
  List.ne_nil_of_length_pos (Nat.zero_lt_of_lt (length_lt_of_plain h))

/-- What was read before a token that is left is read before it as well if more follows. -/
theorem Settles.append {α D : Type} {f : Reader α} {word : D → List Token} {stop : Token}
    {ts rest : List Token} {v : α} (h : Settles f word stop ts) 
    (hresult : f stop ts = .ok (v, rest)) (hrest : rest ≠ []) (stop' : Token) (us : List Token) :
    f stop' (ts ++ us) = .ok (v, rest ++ us) := by
  cases h with
  | taken v' d rest' split result steady =>
    obtain ⟨rfl, rfl⟩ := Prod.mk.inj (Except.ok.inj (result.symm.trans hresult))
    rw [split, List.append_assoc]
    refine steady stop' (rest' ++ us) ⟨by simp [hrest], ?_⟩
    rw [List.head?_append, List.head?_eq_some_head hrest, Option.some_or]
  | refused r start rest' split result found viable steady => cases result.symm.trans hresult

/-- A block is closed, so nothing that follows belongs to it. -/
theorem blockTail_append {stop : Token} {ts rest : List Token} {v : List Tree}
    (h : plain (blockTail stop ts) = .ok (v, rest)) (stop' : Token) (us : List Token) :
    plain (blockTail stop' (ts ++ us)) = .ok (v, rest ++ us) := by
  cases hts : ts with
  | nil =>
    rw [hts, plain_blockTail_nil] at h
    cases h
  | cons t ts₀ =>
    subst hts
    by_cases hk : t.kind = .rightBrace
    · rw [plain_blockTail_close stop hk] at h
      cases h
      exact plain_blockTail_close stop' hk _
    · rw [plain_blockTail stop hk, bind_eq_ok] at h
      obtain ⟨⟨first, ts₁⟩, hfirst, h⟩ := h
      obtain ⟨⟨others, ts₂⟩, hothers, h⟩ := bind_eq_ok.mp h
      cases h
      have hlt := length_lt_of_plain hfirst
      rw [List.cons_append, plain_blockTail stop' hk, bind_eq_ok]
      exact ⟨_, (statement_settles stop _).append hfirst (ne_nil_of_plain hothers) stop' us,
        bind_eq_ok.mpr ⟨_, blockTail_append hothers stop' us, rfl⟩⟩
termination_by ts.length
decreasing_by simp only [hts, List.length_cons] at *; omega

theorem block_append {stop : Token} {ts rest : List Token} {v : Tree}
    (h : plain (block stop ts) = .ok (v, rest)) (stop' : Token) (us : List Token) :
    plain (block stop' (ts ++ us)) = .ok (v, rest ++ us) := by
  rw [plain_block, bind_eq_ok] at h
  obtain ⟨⟨brace, ts₁⟩, hbrace, h⟩ := h
  obtain ⟨rfl, hk⟩ := plain_expectToken_eq_ok.mp hbrace
  obtain ⟨⟨children, ts₂⟩, hchildren, h⟩ := bind_eq_ok.mp h
  cases h
  rw [List.cons_append, plain_block, bind_eq_ok]
  exact ⟨_, plain_expectToken_eq_ok.mpr ⟨rfl, hk⟩,
    bind_eq_ok.mpr ⟨_, blockTail_append hchildren stop' us, rfl⟩⟩

/-- No statement is a further branch. -/
theorem branches_append {stop : Token} {ts rest us : List Token} {v : List Tree}
    (h : plain (branches stop ts) = .ok (v, rest)) (hus : StartsStatement us) (stop' : Token) :
    plain (branches stop' (ts ++ us)) = .ok (v, rest ++ us) := by
  by_cases hi : lead ts = some .keywordElseif
  · obtain ⟨t, ts₀, hts, hk⟩ := lead_eq_some_iff.mp hi
    subst hts
    rw [plain_branches_elseif stop hk, bind_eq_ok] at h
    obtain ⟨⟨test, ts₁⟩, htest, h⟩ := h
    obtain ⟨⟨body, ts₂⟩, hbody, h⟩ := bind_eq_ok.mp h
    obtain ⟨⟨others, ts₃⟩, hothers, h⟩ := bind_eq_ok.mp h
    cases h
    have hlt := length_lt_of_plain htest
    have hlt' := length_lt_of_plain hbody
    rw [List.cons_append, plain_branches_elseif stop' hk, bind_eq_ok]
    exact ⟨_, (parenthesised_settles stop ts₀).append htest (ne_nil_of_plain hbody) stop' us,
      bind_eq_ok.mpr ⟨_, block_append hbody stop' us,
        bind_eq_ok.mpr ⟨_, branches_append hothers hus stop', rfl⟩⟩⟩
  by_cases he : lead ts = some .keywordElse
  · obtain ⟨t, ts₀, rfl, hk⟩ := lead_eq_some_iff.mp he
    rw [plain_branches_else stop hk, bind_eq_ok] at h
    obtain ⟨⟨body, ts₁⟩, hbody, h⟩ := h
    cases h
    rw [List.cons_append, plain_branches_else stop' hk, bind_eq_ok]
    exact ⟨_, block_append hbody stop' us, rfl⟩
  · rw [plain_branches stop hi he] at h
    cases h
    cases ts with
    | nil => exact plain_branches stop' (hus.lead_ne rfl) (hus.lead_ne rfl)
    | cons t ts => exact plain_branches stop' hi he
termination_by ts.length
decreasing_by simp only [hts, List.length_cons]; omega

/-- An expression that ends where other tokens do is read to there, unless a statement after it
joins it. -/
theorem expression_append {stop : Token} {ts us : List Token} {v : Tree}
    (h : plain (expression stop ts) = .ok (v, [])) (hus : StartsStatement us)
    (hjoins : ¬Joins ts us) (stop' : Token) :
    plain (expression stop' (ts ++ us)) = .ok (v, us) := by
  obtain ⟨e, hts, rfl⟩ := expression_sound h
  rw [List.append_nil] at hts
  subst hts
  exact expression_apart stop' e (hus.apart e.endsExpression hjoins)

/-- The value of a declaration, or none. -/
theorem value_append (node : Option Tree → Tree) {stop : Token} {ts us : List Token} {v : Tree}
    (h : (if lead ts = some .assign then
        (plain (expression stop ts.tail)).bind fun p => .ok (node (some p.1), p.2)
      else .ok (node none, ts)) = .ok (v, []))
    (hus : StartsStatement us) (hjoins : ¬Joins ts us) (stop' : Token) :
    (if lead (ts ++ us) = some .assign then
        (plain (expression stop' (ts ++ us).tail)).bind fun p => .ok (node (some p.1), p.2)
      else .ok (node none, ts ++ us)) = .ok (v, us) := by
  by_cases hassign : lead ts = some .assign
  · rw [if_pos hassign, bind_eq_ok] at h
    obtain ⟨⟨value, rest⟩, hvalue, h⟩ := h
    cases h
    obtain ⟨sign, ts, rfl, hsign⟩ := lead_eq_some_iff.mp hassign
    have hnot : ¬Joins ts us := fun hj => hjoins (hj.append [sign])
    rw [List.cons_append, lead_cons, if_pos (congrArg some hsign), bind_eq_ok]
    exact ⟨_, expression_append hvalue hus hnot stop', rfl⟩
  · rw [if_neg hassign] at h
    cases h
    exact if_neg (hus.lead_ne rfl)

theorem declaration_append {stop : Token} {location : Location} {ts us : List Token} {v : Tree}
    (h : plain (declaration stop location ts) = .ok (v, [])) (hus : StartsStatement us)
    (hjoins : ¬Joins ts us) (stop' : Token) :
    plain (declaration stop' location (ts ++ us)) = .ok (v, us) := by
  rw [plain_declaration, bind_eq_ok] at h
  obtain ⟨⟨name, ts₁⟩, hname, h⟩ := h
  obtain ⟨⟨colon, ts₂⟩, hcolon, h⟩ := bind_eq_ok.mp h
  obtain ⟨⟨type, ts₃⟩, htype, hvalue⟩ := bind_eq_ok.mp h
  have hname' := plain_expect_eq_ok.mp hname
  have hcolon' := plain_expectToken_eq_ok.mp hcolon
  have htype' := plain_expectWhere_eq_ok.mp htype
  rw [hname'.1, hcolon'.1, htype'.1] at hjoins ⊢
  have hnot : ¬Joins ts₃ us := fun hj => hjoins (hj.append [name, colon, type])
  rw [List.cons_append, List.cons_append, List.cons_append, plain_declaration, bind_eq_ok]
  exact ⟨_, plain_expect_eq_ok.mpr ⟨rfl, hname'.2⟩, bind_eq_ok.mpr
    ⟨_, plain_expectToken_eq_ok.mpr ⟨rfl, hcolon'.2⟩, bind_eq_ok.mpr
      ⟨_, plain_expectWhere_eq_ok.mpr ⟨rfl, htype'.2⟩, value_append _ hvalue hus hnot stop'⟩⟩⟩

/-- A statement that ends where other tokens do is read to there, unless a statement after it joins
it. -/
theorem statement_append {stop : Token} {ts us : List Token} {v : Tree}
    (h : plain (statement stop ts) = .ok (v, [])) (hus : StartsStatement us)
    (hjoins : ¬Joins ts us) (stop' : Token) :
    plain (statement stop' (ts ++ us)) = .ok (v, us) := by
  obtain ⟨t, ts, rfl⟩ := List.exists_cons_of_ne_nil (ne_nil_of_plain h)
  have hnot : ¬Joins ts us := fun hj => hjoins (hj.append [t])
  rw [List.cons_append]
  by_cases hw : isStatementWord t.kind = true
  · cases hk : t.kind with
    | keywordFn =>
      rw [plain_statement_fn stop hk, bind_eq_ok] at h
      obtain ⟨⟨head, ts₁⟩, hhead, h⟩ := h
      obtain ⟨⟨body, ts₂⟩, hbody, h⟩ := bind_eq_ok.mp h
      cases h
      rw [plain_statement_fn stop' hk, bind_eq_ok]
      exact ⟨_, (functionHead_settles stop ts).append hhead (ne_nil_of_plain hbody) stop' us,
        bind_eq_ok.mpr ⟨_, block_append hbody stop' us, rfl⟩⟩
    | keywordVar =>
      rw [plain_statement_var stop hk] at h
      rw [plain_statement_var stop' hk]
      exact declaration_append h hus hnot stop'
    | keywordIf =>
      rw [plain_statement_if stop hk, bind_eq_ok] at h
      obtain ⟨⟨test, ts₁⟩, htest, h⟩ := h
      obtain ⟨⟨body, ts₂⟩, hbody, h⟩ := bind_eq_ok.mp h
      obtain ⟨⟨others, ts₃⟩, hothers, h⟩ := bind_eq_ok.mp h
      cases h
      rw [plain_statement_if stop' hk, bind_eq_ok]
      exact ⟨_, (parenthesised_settles stop ts).append htest (ne_nil_of_plain hbody) stop' us,
        bind_eq_ok.mpr ⟨_, block_append hbody stop' us,
          bind_eq_ok.mpr ⟨_, branches_append hothers hus stop', rfl⟩⟩⟩
    | keywordWhile =>
      rw [plain_statement_while stop hk, bind_eq_ok] at h
      obtain ⟨⟨test, ts₁⟩, htest, h⟩ := h
      obtain ⟨⟨body, ts₂⟩, hbody, h⟩ := bind_eq_ok.mp h
      cases h
      rw [plain_statement_while stop' hk, bind_eq_ok]
      exact ⟨_, (parenthesised_settles stop ts).append htest (ne_nil_of_plain hbody) stop' us,
        bind_eq_ok.mpr ⟨_, block_append hbody stop' us, rfl⟩⟩
    | keywordReturn =>
      rw [plain_statement_return stop hk, bind_eq_ok] at h
      obtain ⟨⟨value, ts₁⟩, hvalue, h⟩ := h
      cases h
      rw [plain_statement_return stop' hk, bind_eq_ok]
      exact ⟨_, expression_append hvalue hus hnot stop', rfl⟩
    | _ => rw [hk] at hw; cases hw
  rw [Bool.not_eq_true] at hw
  by_cases hassign : t.kind = .identifier ∧ lead ts = some .assign
  · obtain ⟨hi, hl⟩ := hassign
    obtain ⟨sign, ts, rfl, hsign⟩ := lead_eq_some_iff.mp hl
    rw [plain_statement_assignment stop hi hsign, bind_eq_ok] at h
    obtain ⟨⟨value, ts₁⟩, hvalue, h⟩ := h
    cases h
    have hnot' : ¬Joins ts us := fun hj => hnot (hj.append [sign])
    rw [List.cons_append, plain_statement_assignment stop' hi hsign, bind_eq_ok]
    exact ⟨_, expression_append hvalue hus hnot' stop', rfl⟩
  · -- a name that ends the tokens is not assigned to: no statement starts with the sign for it
    have hassign' : ¬(t.kind = .identifier ∧ lead (ts ++ us) = some .assign) := by
      cases ts with
      | nil => exact fun ha => hus.lead_ne rfl ha.2
      | cons u ts => exact hassign
    rw [plain_statement_expression stop hw hassign] at h
    rw [plain_statement_expression stop' hw hassign']
    exact expression_append h hus hjoins stop'

theorem startsStatement_of_statements {stop : Token} {ts : List Token} {v : List Tree}
    (h : statements stop ts = .ok v) : StartsStatement ts := by
  obtain ⟨d, rfl, -⟩ := statements_sound h
  exact d.startsStatement

/-- Statements are read as before if others that do not join them follow. -/
theorem statements_append {stop stop' : Token} {ts us : List Token} {v w : List Tree}
    (hts : statements stop ts = .ok v) (hus : statements stop' us = .ok w)
    (hjoins : ¬Joins ts us) : statements stop' (ts ++ us) = .ok (v ++ w) := by
  cases hcons : ts with
  | nil =>
    rw [hcons, statements_nil] at hts
    cases hts
    exact hus
  | cons t ts₀ =>
    subst hcons
    rw [statements_cons, bind_eq_ok] at hts
    obtain ⟨⟨first, rest⟩, hfirst, hts⟩ := hts
    obtain ⟨others, hothers, h⟩ := bind_eq_ok.mp hts
    cases h
    have hlt := length_lt_of_plain hfirst
    have hread : plain (statement stop' (t :: ts₀ ++ us)) = .ok (first, rest ++ us) := by
      cases rest with
      | nil => exact statement_append hfirst (startsStatement_of_statements hus) hjoins stop'
      | cons u rest =>
        exact (statement_settles stop _).append hfirst (List.cons_ne_nil u rest) stop' us
    have hnot : ¬Joins rest us := by
      obtain ⟨d, hsplit, -⟩ := statement_sound hfirst
      rw [hsplit] at hjoins
      exact fun hj => hjoins (hj.append d.word)
    rw [List.cons_append, statements_cons, bind_eq_ok]
    exact ⟨_, hread, bind_eq_ok.mpr ⟨_, statements_append hothers hus hnot, rfl⟩⟩
termination_by ts.length
decreasing_by simp only [hcons, List.length_cons] at *; omega

/-- Which token ends the input does not matter for what is read to its end. -/
theorem statements_stop {stop : Token} {ts : List Token} {v : List Tree}
    (h : statements stop ts = .ok v) (stop' : Token) : statements stop' ts = .ok v := by
  have hnot : ¬Joins ts [] := by rintro (⟨⟨⟩, -⟩ | ⟨⟨⟩, -⟩)
  simpa using statements_append h (statements_nil stop') hnot

end StackLang.Parser

namespace StackLang.Grammar

open Token (Kind)

instance (ts : List Token) : Decidable (Endless ts) :=
  inferInstanceAs (Decidable (∀ t ∈ ts, t.kind ≠ .endOfInput))

theorem sentence_of_endless {ts : List Token} (h : Endless ts) (file : String) :
    (Parser.sentence file ts).1 = ts :=
  List.takeWhile_eq_self_iff.mpr fun t ht => decide_eq_true (h t ht)

/-- Programs one after the other are a program, and unless the second one joins the value with which
the first one ends, its statements are those of the first and then those of the second one. -/
theorem programs_concatenate {file file' : String} {ts us : List Token} {t u : Tree}
    (hts : Endless ts) (hus : Endless us) (ht : Parser.program file ts = .ok t)
    (hu : Parser.program file' us = .ok u) (file'' : String) :
    ∃ w, Parser.program file'' (ts ++ us) = .ok w ∧
      (¬Joins ts us → w.children = t.children ++ u.children) := by
  have hboth := sentence_of_endless (endless_append.mpr ⟨hts, hus⟩) file''
  obtain ⟨d, hd⟩ := exists_program_iff.mp ⟨t, ht⟩
  obtain ⟨e, he⟩ := exists_program_iff.mp ⟨u, hu⟩
  obtain ⟨f, hf⟩ := d.exists_append e
  rw [hd, he, sentence_of_endless hts, sentence_of_endless hus] at hf
  obtain ⟨w, hw⟩ := exists_program_iff.mpr ⟨f, hf.trans hboth.symm⟩
  refine ⟨w, hw, fun hjoins => ?_⟩
  obtain ⟨firsts, hfirsts, rfl⟩ := program_eq_ok_iff.mp ht
  obtain ⟨seconds, hseconds, rfl⟩ := program_eq_ok_iff.mp hu
  obtain ⟨all, hall, rfl⟩ := program_eq_ok_iff.mp hw
  rw [sentence_of_endless hts] at hfirsts
  rw [sentence_of_endless hus] at hseconds
  rw [hboth, Parser.statements_append hfirsts (Parser.statements_stop hseconds _) hjoins] at hall
  exact (Except.ok.inj hall).symm

/-- A token of which the place does not matter. -/
def somewhere (k : Kind) (lexeme : String) : Token := ⟨k, lexeme, .ofPosition "" .start⟩

/-- A number is assigned to a name. -/
def numberAssigned : List Token :=
  [somewhere .identifier "x", somewhere .assign "=", somewhere .number "1"]

/-- A name is negated. -/
def nameNegated : List Token := [somewhere .minus "-", somewhere .identifier "y"]

/-- A name is negated in parentheses. -/
def nameEnclosed : List Token :=
  somewhere .leftParen "(" :: nameNegated ++ [somewhere .rightParen ")"]

/-- A parenthesis does not continue a number. -/
theorem programs_concatenate_numberAssigned :
    ¬Joins numberAssigned nameEnclosed ∧
      ∃ t u w, Parser.program "f" numberAssigned = .ok t ∧
        Parser.program "g" nameEnclosed = .ok u ∧
        Parser.program "h" (numberAssigned ++ nameEnclosed) = .ok w ∧
        t.children.map Tree.kind = [.assignment] ∧ u.children.map Tree.kind = [.negate] ∧
        w.children = t.children ++ u.children := by
  have hts : Endless numberAssigned := by decide
  have hus : Endless nameEnclosed := by decide
  have hjoins : ¬Joins numberAssigned nameEnclosed := by decide
  have ht : (Parser.program "f" numberAssigned).toOption.map (·.children.map Tree.kind) =
      some [.assignment] := by decide +kernel
  have hu : (Parser.program "g" nameEnclosed).toOption.map (·.children.map Tree.kind) =
      some [.negate] := by decide +kernel
  cases htree : Parser.program "f" numberAssigned with
  | error r => rw [htree] at ht; cases ht
  | ok t =>
    cases hutree : Parser.program "g" nameEnclosed with
    | error r => rw [hutree] at hu; cases hu
    | ok u =>
      rw [htree] at ht
      rw [hutree] at hu
      obtain ⟨w, hw, hchildren⟩ := programs_concatenate hts hus htree hutree "h"
      exact ⟨hjoins, t, u, w, rfl, rfl, hw, Option.some.inj ht, Option.some.inj hu,
        hchildren hjoins⟩

/-- A minus sign does: both programs are one statement. -/
example : Joins numberAssigned nameNegated ∧
    (Parser.program "h" (numberAssigned ++ nameNegated)).toOption.map (·.children.map Tree.kind) =
      some [.assignment] := by
  decide +kernel

end StackLang.Grammar
