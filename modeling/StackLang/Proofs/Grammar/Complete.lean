import StackLang.Proofs.Grammar.Exact
import StackLang.Proofs.Grammar.Sound

/-!
# What is derived is read

The grammar is ambiguous where one statement ends and the next one starts: a minus sign or a
parenthesis there continues an expression as well as it starts one. The parser always continues. So
it may take more than the word of a derivation, and what has to be shown is that the tokens left are
still derived: `Boundary` says this of a class of continuations, and the statements after a
statement are such a class.

The inductions are on the number of tokens, since what is left need not belong to the derivation
that the argument started with.
-/

namespace StackLang.Grammar

open Token (Kind)
open StackLang.Parser (lead lead_cons lead_nil)

/-! ## Continuations -/

/-- What may follow a term in an expression that ends before a continuation in `G`. -/
def TermEnd (G : List Token → Prop) (ts : List Token) : Prop :=
  ∃ (terms : Terms) (rest : List Token), G rest ∧ ts = terms.word ++ rest

/-- What may follow a factor in an expression that ends before a continuation in `G`. -/
def FactorEnd (G : List Token → Prop) (ts : List Token) : Prop :=
  ∃ (factors : Factors) (rest : List Token), TermEnd G rest ∧ ts = factors.word ++ rest

/-- A class of continuations that stays itself however far an expression before it is continued. -/
structure Boundary (G : List Token → Prop) : Prop where
  notMultiplicative : ∀ {t ts}, G (t :: ts) → t.kind.isMultiplicative = false
  notPlus : ∀ {t ts}, G (t :: ts) → t.kind ≠ .plus
  minus : ∀ {t ts}, G (t :: ts) → t.kind = .minus →
    ∃ (e : Expression) (rest : List Token), ts = e.word ++ rest ∧ G rest
  leftParen : ∀ {t ts}, G (t :: ts) → t.kind = .leftParen →
    ∃ (e : Expression) (close : Token) (rest : List Token), close.kind = .rightParen ∧
      ts = e.word ++ close :: rest ∧ FactorEnd G rest

/-- After a term the expression ends, or an operator and a further term follow. -/
theorem TermEnd.next {G : List Token → Prop} (hG : Boundary G) {t : Token} {ts : List Token}
    (h : TermEnd G (t :: ts)) :
    (t.kind.isAdditive = false ∧ G (t :: ts)) ∨
      (t.kind.isAdditive = true ∧
        ∃ (next : Term) (rest : List Token), ts = next.word ++ rest ∧ TermEnd G rest) := by
  obtain ⟨terms, rest, hrest, he⟩ := h
  cases terms with
  | nil =>
    have hts : t :: ts = rest := he
    rw [← hts] at hrest
    cases hop : t.kind.isAdditive with
    | false => exact .inl ⟨rfl, hrest⟩
    | true =>
      have hk : t.kind = .minus := by
        cases hk : t.kind <;> rw [hk] at hop <;> first | rfl | cases hop
        exact absurd hk (hG.notPlus hrest)
      obtain ⟨⟨first, others⟩, rest', hts', hrest'⟩ := hG.minus hrest hk
      refine .inr ⟨rfl, first, others.word ++ rest', ?_, ⟨others, rest', hrest', rfl⟩⟩
      rw [hts', Expression.word, List.append_assoc]
  | cons operator next others =>
    obtain ⟨rfl, rfl⟩ := List.cons.inj he
    exact .inr ⟨operator.2, next, others.word ++ rest, List.append_assoc .., others, rest, hrest,
      rfl⟩

/-- After a factor the term ends, or an operator and a further factor follow. -/
theorem FactorEnd.next {G : List Token → Prop} (hG : Boundary G) {t : Token} {ts : List Token}
    (h : FactorEnd G (t :: ts)) :
    (t.kind.isMultiplicative = false ∧ TermEnd G (t :: ts)) ∨
      (t.kind.isMultiplicative = true ∧
        ∃ (next : Factor) (rest : List Token), ts = next.word ++ rest ∧ FactorEnd G rest) := by
  obtain ⟨factors, rest, hrest, he⟩ := h
  cases factors with
  | nil =>
    have hts : t :: ts = rest := he
    rw [← hts] at hrest
    refine .inl ⟨?_, hrest⟩
    rcases hrest.next hG with ⟨-, hend⟩ | ⟨hop, -⟩
    · exact hG.notMultiplicative hend
    · cases hk : t.kind <;> rw [hk] at hop <;> first | rfl | cases hop
  | cons operator next others =>
    obtain ⟨rfl, rfl⟩ := List.cons.inj he
    exact .inr ⟨operator.2, next, others.word ++ rest, List.append_assoc .., others, rest, hrest,
      rfl⟩

/-- A parenthesis after a name continues the expression only if it starts a continuation. -/
theorem FactorEnd.leftParen {G : List Token → Prop} {t : Token} {ts : List Token}
    (h : FactorEnd G (t :: ts)) (hk : t.kind = .leftParen) : G (t :: ts) := by
  obtain ⟨factors, rest, ⟨terms, rest', hrest, rfl⟩, he⟩ := h
  cases factors with
  | nil =>
    cases terms with
    | nil =>
      have hts : t :: ts = rest' := he
      exact hts ▸ hrest
    | cons operator next others =>
      obtain ⟨rfl, -⟩ := List.cons.inj he
      have hop := operator.2
      rw [hk] at hop
      cases hop
  | cons operator next others =>
    obtain ⟨rfl, -⟩ := List.cons.inj he
    have hop := operator.2
    rw [hk] at hop
    cases hop

end StackLang.Grammar

namespace StackLang.Parser

open Token (Kind)
open Grammar

theorem factor_complete (stop : Token) {G : List Token → Prop} (hG : Boundary G)
    (f : Factor) {rest : List Token} (hrest : FactorEnd G rest) :
    ∃ v left, plain (factor stop (f.word ++ rest)) = .ok (v, left) ∧ FactorEnd G left := by
  cases f with
  | parenthesised open' inner close =>
    have hclose : isContinuation close.1.kind = false := by rw [close.2]; rfl
    refine ⟨inner.tree, rest, ?_, hrest⟩
    rw [Factor.word, List.cons_append, List.cons_append, List.append_assoc]
    exact factor_parenthesised stop open' close
      (expression_exact stop inner (ends_cons hclose rest))
  | negative sign operand =>
    obtain ⟨v, left, hv, hleft⟩ := factor_complete stop hG operand hrest
    refine ⟨negationNode sign.1 v, left, ?_, hleft⟩
    rw [Factor.word, List.cons_append, plain_factor_cons, if_pos sign.2, hv]
    rfl
  | number digits =>
    have hdigits : digits.1.kind ≠ .minus := by rw [digits.2]; decide
    refine ⟨numberNode digits.1, rest, ?_, hrest⟩
    rw [Factor.word, List.singleton_append, plain_factor_cons, if_neg hdigits,
      plain_primary_number stop digits.2]
  | name token =>
    have htoken : token.1.kind ≠ .minus := by rw [token.2]; decide
    rw [Factor.word, List.singleton_append, plain_factor_cons, if_neg htoken]
    by_cases hl : lead rest = some .leftParen
    · -- the parenthesis starts a statement, but the parser takes it for a call
      obtain ⟨l, ts₁, hl₁, hlp⟩ := lead_eq_some_iff.mp hl
      rw [hl₁] at hrest
      obtain ⟨e, close, left, hk, hts₁, hleft⟩ := hG.leftParen (hrest.leftParen hlp) hlp
      have hword : e.word = (Arguments.some e .nil).word := by
        rw [Arguments.word, MoreArguments.word, List.append_nil]
      refine ⟨callNode token.1 (Arguments.some e .nil).trees, left, ?_, hleft⟩
      rw [hl₁, hts₁, plain_primary_call stop token.2 hlp, hword,
        arguments_exact stop (.some e .nil) hk left]
      rfl
    · exact ⟨variableNode token.1, rest, plain_primary_variable stop token.2 hl, hrest⟩
  | call token open' arguments close =>
    have htoken : token.1.kind ≠ .minus := by rw [token.2]; decide
    have hword : (Factor.call token open' arguments close).word ++ rest =
        token.1 :: open'.1 :: (arguments.word ++ close.1 :: rest) := by simp [Factor.word]
    refine ⟨callNode token.1 arguments.trees, rest, ?_, hrest⟩
    rw [hword, plain_factor_cons, if_neg htoken, plain_primary_call stop token.2 open'.2,
      arguments_exact stop arguments close.2 rest]
    rfl

theorem productTail_complete (stop : Token) {G : List Token → Prop} (hG : Boundary G) (left : Tree)
    {ts : List Token} (hts : FactorEnd G ts) :
    ∃ v rest, plain (productTail stop left ts) = .ok (v, rest) ∧ TermEnd G rest := by
  match ts with
  | [] =>
    obtain ⟨factors, rest, hrest, he⟩ := hts
    obtain ⟨-, rfl⟩ := List.append_eq_nil_iff.mp he.symm
    exact ⟨left, [], plain_productTail_nil stop left, hrest⟩
  | t :: ts₀ =>
    rw [plain_productTail_cons]
    rcases hts.next hG with ⟨hop, hend⟩ | ⟨hop, next, rest, hts₀, hrest⟩
    · exact ⟨left, t :: ts₀, by rw [hop]; rfl, hend⟩
    · obtain ⟨v, us, hv, hus⟩ := factor_complete stop hG next hrest
      have hlt := length_lt_of_plain hv
      obtain ⟨product, last, hproduct, hlast⟩ :=
        productTail_complete stop hG (binaryNode .term t left v) hus
      refine ⟨product, last, ?_, hlast⟩
      rw [if_pos hop, hts₀, bind_eq_ok]
      exact ⟨(v, us), hv, hproduct⟩
termination_by ts.length
decreasing_by simp only [List.length_cons, hts₀]; omega

theorem term_complete (stop : Token) {G : List Token → Prop} (hG : Boundary G)
    (t : Term) {rest : List Token} (hrest : TermEnd G rest) :
    ∃ v left, plain (term stop (t.word ++ rest)) = .ok (v, left) ∧ TermEnd G left := by
  obtain ⟨first, others⟩ := t
  obtain ⟨v, ts, hv, hts⟩ := factor_complete stop hG first ⟨others, rest, hrest, rfl⟩
  obtain ⟨product, left, hproduct, hleft⟩ := productTail_complete stop hG v hts
  refine ⟨product, left, ?_, hleft⟩
  rw [Term.word, List.append_assoc, plain_term, bind_eq_ok]
  exact ⟨(v, ts), hv, hproduct⟩

theorem sumTail_complete (stop : Token) {G : List Token → Prop} (hG : Boundary G) (left : Tree)
    {ts : List Token} (hts : TermEnd G ts) :
    ∃ v rest, plain (sumTail stop left ts) = .ok (v, rest) ∧ G rest := by
  match ts with
  | [] =>
    obtain ⟨terms, rest, hrest, he⟩ := hts
    obtain ⟨-, rfl⟩ := List.append_eq_nil_iff.mp he.symm
    exact ⟨left, [], plain_sumTail_nil stop left, hrest⟩
  | t :: ts₀ =>
    rw [plain_sumTail_cons]
    rcases hts.next hG with ⟨hop, hend⟩ | ⟨hop, next, rest, hts₀, hrest⟩
    · exact ⟨left, t :: ts₀, by rw [hop]; rfl, hend⟩
    · obtain ⟨v, us, hv, hus⟩ := term_complete stop hG next hrest
      have hlt := length_lt_of_plain hv
      obtain ⟨sum, last, hsum, hlast⟩ :=
        sumTail_complete stop hG (binaryNode .expression t left v) hus
      refine ⟨sum, last, ?_, hlast⟩
      rw [if_pos hop, hts₀, bind_eq_ok]
      exact ⟨(v, us), hv, hsum⟩
termination_by ts.length
decreasing_by simp only [List.length_cons, hts₀]; omega

/-- Before a continuation an expression is read, and a continuation is left. -/
theorem expression_complete (stop : Token) {G : List Token → Prop} (hG : Boundary G)
    (e : Expression) {rest : List Token} (hrest : G rest) :
    ∃ v left, plain (expression stop (e.word ++ rest)) = .ok (v, left) ∧ G left := by
  obtain ⟨first, others⟩ := e
  obtain ⟨v, ts, hv, hts⟩ := term_complete stop hG first ⟨others, rest, hrest, rfl⟩
  obtain ⟨sum, left, hsum, hleft⟩ := sumTail_complete stop hG v hts
  refine ⟨sum, left, ?_, hleft⟩
  rw [Expression.word, List.append_assoc, plain_expression, bind_eq_ok]
  exact ⟨(v, ts), hv, hsum⟩

end StackLang.Parser

namespace StackLang.Grammar

open Token (Kind)
open StackLang.Parser (lead lead_cons)

/-! ## Statements as continuations -/

/-- Statements before the tokens `last`. -/
def StatementsBefore (last ts : List Token) : Prop :=
  ∃ statements : Statements, ts = statements.word ++ last

/-- The end of the input or the brace that closes a block. -/
def Closed (last : List Token) : Prop := last = [] ∨ lead last = some .rightBrace

/-- Statements that are closed start like a statement or with what closes them. -/
theorem StatementsBefore.start {last : List Token} (hl : Closed last) {t : Token} {ts : List Token}
    (h : StatementsBefore last (t :: ts)) :
    isStatementStart t.kind = true ∨ t.kind = .rightBrace := by
  obtain ⟨statements, he⟩ := h
  cases statements with
  | nil =>
    have hts : t :: ts = last := he
    rcases hl with rfl | hl
    · cases hts
    · rw [← hts, lead_cons] at hl
      exact .inr (Option.some.inj hl)
  | cons first others =>
    obtain ⟨u, w, hw, hu⟩ := first.word_eq_cons
    rw [Statements.word, hw, List.cons_append, List.cons_append] at he
    obtain ⟨rfl, -⟩ := List.cons.inj he
    exact .inl hu

theorem StatementsBefore.lead_ne {last : List Token} (hl : Closed last) {ts : List Token}
    (h : StatementsBefore last ts) {k : Kind} (hs : isStatementStart k = false)
    (hb : k ≠ .rightBrace) : lead ts ≠ some k := by
  rcases ts with _ | ⟨t, ts⟩
  · simp
  · rw [lead_cons]
    intro he
    have hk : t.kind = k := Option.some.inj he
    rcases h.start hl with hstart | hbrace
    · rw [hk, hs] at hstart
      cases hstart
    · exact hb (hk ▸ hbrace)

/-- An expression that starts with a minus sign is one without it. -/
theorem Expression.exists_of_minus {e : Expression} {t : Token} {w : List Token}
    (h : e.word = t :: w) (hk : t.kind = .minus) : ∃ e' : Expression, w = e'.word := by
  have hstart := Expression.start_of_word h
  obtain ⟨⟨first, factors⟩, terms⟩ := e
  rw [hk] at hstart
  cases first <;> cases hstart
  rename_i sign operand
  exact ⟨.mk (.mk operand factors) terms, (List.cons.inj h).2.symm⟩

/-- An expression that starts with a parenthesis goes on after the one that closes it like any
expression after a factor. -/
theorem Expression.exists_of_leftParen {e : Expression} {t : Token} {w : List Token}
    (h : e.word = t :: w) (hk : t.kind = .leftParen) :
    ∃ (inner : Expression) (close : Token) (factors : Factors) (terms : Terms),
      close.kind = .rightParen ∧ w = inner.word ++ close :: (factors.word ++ terms.word) := by
  have hstart := Expression.start_of_word h
  obtain ⟨⟨first, factors⟩, terms⟩ := e
  rw [hk] at hstart
  cases first <;> cases hstart
  rename_i left inner right
  refine ⟨inner, right.1, factors, terms, right.2, ?_⟩
  have hw := (List.cons.inj h).2
  simpa using hw.symm

/-- No sign of assignment follows the name that an expression starts with. -/
theorem Expression.lead_ne_assign {e : Expression} {t : Token} {w : List Token}
    (h : e.word = t :: w) (hk : t.kind = .identifier) {rest : List Token}
    (hrest : lead rest ≠ some .assign) : lead (w ++ rest) ≠ some .assign := by
  have hstart := Expression.start_of_word h
  obtain ⟨⟨first, factors⟩, terms⟩ := e
  rw [hk] at hstart
  cases first <;> cases hstart
  case name token =>
    obtain ⟨-, rfl⟩ := List.cons.inj h
    cases factors with
    | cons operator next others =>
      intro he
      have hop := operator.2
      rw [Option.some.inj he] at hop
      cases hop
    | nil =>
      cases terms with
      | cons operator next others =>
        intro he
        have hop := operator.2
        rw [Option.some.inj he] at hop
        cases hop
      | nil => exact hrest
  case call token left arguments right =>
    obtain ⟨-, rfl⟩ := List.cons.inj h
    intro he
    have hl : left.1.kind = .assign := Option.some.inj he
    rw [left.2] at hl
    cases hl

/-- A statement that starts with a minus sign or a parenthesis is an expression. -/
theorem Statement.eq_expression {s : Statement} {t : Token} {w : List Token} (h : s.word = t :: w)
    (hk : t.kind = .minus ∨ t.kind = .leftParen) : ∃ e, s = .expression e := by
  cases s with
  | expression value => exact ⟨value, rfl⟩
  | function word => rw [← (List.cons.inj h).1, word.2] at hk; simp at hk
  | declaration word => rw [← (List.cons.inj h).1, word.2] at hk; simp at hk
  | conditional word => rw [← (List.cons.inj h).1, word.2] at hk; simp at hk
  | loop word => rw [← (List.cons.inj h).1, word.2] at hk; simp at hk
  | giveBack word => rw [← (List.cons.inj h).1, word.2] at hk; simp at hk
  | assignment name => rw [← (List.cons.inj h).1, name.2] at hk; simp at hk

/-- Statements that start with a minus sign or a parenthesis start with an expression. -/
theorem StatementsBefore.exists_expression {last : List Token} (hl : Closed last) {t : Token}
    {ts : List Token} (h : StatementsBefore last (t :: ts))
    (hk : t.kind = .minus ∨ t.kind = .leftParen) :
    ∃ (e : Expression) (w rest : List Token), e.word = t :: w ∧ ts = w ++ rest ∧
      StatementsBefore last rest := by
  obtain ⟨statements, he⟩ := h
  cases statements with
  | nil =>
    have hts : t :: ts = last := he
    rcases hl with rfl | hl
    · cases hts
    · rw [← hts, lead_cons, Option.some.injEq] at hl
      rw [hl] at hk
      simp at hk
  | cons first others =>
    obtain ⟨u, w, hw, -⟩ := first.word_eq_cons
    rw [Statements.word, hw, List.cons_append, List.cons_append, List.append_assoc] at he
    obtain ⟨rfl, rfl⟩ := List.cons.inj he
    obtain ⟨e, rfl⟩ := Statement.eq_expression hw hk
    exact ⟨e, w, others.word ++ last, hw, rfl, others, rfl⟩

/-- Statements stay statements however far an expression before them is continued. -/
theorem boundary_statements {last : List Token} (hl : Closed last) :
    Boundary (StatementsBefore last) where
  notMultiplicative := by
    intro t ts h
    rcases h.start hl with hs | hs
    · cases hk : t.kind <;> rw [hk] at hs <;> first | rfl | cases hs
    · rw [hs]
      rfl
  notPlus := by
    intro t ts h hk
    exact h.lead_ne hl (k := .plus) rfl (by decide) (congrArg some hk)
  minus := by
    intro t ts h hk
    obtain ⟨e, w, rest, he, rfl, hrest⟩ := h.exists_expression hl (.inl hk)
    obtain ⟨e', rfl⟩ := Expression.exists_of_minus he hk
    exact ⟨e', rest, rfl, hrest⟩
  leftParen := by
    intro t ts h hk
    obtain ⟨e, w, rest, he, rfl, hrest⟩ := h.exists_expression hl (.inr hk)
    obtain ⟨inner, close, factors, terms, hclose, rfl⟩ := Expression.exists_of_leftParen he hk
    exact ⟨inner, close, factors.word ++ (terms.word ++ rest), hclose, by simp,
      factors, terms.word ++ rest, ⟨terms, rest, hrest, rfl⟩, rfl⟩

end StackLang.Grammar

namespace StackLang.Parser

open Token (Kind)
open Grammar

theorem declaration_complete (stop : Token) (location : Location) {last : List Token}
    (hl : Closed last) (name : Of .identifier) (colon : Of .colon) (type : OneOf Kind.isType)
    (value : Option (Of .assign × Expression)) {rest : List Token}
    (hrest : StatementsBefore last rest) :
    ∃ v left, plain (declaration stop location
      (name.1 :: colon.1 :: type.1 :: (valueWord value ++ rest))) = .ok (v, left) ∧
      StatementsBefore last left := by
  have hhead (ts : List Token) (a : Tree × List Token)
      (h : (if lead ts = some .assign then
        (plain (expression stop ts.tail)).bind fun p =>
          .ok (declarationNode location name.1.lexeme type.1.lexeme (some p.1), p.2)
        else .ok (declarationNode location name.1.lexeme type.1.lexeme none, ts)) = .ok a) :
      plain (declaration stop location (name.1 :: colon.1 :: type.1 :: ts)) = .ok a := by
    rw [plain_declaration, bind_eq_ok]
    refine ⟨_, plain_expect_eq_ok.mpr ⟨rfl, name.2⟩, bind_eq_ok.mpr
      ⟨_, plain_expectToken_eq_ok.mpr ⟨rfl, colon.2⟩, bind_eq_ok.mpr ?_⟩⟩
    exact ⟨_, plain_expectWhere_eq_ok.mpr ⟨rfl, type.2⟩, h⟩
  rcases value with _ | ⟨sign, e⟩
  · have hassign := hrest.lead_ne hl (k := .assign) rfl (by decide)
    exact ⟨_, rest, hhead rest _ (if_neg hassign), hrest⟩
  · obtain ⟨v, left, hv, hleft⟩ := expression_complete stop (boundary_statements hl) e hrest
    refine ⟨declarationNode location name.1.lexeme type.1.lexeme (some v), left, ?_, hleft⟩
    apply hhead
    have hassign : lead (valueWord (some (sign, e)) ++ rest) = some .assign := congrArg some sign.2
    rw [if_pos hassign, bind_eq_ok]
    exact ⟨(v, left), hv, rfl⟩

mutual

/-- Before statements that are closed a statement is read, and such statements are left. -/
theorem statement_complete (stop : Token) {last : List Token} (hl : Closed last) (s : Statement)
    {rest : List Token} (hrest : StatementsBefore last rest) :
    ∃ v left, plain (statement stop (s.word ++ rest)) = .ok (v, left) ∧
      StatementsBefore last left := by
  cases s with
  | function word name left parameters right arrow type body =>
    have hhead := functionHead_exact stop name left parameters right arrow type (body.word ++ rest)
    have hlt := length_lt_of_plain hhead
    have hword : (Statement.function word name left parameters right arrow type body).word ++ rest =
        word.1 :: name.1 :: left.1 ::
          (parameters.word ++ right.1 :: arrow.1 :: type.1 :: (body.word ++ rest)) := by
      simp [Statement.word]
    obtain ⟨b, hb⟩ := block_complete stop body rest
    refine ⟨functionNode word.1.location name.1.lexeme
      (parametersNode (parameters.start right.1) parameters.trees) type.1.lexeme b, rest, ?_,
      hrest⟩
    rw [hword, plain_statement_fn stop word.2, bind_eq_ok]
    exact ⟨_, hhead, bind_eq_ok.mpr ⟨_, hb, rfl⟩⟩
  | declaration word name colon type value =>
    rw [Statement.word, List.cons_append, plain_statement_var stop word.2]
    exact declaration_complete stop word.1.location hl name colon type value hrest
  | conditional word test body others =>
    have ht := parenthesised_exact stop test (body.word ++ (others.word ++ rest))
    have hlt₁ := length_lt_of_plain ht
    obtain ⟨b, hb⟩ := block_complete stop body (others.word ++ rest)
    have hlt₂ := length_lt_of_plain hb
    have hi := hrest.lead_ne hl (k := .keywordElseif) rfl (by decide)
    have he := hrest.lead_ne hl (k := .keywordElse) rfl (by decide)
    obtain ⟨bs, hbs⟩ := branches_complete stop others hi he
    refine ⟨plainNode .conditional word.1.location (test.condition.tree :: b :: bs), rest, ?_,
      hrest⟩
    rw [Statement.word, List.cons_append, List.append_assoc, List.append_assoc,
      plain_statement_if stop word.2, bind_eq_ok]
    exact ⟨_, ht, bind_eq_ok.mpr ⟨_, hb, bind_eq_ok.mpr ⟨_, hbs, rfl⟩⟩⟩
  | loop word test body =>
    have ht := parenthesised_exact stop test (body.word ++ rest)
    have hlt := length_lt_of_plain ht
    obtain ⟨b, hb⟩ := block_complete stop body rest
    refine ⟨plainNode .loop word.1.location [test.condition.tree, b], rest, ?_, hrest⟩
    rw [Statement.word, List.cons_append, List.append_assoc, plain_statement_while stop word.2,
      bind_eq_ok]
    exact ⟨_, ht, bind_eq_ok.mpr ⟨_, hb, rfl⟩⟩
  | giveBack word value =>
    obtain ⟨v, left, hv, hleft⟩ := expression_complete stop (boundary_statements hl) value hrest
    refine ⟨plainNode .giveBack word.1.location [v], left, ?_, hleft⟩
    rw [Statement.word, List.cons_append, plain_statement_return stop word.2, bind_eq_ok]
    exact ⟨_, hv, rfl⟩
  | assignment name sign value =>
    obtain ⟨v, left, hv, hleft⟩ := expression_complete stop (boundary_statements hl) value hrest
    refine ⟨assignmentNode name.1.location name.1.lexeme v, left, ?_, hleft⟩
    rw [Statement.word, List.cons_append, List.cons_append,
      plain_statement_assignment stop name.2 sign.2, bind_eq_ok]
    exact ⟨_, hv, rfl⟩
  | expression value =>
    obtain ⟨v, left, hv, hleft⟩ := expression_complete stop (boundary_statements hl) value hrest
    refine ⟨v, left, ?_, hleft⟩
    obtain ⟨t, w, hw, ht⟩ := value.word_eq_cons
    have hstart : isStatementWord t.kind = false := by
      cases hk : t.kind <;> rw [hk] at ht <;> first | rfl | cases ht
    have hassign : ¬(t.kind = .identifier ∧ lead (w ++ rest) = some .assign) := by
      rintro ⟨hk, ha⟩
      exact Expression.lead_ne_assign hw hk (hrest.lead_ne hl rfl (by decide)) ha
    rw [Statement.word, hw, List.cons_append, plain_statement_expression stop hstart hassign,
      ← List.cons_append, ← hw]
    exact hv
termination_by 3 * (s.word ++ rest).length + 1
decreasing_by
  · rw [hword, List.length_cons]; omega
  · simp only [Statement.word, List.cons_append, List.append_assoc, List.length_cons]; omega
  · simp only [Statement.word, List.cons_append, List.append_assoc, List.length_cons]; omega
  · simp only [Statement.word, List.cons_append, List.append_assoc, List.length_cons]; omega

/-- A block is read up to the brace that closes it. -/
theorem block_complete (stop : Token) (b : Block) (rest : List Token) :
    ∃ v, plain (block stop (b.word ++ rest)) = .ok (v, rest) := by
  obtain ⟨left, statements, right⟩ := b
  have hword : (Block.mk left statements right).word ++ rest =
      left.1 :: (statements.word ++ right.1 :: rest) := by simp [Block.word]
  obtain ⟨vs, hvs⟩ := blockTail_complete stop statements right.2 rest
  refine ⟨plainNode .block left.1.location vs, ?_⟩
  rw [hword, plain_block, bind_eq_ok]
  exact ⟨_, plain_expectToken_eq_ok.mpr ⟨rfl, left.2⟩, bind_eq_ok.mpr ⟨_, hvs, rfl⟩⟩
termination_by 3 * (b.word ++ rest).length
decreasing_by simp only [hword, List.length_cons]; omega

/-- The statements of a block are read up to the brace that closes it. -/
theorem blockTail_complete (stop : Token) (d : Statements) {close : Token}
    (hk : close.kind = .rightBrace) (rest : List Token) :
    ∃ v, plain (blockTail stop (d.word ++ close :: rest)) = .ok (v, rest) := by
  cases d with
  | nil => exact ⟨[], plain_blockTail_close stop hk rest⟩
  | cons first others =>
    obtain ⟨t, w, hw, ht⟩ := first.word_eq_cons
    have hne : t.kind ≠ .rightBrace := by
      intro he
      rw [he] at ht
      cases ht
    have hclosed : Closed (close :: rest) := .inr (congrArg some hk)
    obtain ⟨v, _, hv, ⟨left, rfl⟩⟩ := statement_complete stop hclosed first ⟨others, rfl⟩
    have hlt := length_lt_of_plain hv
    -- what is left may be other statements than those of the derivation
    obtain ⟨vs, hvs⟩ := blockTail_complete stop left hk rest
    refine ⟨v :: vs, ?_⟩
    rw [hw, List.cons_append] at hv
    rw [Statements.word, hw, List.append_assoc, List.cons_append, plain_blockTail stop hne,
      bind_eq_ok]
    exact ⟨_, hv, bind_eq_ok.mpr ⟨_, hvs, rfl⟩⟩
termination_by 3 * (d.word ++ close :: rest).length + 2
decreasing_by all_goals simp only [Statements.word, List.append_assoc]; omega

/-- Further branches are read up to what cannot be one. -/
theorem branches_complete (stop : Token) (d : Branches) {rest : List Token}
    (hi : lead rest ≠ some .keywordElseif) (he : lead rest ≠ some .keywordElse) :
    ∃ v, plain (branches stop (d.word ++ rest)) = .ok (v, rest) := by
  cases d with
  | nil => exact ⟨[], plain_branches stop hi he⟩
  | elseIf word test body others =>
    have ht := parenthesised_exact stop test (body.word ++ (others.word ++ rest))
    have hlt₁ := length_lt_of_plain ht
    obtain ⟨b, hb⟩ := block_complete stop body (others.word ++ rest)
    have hlt₂ := length_lt_of_plain hb
    obtain ⟨bs, hbs⟩ := branches_complete stop others hi he
    refine ⟨plainNode .elseIf word.1.location [test.condition.tree, b] :: bs, ?_⟩
    rw [Branches.word, List.cons_append, List.append_assoc, List.append_assoc,
      plain_branches_elseif stop word.2, bind_eq_ok]
    exact ⟨_, ht, bind_eq_ok.mpr ⟨_, hb, bind_eq_ok.mpr ⟨_, hbs, rfl⟩⟩⟩
  | otherwise word body =>
    obtain ⟨b, hb⟩ := block_complete stop body rest
    refine ⟨[plainNode .otherwise word.1.location [b]], ?_⟩
    rw [Branches.word, List.cons_append, plain_branches_else stop word.2, bind_eq_ok]
    exact ⟨_, hb, rfl⟩
termination_by 3 * (d.word ++ rest).length
decreasing_by
  · simp only [Branches.word, List.cons_append, List.append_assoc, List.length_cons]; omega
  · simp only [Branches.word, List.cons_append, List.append_assoc, List.length_cons]; omega
  · simp only [Branches.word, List.cons_append, List.length_cons]; omega

end

/-- The word of every derivation is read up to its end. -/
theorem statements_complete (stop : Token) (d : Statements) :
    ∃ v, statements stop d.word = .ok v := by
  cases d with
  | nil => exact ⟨[], statements_nil stop⟩
  | cons first others =>
    obtain ⟨t, w, hw, -⟩ := first.word_eq_cons
    obtain ⟨v, _, hv, ⟨left, rfl⟩⟩ :=
      statement_complete stop (.inl rfl) first ⟨others, (List.append_nil _).symm⟩
    have hlt := length_lt_of_plain hv
    obtain ⟨vs, hvs⟩ := statements_complete stop left
    refine ⟨v :: vs, ?_⟩
    rw [hw, List.cons_append, List.append_nil] at hv
    rw [Statements.word, hw, List.cons_append, statements_cons, bind_eq_ok]
    exact ⟨_, hv, bind_eq_ok.mpr ⟨_, hvs, rfl⟩⟩
termination_by d.word.length
decreasing_by simpa only [Statements.word, List.append_nil] using hlt

end StackLang.Parser
