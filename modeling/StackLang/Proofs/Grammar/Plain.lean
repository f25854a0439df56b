import StackLang.Proofs.Grammar

/-!
# Equations of the parser

What each function of the parser comes to in terms of the others, with the count of tokens left
forgotten. Both directions of the theorem on the grammar are proved from these equations, and no
function of the parser is unfolded after this module.
-/

namespace StackLang.Parser

open Token (Kind)
open Grammar

/-- The value read and the tokens left. -/
def Parsed.plain {n : Nat} {α : Type} (p : Parsed n α) : α × List Token := (p.value, p.rest)

/-- An attempt without the proof that fewer tokens are left. -/
def plain {n : Nat} {α : Type} (a : Attempt (Parsed n α)) : Attempt (α × List Token) :=
  a.map Parsed.plain

/-- The kind of the first token, if there is one. -/
def lead (ts : List Token) : Option Kind := ts.head?.map Token.kind

@[simp] theorem lead_nil : lead [] = none := rfl

@[simp] theorem lead_cons (t : Token) (ts : List Token) : lead (t :: ts) = some t.kind := rfl

theorem lead_eq_some_iff {ts : List Token} {k : Kind} :
    lead ts = some k ↔ ∃ t rest, ts = t :: rest ∧ t.kind = k := by
  cases ts <;> simp

/-- What is left is shorter. -/
theorem length_lt_of_plain {n : Nat} {α : Type} {a : Attempt (Parsed n α)} {v : α}
    {rest : List Token} (h : plain a = .ok (v, rest)) : rest.length < n := by
  rcases a with r | p
  · simp [plain, Except.map] at h
  · simp only [plain, Except.map, Parsed.plain, Except.ok.injEq, Prod.mk.injEq] at h
    exact h.2 ▸ p.fewer

/-- A part of a chain of attempts succeeds if the chain does. -/
theorem bind_eq_ok {α β : Type} {a : Attempt α} {f : α → Attempt β} {b : β} :
    a.bind f = .ok b ↔ ∃ x, a = .ok x ∧ f x = .ok b := by
  cases a <;> simp [Except.bind]

section Steps

variable {n m k : Nat} {α β γ : Type}

/-- One attempt, then another one of which nothing is dropped. -/
private theorem plain_step (a : Attempt (Parsed n α)) (f : Parsed n α → Attempt (Parsed m β))
    (g : α × List Token → Attempt (β × List Token))
    (h : ∀ p, plain (f p) = g p.plain) : plain (a >>= f) = (plain a).bind g := by
  rcases a with r | p
  · rfl
  · exact h p

/-- An attempt of which the result is only counted anew. -/
private theorem plain_recount (a : Attempt (Parsed n α)) (h : ∀ p : Parsed n α, p.rest.length < m) :
    plain (a >>= fun p => (pure ⟨p.value, p.rest, h p⟩ : Attempt (Parsed m α))) = plain a := by
  rcases a with r | p <;> rfl

end Steps

theorem plain_expectWhere (stop : Token) (p : Kind → Bool) (expected : Expectation)
    (ts : List Token) :
    plain (expectWhere stop p expected ts) =
      match ts with
      | [] => .error ⟨expected, stop⟩
      | t :: rest => if p t.kind then .ok (t, rest) else .error ⟨expected, t⟩ := by
  rcases ts with _ | ⟨t, rest⟩
  · rfl
  · simp only [expectWhere]
    split <;> rfl

/-- What a token that is taken is. -/
theorem plain_expectWhere_eq_ok {stop t : Token} {p : Kind → Bool} {expected : Expectation}
    {ts rest : List Token} :
    plain (expectWhere stop p expected ts) = .ok (t, rest) ↔
      ts = t :: rest ∧ p t.kind = true := by
  rw [plain_expectWhere]
  rcases ts with _ | ⟨u, us⟩
  · simp
  · by_cases hp : p u.kind = true
    · simp only [hp, if_true, Except.ok.injEq, Prod.mk.injEq, List.cons.injEq]
      constructor
      · rintro ⟨rfl, rfl⟩
        exact ⟨⟨rfl, rfl⟩, hp⟩
      · rintro ⟨⟨rfl, rfl⟩, -⟩
        exact ⟨rfl, rfl⟩
    · simp only [hp, Bool.false_eq_true, if_false, reduceCtorEq, List.cons.injEq, false_iff]
      rintro ⟨⟨rfl, rfl⟩, h⟩
      exact hp h

theorem plain_expect_eq_ok {stop t : Token} {kind : Kind} {expected : Expectation}
    {ts rest : List Token} :
    plain (expect stop kind expected ts) = .ok (t, rest) ↔ ts = t :: rest ∧ t.kind = kind := by
  rw [expect, plain_expectWhere_eq_ok, decide_eq_true_eq]

theorem plain_expectToken_eq_ok {stop t : Token} {kind : Kind} {ts rest : List Token} :
    plain (expectToken stop kind ts) = .ok (t, rest) ↔ ts = t :: rest ∧ t.kind = kind :=
  plain_expect_eq_ok

/-! ## Expressions -/

theorem plain_expression (stop : Token) (ts : List Token) :
    plain (expression stop ts) =
      (plain (term stop ts)).bind fun (left, ts₁) => plain (sumTail stop left ts₁) := by
  rw [expression]
  exact plain_step _ _ _ fun p => plain_recount _ _

theorem plain_sumTail_nil (stop : Token) (left : Tree) :
    plain (sumTail stop left []) = .ok (left, []) := by
  rw [sumTail]
  rfl

theorem plain_sumTail_cons (stop : Token) (left : Tree) (operator : Token) (ts : List Token) :
    plain (sumTail stop left (operator :: ts)) =
      if operator.kind.isAdditive then
        (plain (term stop ts)).bind fun (right, ts₁) =>
          plain (sumTail stop (binaryNode .expression operator left right) ts₁)
      else .ok (left, operator :: ts) := by
  rw [sumTail]
  split
  · exact plain_step _ _ _ fun p => plain_recount _ _
  · rfl

theorem plain_term (stop : Token) (ts : List Token) :
    plain (term stop ts) =
      (plain (factor stop ts)).bind fun (left, ts₁) => plain (productTail stop left ts₁) := by
  rw [term]
  exact plain_step _ _ _ fun p => plain_recount _ _

theorem plain_productTail_nil (stop : Token) (left : Tree) :
    plain (productTail stop left []) = .ok (left, []) := by
  rw [productTail]
  rfl

theorem plain_productTail_cons (stop : Token) (left : Tree) (operator : Token) (ts : List Token) :
    plain (productTail stop left (operator :: ts)) =
      if operator.kind.isMultiplicative then
        (plain (factor stop ts)).bind fun (right, ts₁) =>
          plain (productTail stop (binaryNode .term operator left right) ts₁)
      else .ok (left, operator :: ts) := by
  rw [productTail]
  split
  · exact plain_step _ _ _ fun p => plain_recount _ _
  · rfl

theorem plain_factor_nil (stop : Token) :
    plain (factor stop []) = .error ⟨.expression, stop⟩ := by
  rw [factor]
  rfl

theorem plain_factor_cons (stop t : Token) (ts : List Token) :
    plain (factor stop (t :: ts)) =
      if t.kind = .minus then
        (plain (factor stop ts)).bind fun (operand, ts₁) => .ok (negationNode t operand, ts₁)
      else plain (primary stop (t :: ts)) := by
  rw [factor]
  split
  · exact plain_step _ _ _ fun p => rfl
  · rfl

theorem plain_primary_leftParen (stop : Token) {t : Token} (h : t.kind = .leftParen)
    (ts : List Token) :
    plain (primary stop (t :: ts)) =
      (plain (expression stop ts)).bind fun (inner, ts₁) =>
        (plain (expectToken stop .rightParen ts₁)).bind fun (_, ts₂) => .ok (inner, ts₂) := by
  rw [primary.eq_def]
  simp only [h]
  exact plain_step _ _ _ fun p => plain_step _ _ _ fun q => rfl

theorem plain_primary_number (stop : Token) {t : Token} (h : t.kind = .number) (ts : List Token) :
    plain (primary stop (t :: ts)) = .ok (numberNode t, ts) := by
  rw [primary.eq_def]
  simp only [h]
  rfl

theorem plain_primary_call (stop : Token) {t l : Token} (h : t.kind = .identifier)
    (hl : l.kind = .leftParen) (ts : List Token) :
    plain (primary stop (t :: l :: ts)) =
      (plain (arguments stop ts)).bind fun (children, ts₁) => .ok (callNode t children, ts₁) := by
  obtain ⟨kind, lexeme, location⟩ := l
  cases hl
  rw [primary.eq_def]
  simp only [h]
  exact plain_step _ _ _ fun p => rfl

theorem plain_primary_variable (stop : Token) {t : Token} (h : t.kind = .identifier)
    {ts : List Token} (hl : lead ts ≠ some .leftParen) :
    plain (primary stop (t :: ts)) = .ok (variableNode t, ts) := by
  rw [primary.eq_def]
  simp only [h]
  rcases ts with _ | ⟨⟨kind, lexeme, location⟩, ts⟩
  · rfl
  · have hk : kind ≠ .leftParen := fun he => hl (congrArg some he)
    cases kind <;> first | rfl | exact absurd rfl hk

theorem plain_primary_other (stop : Token) {t : Token} (hp : t.kind ≠ .leftParen)
    (hn : t.kind ≠ .number) (hi : t.kind ≠ .identifier) (ts : List Token) :
    plain (primary stop (t :: ts)) = .error ⟨.expression, t⟩ := by
  rw [primary.eq_def]
  simp only
  rfl

theorem plain_arguments_close (stop : Token) {t : Token} (h : t.kind = .rightParen)
    (ts : List Token) : plain (arguments stop (t :: ts)) = .ok ([], ts) := by
  obtain ⟨kind, lexeme, location⟩ := t
  cases h
  rw [arguments]
  rfl

theorem plain_arguments (stop : Token) {ts : List Token} (h : lead ts ≠ some .rightParen) :
    plain (arguments stop ts) =
      (plain (expression stop ts)).bind fun (first, ts₁) =>
        (plain (moreArguments stop ts₁)).bind fun (others, ts₂) => .ok (first :: others, ts₂) := by
  rw [arguments]
  · exact plain_step _ _ _ fun p => plain_step _ _ _ fun q => rfl
  · rintro lexeme location us rfl
    exact h rfl

theorem plain_moreArguments_comma (stop : Token) {t : Token} (h : t.kind = .comma)
    (ts : List Token) :
    plain (moreArguments stop (t :: ts)) =
      (plain (expression stop ts)).bind fun (first, ts₁) =>
        (plain (moreArguments stop ts₁)).bind fun (others, ts₂) => .ok (first :: others, ts₂) := by
  obtain ⟨kind, lexeme, location⟩ := t
  cases h
  rw [moreArguments]
  exact plain_step _ _ _ fun p => plain_step _ _ _ fun q => rfl

theorem plain_moreArguments (stop : Token) {ts : List Token} (h : lead ts ≠ some .comma) :
    plain (moreArguments stop ts) =
      (plain (expectToken stop .rightParen ts)).bind fun (_, ts₁) => .ok ([], ts₁) := by
  rw [moreArguments]
  · exact plain_step _ _ _ fun p => rfl
  · rintro lexeme location us rfl
    exact h rfl

theorem plain_condition (stop : Token) (ts : List Token) :
    plain (condition stop ts) =
      (plain (expression stop ts)).bind fun (left, ts₁) =>
        (plain (expectWhere stop Kind.isComparison .comparison ts₁)).bind fun (operator, ts₂) =>
          (plain (expression stop ts₂)).bind fun (right, ts₃) =>
            .ok (binaryNode .condition operator left right, ts₃) := by
  rw [condition]
  exact plain_step _ _ _ fun p => plain_step _ _ _ fun q => plain_step _ _ _ fun r => rfl

theorem plain_parenthesised (stop : Token) (ts : List Token) :
    plain (parenthesised stop ts) =
      (plain (expectToken stop .leftParen ts)).bind fun (_, ts₁) =>
        (plain (condition stop ts₁)).bind fun (inner, ts₂) =>
          (plain (expectToken stop .rightParen ts₂)).bind fun (_, ts₃) => .ok (inner, ts₃) := by
  rw [parenthesised]
  exact plain_step _ _ _ fun p => plain_step _ _ _ fun q => plain_step _ _ _ fun r => rfl

/-! ## Statements -/

theorem plain_parameter (stop : Token) (ts : List Token) :
    plain (parameter stop ts) =
      (plain (expect stop .identifier .parameterName ts)).bind fun (name, ts₁) =>
        (plain (expectToken stop .colon ts₁)).bind fun (_, ts₂) =>
          (plain (expectWhere stop Kind.isType .parameterType ts₂)).bind fun (type, ts₃) =>
            .ok (parameterNode name type, ts₃) := by
  rw [parameter]
  exact plain_step _ _ _ fun p => plain_step _ _ _ fun q => plain_step _ _ _ fun r => rfl

theorem plain_moreParameters_comma (stop : Token) {t : Token} (h : t.kind = .comma)
    (ts : List Token) :
    plain (moreParameters stop (t :: ts)) =
      (plain (parameter stop ts)).bind fun (first, ts₁) =>
        (plain (moreParameters stop ts₁)).bind fun (others, ts₂) => .ok (first :: others, ts₂) := by
  obtain ⟨kind, lexeme, location⟩ := t
  cases h
  rw [moreParameters]
  exact plain_step _ _ _ fun p => plain_step _ _ _ fun q => rfl

theorem plain_moreParameters (stop : Token) {ts : List Token} (h : lead ts ≠ some .comma) :
    plain (moreParameters stop ts) = .ok ([], ts) := by
  rw [moreParameters]
  · rfl
  · rintro lexeme location us rfl
    exact h rfl

theorem plain_parameters (stop : Token) (ts : List Token) :
    plain (parameters stop ts) =
      if (peek stop ts).kind = .rightParen then .ok ([], ts)
      else
        (plain (parameter stop ts)).bind fun (first, ts₁) =>
          (plain (moreParameters stop ts₁)).bind fun (others, ts₂) =>
            .ok (first :: others, ts₂) := by
  rw [parameters]
  split
  · rfl
  · exact plain_step _ _ _ fun p => plain_step _ _ _ fun q => rfl

theorem plain_functionHead (stop : Token) (ts : List Token) :
    plain (functionHead stop ts) =
      (plain (expect stop .identifier .functionName ts)).bind fun (name, ts₁) =>
        (plain (expectToken stop .leftParen ts₁)).bind fun (_, ts₂) =>
          (plain (parameters stop ts₂)).bind fun (children, ts₃) =>
            (plain (expectToken stop .rightParen ts₃)).bind fun (_, ts₄) =>
              (plain (expectToken stop .arrow ts₄)).bind fun (_, ts₅) =>
                (plain (expectWhere stop Kind.isType .returnType ts₅)).bind fun (type, ts₆) =>
                  .ok ((name.lexeme, parametersNode (peek stop ts₂).location children,
                    type.lexeme), ts₆) := by
  rw [functionHead]
  exact plain_step _ _ _ fun p => plain_step _ _ _ fun q => plain_step _ _ _ fun r =>
    plain_step _ _ _ fun s => plain_step _ _ _ fun u => plain_step _ _ _ fun v => rfl

theorem plain_declaration (stop : Token) (location : Location) (ts : List Token) :
    plain (declaration stop location ts) =
      (plain (expect stop .identifier .variableName ts)).bind fun (name, ts₁) =>
        (plain (expectToken stop .colon ts₁)).bind fun (_, ts₂) =>
          (plain (expectWhere stop Kind.isType .variableType ts₂)).bind fun (type, ts₃) =>
            if lead ts₃ = some .assign then
              (plain (expression stop ts₃.tail)).bind fun (value, ts₄) =>
                .ok (declarationNode location name.lexeme type.lexeme (some value), ts₄)
            else .ok (declarationNode location name.lexeme type.lexeme none, ts₃) := by
  rw [declaration]
  refine plain_step _ _ _ fun p => plain_step _ _ _ fun q => plain_step _ _ _ fun r => ?_
  obtain ⟨type, ts₃, h₃⟩ := r
  rcases ts₃ with _ | ⟨⟨kind, lexeme, location⟩, ts₃⟩
  · rfl
  · by_cases hk : kind = .assign
    · subst hk
      exact plain_step _ _ _ fun p => rfl
    · have hl : lead (⟨kind, lexeme, location⟩ :: ts₃) ≠ some .assign :=
        fun he => hk (Option.some.inj he)
      simp only [Parsed.plain, hl, if_false]
      cases kind <;> first | rfl | exact absurd rfl hk

theorem plain_statement_fn (stop : Token) {t : Token} (h : t.kind = .keywordFn) (ts : List Token) :
    plain (statement stop (t :: ts)) =
      (plain (functionHead stop ts)).bind fun (head, ts₁) =>
        (plain (block stop ts₁)).bind fun (body, ts₂) =>
          .ok (functionNode t.location head.1 head.2.1 head.2.2 body, ts₂) := by
  obtain ⟨kind, lexeme, location⟩ := t
  cases h
  rw [statement]
  exact plain_step _ _ _ fun p => plain_step _ _ _ fun q => rfl

theorem plain_statement_var (stop : Token) {t : Token} (h : t.kind = .keywordVar)
    (ts : List Token) :
    plain (statement stop (t :: ts)) = plain (declaration stop t.location ts) := by
  obtain ⟨kind, lexeme, location⟩ := t
  cases h
  rw [statement]
  exact plain_recount _ _

theorem plain_statement_if (stop : Token) {t : Token} (h : t.kind = .keywordIf) (ts : List Token) :
    plain (statement stop (t :: ts)) =
      (plain (parenthesised stop ts)).bind fun (test, ts₁) =>
        (plain (block stop ts₁)).bind fun (body, ts₂) =>
          (plain (branches stop ts₂)).bind fun (others, ts₃) =>
            .ok (plainNode .conditional t.location (test :: body :: others), ts₃) := by
  obtain ⟨kind, lexeme, location⟩ := t
  cases h
  rw [statement]
  exact plain_step _ _ _ fun p => plain_step _ _ _ fun q => plain_step _ _ _ fun r => rfl

theorem plain_statement_while (stop : Token) {t : Token} (h : t.kind = .keywordWhile)
    (ts : List Token) :
    plain (statement stop (t :: ts)) =
      (plain (parenthesised stop ts)).bind fun (test, ts₁) =>
        (plain (block stop ts₁)).bind fun (body, ts₂) =>
          .ok (plainNode .loop t.location [test, body], ts₂) := by
  obtain ⟨kind, lexeme, location⟩ := t
  cases h
  rw [statement]
  exact plain_step _ _ _ fun p => plain_step _ _ _ fun q => rfl

theorem plain_statement_return (stop : Token) {t : Token} (h : t.kind = .keywordReturn)
    (ts : List Token) :
    plain (statement stop (t :: ts)) =
      (plain (expression stop ts)).bind fun (value, ts₁) =>
        .ok (plainNode .giveBack t.location [value], ts₁) := by
  obtain ⟨kind, lexeme, location⟩ := t
  cases h
  rw [statement]
  exact plain_step _ _ _ fun p => rfl

theorem plain_statement_assignment (stop : Token) {t u : Token} (h : t.kind = .identifier)
    (hu : u.kind = .assign) (ts : List Token) :
    plain (statement stop (t :: u :: ts)) =
      (plain (expression stop ts)).bind fun (value, ts₁) =>
        .ok (assignmentNode t.location t.lexeme value, ts₁) := by
  obtain ⟨kind, lexeme, location⟩ := t
  obtain ⟨kind', lexeme', location'⟩ := u
  cases h
  cases hu
  rw [statement]
  exact plain_step _ _ _ fun p => rfl

/-- The words that start a statement. -/
def isStatementWord : Kind → Bool
  | .keywordFn | .keywordVar | .keywordIf | .keywordWhile | .keywordReturn => true
  | _ => false

theorem plain_statement_expression (stop : Token) {t : Token} {ts : List Token}
    (h : isStatementWord t.kind = false)
    (ha : ¬(t.kind = .identifier ∧ lead ts = some .assign)) :
    plain (statement stop (t :: ts)) = plain (expression stop (t :: ts)) := by
  rw [statement]
  case x_5 =>
    intro name location lexeme location' us he
    obtain ⟨rfl, rfl⟩ := List.cons.inj he
    exact ha ⟨rfl, rfl⟩
  all_goals
    intro lexeme location us he
    obtain ⟨rfl, rfl⟩ := List.cons.inj he
    cases h

theorem plain_statement_nil (stop : Token) :
    plain (statement stop []) = plain (expression stop []) := by
  rw [statement.eq_def]

theorem plain_block (stop : Token) (ts : List Token) :
    plain (block stop ts) =
      (plain (expectToken stop .leftBrace ts)).bind fun (brace, ts₁) =>
        (plain (blockTail stop ts₁)).bind fun (children, ts₂) =>
          .ok (plainNode .block brace.location children, ts₂) := by
  rw [block]
  exact plain_step _ _ _ fun p => plain_step _ _ _ fun q => rfl

theorem plain_blockTail_nil (stop : Token) :
    plain (blockTail stop []) = .error ⟨.token .rightBrace, stop⟩ := by
  rw [blockTail]
  rfl

theorem plain_blockTail_close (stop : Token) {t : Token} (h : t.kind = .rightBrace)
    (ts : List Token) : plain (blockTail stop (t :: ts)) = .ok ([], ts) := by
  obtain ⟨kind, lexeme, location⟩ := t
  cases h
  rw [blockTail]
  rfl

theorem plain_blockTail (stop : Token) {t : Token} (h : t.kind ≠ .rightBrace) (ts : List Token) :
    plain (blockTail stop (t :: ts)) =
      (plain (statement stop (t :: ts))).bind fun (first, ts₁) =>
        (plain (blockTail stop ts₁)).bind fun (others, ts₂) => .ok (first :: others, ts₂) := by
  rw [blockTail]
  · exact plain_step _ _ _ fun p => plain_step _ _ _ fun q => rfl
  · simp
  · rintro lexeme location us he
    obtain ⟨rfl, rfl⟩ := List.cons.inj he
    exact h rfl

theorem plain_branches_elseif (stop : Token) {t : Token} (h : t.kind = .keywordElseif)
    (ts : List Token) :
    plain (branches stop (t :: ts)) =
      (plain (parenthesised stop ts)).bind fun (test, ts₁) =>
        (plain (block stop ts₁)).bind fun (body, ts₂) =>
          (plain (branches stop ts₂)).bind fun (others, ts₃) =>
            .ok (plainNode .elseIf t.location [test, body] :: others, ts₃) := by
  obtain ⟨kind, lexeme, location⟩ := t
  cases h
  rw [branches]
  exact plain_step _ _ _ fun p => plain_step _ _ _ fun q => plain_step _ _ _ fun r => rfl

theorem plain_branches_else (stop : Token) {t : Token} (h : t.kind = .keywordElse)
    (ts : List Token) :
    plain (branches stop (t :: ts)) =
      (plain (block stop ts)).bind fun (body, ts₁) =>
        .ok ([plainNode .otherwise t.location [body]], ts₁) := by
  obtain ⟨kind, lexeme, location⟩ := t
  cases h
  rw [branches]
  exact plain_step _ _ _ fun p => rfl

theorem plain_branches (stop : Token) {ts : List Token} (hi : lead ts ≠ some .keywordElseif)
    (he : lead ts ≠ some .keywordElse) : plain (branches stop ts) = .ok ([], ts) := by
  rw [branches]
  · rfl
  · rintro lexeme location us rfl
    exact hi rfl
  · rintro lexeme location us rfl
    exact he rfl

theorem statements_nil (stop : Token) : statements stop [] = .ok [] := by
  rw [statements]

theorem statements_cons (stop t : Token) (ts : List Token) :
    statements stop (t :: ts) =
      (plain (statement stop (t :: ts))).bind fun (first, ts₁) =>
        (statements stop ts₁).bind fun others => .ok (first :: others) := by
  rw [statements]
  rcases statement stop (t :: ts) with r | ⟨first, ts₁, h₁⟩ <;> rfl

end StackLang.Parser
