import StackLang.Proofs.Grammar.Plain

/-!
# What the parser reads is derived

Whenever a function of the parser succeeds, the tokens that it took are the word of a derivation of
its nonterminal, and the tree that it built is the tree of that derivation. The induction is on the
tokens left, along the calls of the parser.
-/

namespace StackLang.Parser

open Token (Kind)
open Grammar

mutual

theorem expression_sound {stop : Token} {ts rest : List Token} {v : Tree}
    (h : plain (expression stop ts) = .ok (v, rest)) :
    ∃ d : Expression, ts = d.word ++ rest ∧ d.tree = v := by
  rw [plain_expression, bind_eq_ok] at h
  obtain ⟨⟨left, ts₁⟩, ht, hs⟩ := h
  have hlt := length_lt_of_plain ht
  obtain ⟨first, hts, rfl⟩ := term_sound ht
  obtain ⟨others, hts₁, rfl⟩ := sumTail_sound hs
  exact ⟨.mk first others, by rw [hts, hts₁, Expression.word, List.append_assoc], rfl⟩
termination_by 6 * ts.length + 4

theorem sumTail_sound {stop : Token} {ts rest : List Token} {left v : Tree}
    (h : plain (sumTail stop left ts) = .ok (v, rest)) :
    ∃ d : Terms, ts = d.word ++ rest ∧ d.treeFrom left = v := by
  match ts with
  | [] =>
    rw [plain_sumTail_nil, Except.ok.injEq, Prod.mk.injEq] at h
    exact ⟨.nil, h.2, h.1⟩
  | operator :: ts₀ =>
    rw [plain_sumTail_cons] at h
    split at h
    next hop =>
      rw [bind_eq_ok] at h
      obtain ⟨⟨right, ts₁⟩, ht, hs⟩ := h
      have hlt := length_lt_of_plain ht
      obtain ⟨next, hts, rfl⟩ := term_sound ht
      obtain ⟨others, hts₁, rfl⟩ := sumTail_sound hs
      refine ⟨.cons ⟨operator, hop⟩ next others, ?_, rfl⟩
      rw [hts, hts₁, Terms.word, List.cons_append, List.cons_append, List.append_assoc]
    next =>
      rw [Except.ok.injEq, Prod.mk.injEq] at h
      exact ⟨.nil, h.2, h.1⟩
termination_by 6 * ts.length
decreasing_by all_goals simp only [List.length_cons] at *; omega

theorem term_sound {stop : Token} {ts rest : List Token} {v : Tree}
    (h : plain (term stop ts) = .ok (v, rest)) :
    ∃ d : Term, ts = d.word ++ rest ∧ d.tree = v := by
  rw [plain_term, bind_eq_ok] at h
  obtain ⟨⟨left, ts₁⟩, ht, hs⟩ := h
  have hlt := length_lt_of_plain ht
  obtain ⟨first, hts, rfl⟩ := factor_sound ht
  obtain ⟨others, hts₁, rfl⟩ := productTail_sound hs
  exact ⟨.mk first others, by rw [hts, hts₁, Term.word, List.append_assoc], rfl⟩
termination_by 6 * ts.length + 3

theorem productTail_sound {stop : Token} {ts rest : List Token} {left v : Tree}
    (h : plain (productTail stop left ts) = .ok (v, rest)) :
    ∃ d : Factors, ts = d.word ++ rest ∧ d.treeFrom left = v := by
  match ts with
  | [] =>
    rw [plain_productTail_nil, Except.ok.injEq, Prod.mk.injEq] at h
    exact ⟨.nil, h.2, h.1⟩
  | operator :: ts₀ =>
    rw [plain_productTail_cons] at h
    split at h
    next hop =>
      rw [bind_eq_ok] at h
      obtain ⟨⟨right, ts₁⟩, ht, hs⟩ := h
      have hlt := length_lt_of_plain ht
      obtain ⟨next, hts, rfl⟩ := factor_sound ht
      obtain ⟨others, hts₁, rfl⟩ := productTail_sound hs
      refine ⟨.cons ⟨operator, hop⟩ next others, ?_, rfl⟩
      rw [hts, hts₁, Factors.word, List.cons_append, List.cons_append, List.append_assoc]
    next =>
      rw [Except.ok.injEq, Prod.mk.injEq] at h
      exact ⟨.nil, h.2, h.1⟩
termination_by 6 * ts.length
decreasing_by all_goals simp only [List.length_cons] at *; omega

theorem factor_sound {stop : Token} {ts rest : List Token} {v : Tree}
    (h : plain (factor stop ts) = .ok (v, rest)) :
    ∃ d : Factor, ts = d.word ++ rest ∧ d.tree = v := by
  match ts with
  | [] =>
    rw [plain_factor_nil] at h
    cases h
  | t :: ts₀ =>
    rw [plain_factor_cons] at h
    split at h
    next hk =>
      rw [bind_eq_ok] at h
      obtain ⟨⟨operand, ts₁⟩, hf, hv⟩ := h
      obtain ⟨d, hts, rfl⟩ := factor_sound hf
      obtain ⟨rfl, rfl⟩ := Prod.mk.inj (Except.ok.inj hv)
      exact ⟨.negative ⟨t, hk⟩ d, by rw [hts]; rfl, rfl⟩
    next => exact primary_sound h
termination_by 6 * ts.length + 2

theorem primary_sound {stop : Token} {ts rest : List Token} {v : Tree}
    (h : plain (primary stop ts) = .ok (v, rest)) :
    ∃ d : Factor, ts = d.word ++ rest ∧ d.tree = v := by
  match ts with
  | [] =>
    rw [primary] at h
    cases h
  | t :: ts₀ =>
    by_cases hp : t.kind = .leftParen
    · rw [plain_primary_leftParen stop hp, bind_eq_ok] at h
      obtain ⟨⟨inner, ts₁⟩, he, h⟩ := h
      obtain ⟨⟨close, ts₂⟩, hc, hv⟩ := bind_eq_ok.mp h
      obtain ⟨d, hts, rfl⟩ := expression_sound he
      obtain ⟨rfl, hk⟩ := plain_expectToken_eq_ok.mp hc
      obtain ⟨rfl, rfl⟩ := Prod.mk.inj (Except.ok.inj hv)
      exact ⟨.parenthesised ⟨t, hp⟩ d ⟨close, hk⟩, by simp [hts, Factor.word], rfl⟩
    by_cases hn : t.kind = .number
    · rw [plain_primary_number stop hn] at h
      obtain ⟨rfl, rfl⟩ := Prod.mk.inj (Except.ok.inj h)
      exact ⟨.number ⟨t, hn⟩, rfl, rfl⟩
    by_cases hi : t.kind = .identifier
    · by_cases hl : lead ts₀ = some .leftParen
      · obtain ⟨l, ts₁, hts₀, hlp⟩ := lead_eq_some_iff.mp hl
        rw [hts₀, plain_primary_call stop hi hlp, bind_eq_ok] at h
        obtain ⟨⟨children, ts₂⟩, ha, hv⟩ := h
        obtain ⟨d, close, hk, hts, rfl⟩ := arguments_sound ha
        obtain ⟨rfl, rfl⟩ := Prod.mk.inj (Except.ok.inj hv)
        exact ⟨.call ⟨t, hi⟩ ⟨l, hlp⟩ d ⟨close, hk⟩, by simp [hts₀, hts, Factor.word], rfl⟩
      · rw [plain_primary_variable stop hi hl] at h
        obtain ⟨rfl, rfl⟩ := Prod.mk.inj (Except.ok.inj h)
        exact ⟨.name ⟨t, hi⟩, rfl, rfl⟩
    · rw [plain_primary_other stop hp hn hi] at h
      cases h
termination_by 6 * ts.length + 1
decreasing_by all_goals (try simp only [hts₀]); simp only [List.length_cons]; omega

theorem arguments_sound {stop : Token} {ts rest : List Token} {v : List Tree}
    (h : plain (arguments stop ts) = .ok (v, rest)) :
    ∃ (d : Arguments) (close : Token), close.kind = .rightParen ∧
      ts = d.word ++ close :: rest ∧ d.trees = v := by
  by_cases hl : lead ts = some .rightParen
  · obtain ⟨close, ts₁, rfl, hk⟩ := lead_eq_some_iff.mp hl
    rw [plain_arguments_close stop hk] at h
    obtain ⟨rfl, rfl⟩ := Prod.mk.inj (Except.ok.inj h)
    exact ⟨.none, close, hk, rfl, rfl⟩
  · rw [plain_arguments stop hl, bind_eq_ok] at h
    obtain ⟨⟨first, ts₁⟩, he, h⟩ := h
    obtain ⟨⟨others, ts₂⟩, hm, hv⟩ := bind_eq_ok.mp h
    have hlt := length_lt_of_plain he
    obtain ⟨e, hts, rfl⟩ := expression_sound he
    obtain ⟨more, close, hk, hts₁, rfl⟩ := moreArguments_sound hm
    obtain ⟨rfl, rfl⟩ := Prod.mk.inj (Except.ok.inj hv)
    exact ⟨.some e more, close, hk, by simp [hts, hts₁, Arguments.word], rfl⟩
termination_by 6 * ts.length + 5

theorem moreArguments_sound {stop : Token} {ts rest : List Token} {v : List Tree}
    (h : plain (moreArguments stop ts) = .ok (v, rest)) :
    ∃ (d : MoreArguments) (close : Token), close.kind = .rightParen ∧
      ts = d.word ++ close :: rest ∧ d.trees = v := by
  by_cases hl : lead ts = some .comma
  · obtain ⟨comma, ts₁, hts₁, hk⟩ := lead_eq_some_iff.mp hl
    rw [hts₁, plain_moreArguments_comma stop hk, bind_eq_ok] at h
    obtain ⟨⟨first, ts₂⟩, he, h⟩ := h
    obtain ⟨⟨others, ts₃⟩, hm, hv⟩ := bind_eq_ok.mp h
    have hlt := length_lt_of_plain he
    obtain ⟨e, hts, rfl⟩ := expression_sound he
    obtain ⟨more, close, hc, hts₂, rfl⟩ := moreArguments_sound hm
    obtain ⟨rfl, rfl⟩ := Prod.mk.inj (Except.ok.inj hv)
    exact ⟨.cons ⟨comma, hk⟩ e more, close, hc,
      by simp [hts₁, hts, hts₂, MoreArguments.word], rfl⟩
  · rw [plain_moreArguments stop hl, bind_eq_ok] at h
    obtain ⟨⟨close, ts₁⟩, hc, hv⟩ := h
    obtain ⟨rfl, hk⟩ := plain_expectToken_eq_ok.mp hc
    obtain ⟨rfl, rfl⟩ := Prod.mk.inj (Except.ok.inj hv)
    exact ⟨.nil, close, hk, rfl, rfl⟩
termination_by 6 * ts.length
decreasing_by all_goals simp only [hts₁, List.length_cons] at *; omega

end

theorem condition_sound {stop : Token} {ts rest : List Token} {v : Tree}
    (h : plain (condition stop ts) = .ok (v, rest)) :
    ∃ d : Condition, ts = d.word ++ rest ∧ d.tree = v := by
  rw [plain_condition, bind_eq_ok] at h
  obtain ⟨⟨left, ts₁⟩, hl, h⟩ := h
  obtain ⟨⟨operator, ts₂⟩, ho, h⟩ := bind_eq_ok.mp h
  obtain ⟨⟨right, ts₃⟩, hr, hv⟩ := bind_eq_ok.mp h
  obtain ⟨l, hts, rfl⟩ := expression_sound hl
  obtain ⟨hts₁, hop⟩ := plain_expectWhere_eq_ok.mp ho
  obtain ⟨r, hts₂, rfl⟩ := expression_sound hr
  obtain ⟨rfl, rfl⟩ := Prod.mk.inj (Except.ok.inj hv)
  exact ⟨⟨l, ⟨operator, hop⟩, r⟩, by simp [hts, hts₁, hts₂, Condition.word], rfl⟩

theorem parenthesised_sound {stop : Token} {ts rest : List Token} {v : Tree}
    (h : plain (parenthesised stop ts) = .ok (v, rest)) :
    ∃ d : Test, ts = d.word ++ rest ∧ d.condition.tree = v := by
  rw [plain_parenthesised, bind_eq_ok] at h
  obtain ⟨⟨left, ts₁⟩, hl, h⟩ := h
  obtain ⟨⟨inner, ts₂⟩, hi, h⟩ := bind_eq_ok.mp h
  obtain ⟨⟨right, ts₃⟩, hr, hv⟩ := bind_eq_ok.mp h
  obtain ⟨hts, hlk⟩ := plain_expectToken_eq_ok.mp hl
  obtain ⟨d, hts₁, rfl⟩ := condition_sound hi
  obtain ⟨hts₂, hrk⟩ := plain_expectToken_eq_ok.mp hr
  obtain ⟨rfl, rfl⟩ := Prod.mk.inj (Except.ok.inj hv)
  exact ⟨⟨⟨left, hlk⟩, d, ⟨right, hrk⟩⟩, by simp [hts, hts₁, hts₂, Test.word], rfl⟩

theorem parameter_sound {stop : Token} {ts rest : List Token} {v : Tree}
    (h : plain (parameter stop ts) = .ok (v, rest)) :
    ∃ d : Grammar.Parameter, ts = d.word ++ rest ∧ d.tree = v := by
  rw [plain_parameter, bind_eq_ok] at h
  obtain ⟨⟨name, ts₁⟩, hn, h⟩ := h
  obtain ⟨⟨colon, ts₂⟩, hc, h⟩ := bind_eq_ok.mp h
  obtain ⟨⟨type, ts₃⟩, ht, hv⟩ := bind_eq_ok.mp h
  obtain ⟨hts, hnk⟩ := plain_expect_eq_ok.mp hn
  obtain ⟨hts₁, hck⟩ := plain_expectToken_eq_ok.mp hc
  obtain ⟨hts₂, htk⟩ := plain_expectWhere_eq_ok.mp ht
  obtain ⟨rfl, rfl⟩ := Prod.mk.inj (Except.ok.inj hv)
  exact ⟨⟨⟨name, hnk⟩, ⟨colon, hck⟩, ⟨type, htk⟩⟩,
    by simp [hts, hts₁, hts₂, Grammar.Parameter.word], rfl⟩

theorem moreParameters_sound {stop : Token} {ts rest : List Token} {v : List Tree}
    (h : plain (moreParameters stop ts) = .ok (v, rest)) :
    ∃ d : List (Of .comma × Grammar.Parameter),
      ts = moreParametersWord d ++ rest ∧ d.map (·.2.tree) = v := by
  by_cases hl : lead ts = some .comma
  · obtain ⟨comma, ts₁, hts₁, hk⟩ := lead_eq_some_iff.mp hl
    rw [hts₁, plain_moreParameters_comma stop hk, bind_eq_ok] at h
    obtain ⟨⟨first, ts₂⟩, hp, h⟩ := h
    obtain ⟨⟨others, ts₃⟩, hm, hv⟩ := bind_eq_ok.mp h
    have hlt := length_lt_of_plain hp
    obtain ⟨p, hts, rfl⟩ := parameter_sound hp
    obtain ⟨more, hts₂, rfl⟩ := moreParameters_sound hm
    obtain ⟨rfl, rfl⟩ := Prod.mk.inj (Except.ok.inj hv)
    exact ⟨(⟨comma, hk⟩, p) :: more, by simp [hts₁, hts, hts₂, moreParametersWord], rfl⟩
  · rw [plain_moreParameters stop hl] at h
    obtain ⟨rfl, rfl⟩ := Prod.mk.inj (Except.ok.inj h)
    exact ⟨[], rfl, rfl⟩
termination_by ts.length
decreasing_by simp only [hts₁, List.length_cons]; omega

/-- The parameters are derived, and they start where the first token left stands. -/
theorem parameters_sound {stop : Token} {ts rest : List Token} {v : List Tree}
    (h : plain (parameters stop ts) = .ok (v, rest)) :
    ∃ d : Parameters, ts = d.word ++ rest ∧ d.trees = v ∧
      ∀ close us, rest = close :: us → (peek stop ts).location = d.start close := by
  rw [plain_parameters] at h
  split at h
  next =>
    obtain ⟨rfl, rfl⟩ := Prod.mk.inj (Except.ok.inj h)
    refine ⟨.none, rfl, rfl, ?_⟩
    rintro close us rfl
    rfl
  next =>
    rw [bind_eq_ok] at h
    obtain ⟨⟨first, ts₁⟩, hp, h⟩ := h
    obtain ⟨⟨others, ts₂⟩, hm, hv⟩ := bind_eq_ok.mp h
    obtain ⟨p, hts, rfl⟩ := parameter_sound hp
    obtain ⟨more, hts₁, rfl⟩ := moreParameters_sound hm
    obtain ⟨rfl, rfl⟩ := Prod.mk.inj (Except.ok.inj hv)
    refine ⟨.some p more, by simp [hts, hts₁, Parameters.word], rfl, ?_⟩
    rintro close us -
    rw [hts]
    rfl

theorem declaration_sound {stop : Token} {location : Location} {ts rest : List Token} {v : Tree}
    (h : plain (declaration stop location ts) = .ok (v, rest)) :
    ∃ (name : Of .identifier) (colon : Of .colon) (type : OneOf Kind.isType)
      (value : Option (Of .assign × Expression)),
      ts = name.1 :: colon.1 :: type.1 :: (valueWord value ++ rest) ∧
      declarationNode location name.1.lexeme type.1.lexeme (value.map (·.2.tree)) = v := by
  rw [plain_declaration, bind_eq_ok] at h
  obtain ⟨⟨name, ts₁⟩, hn, h⟩ := h
  obtain ⟨⟨colon, ts₂⟩, hc, h⟩ := bind_eq_ok.mp h
  obtain ⟨⟨type, ts₃⟩, ht, hd⟩ := bind_eq_ok.mp h
  obtain ⟨rfl, hnk⟩ := plain_expect_eq_ok.mp hn
  obtain ⟨rfl, hck⟩ := plain_expectToken_eq_ok.mp hc
  obtain ⟨rfl, htk⟩ := plain_expectWhere_eq_ok.mp ht
  simp only at hd
  split at hd
  next hl =>
    obtain ⟨sign, ts₄, rfl, hs⟩ := lead_eq_some_iff.mp hl
    obtain ⟨⟨value, ts₅⟩, he, hv⟩ := bind_eq_ok.mp hd
    obtain ⟨d, hts, rfl⟩ := expression_sound he
    obtain ⟨rfl, rfl⟩ := Prod.mk.inj (Except.ok.inj hv)
    refine ⟨⟨name, hnk⟩, ⟨colon, hck⟩, ⟨type, htk⟩, some (⟨sign, hs⟩, d), ?_, rfl⟩
    rw [List.tail_cons] at hts
    rw [hts]
    rfl
  next =>
    obtain ⟨rfl, rfl⟩ := Prod.mk.inj (Except.ok.inj hd)
    exact ⟨⟨name, hnk⟩, ⟨colon, hck⟩, ⟨type, htk⟩, none, rfl, rfl⟩

/-- The head of a function: all of it but the word before and the body after it. -/
theorem functionHead_sound {stop : Token} {ts rest : List Token} {v : String × Tree × String}
    (h : plain (functionHead stop ts) = .ok (v, rest)) :
    ∃ (name : Of .identifier) (left : Of .leftParen) (parameters : Parameters)
      (right : Of .rightParen) (arrow : Of .arrow) (type : OneOf Kind.isType),
      ts = name.1 :: left.1 :: (parameters.word ++ right.1 :: arrow.1 :: type.1 :: rest) ∧
      (name.1.lexeme, parametersNode (parameters.start right.1) parameters.trees,
        type.1.lexeme) = v := by
  rw [plain_functionHead, bind_eq_ok] at h
  obtain ⟨⟨name, ts₁⟩, hn, h⟩ := h
  obtain ⟨⟨left, ts₂⟩, hl, h⟩ := bind_eq_ok.mp h
  obtain ⟨⟨children, ts₃⟩, hp, h⟩ := bind_eq_ok.mp h
  obtain ⟨⟨right, ts₄⟩, hr, h⟩ := bind_eq_ok.mp h
  obtain ⟨⟨arrow, ts₅⟩, ha, h⟩ := bind_eq_ok.mp h
  obtain ⟨⟨type, ts₆⟩, ht, hv⟩ := bind_eq_ok.mp h
  obtain ⟨rfl, hnk⟩ := plain_expect_eq_ok.mp hn
  obtain ⟨rfl, hlk⟩ := plain_expectToken_eq_ok.mp hl
  obtain ⟨ps, hts₂, rfl, hstart⟩ := parameters_sound hp
  obtain ⟨rfl, hrk⟩ := plain_expectToken_eq_ok.mp hr
  obtain ⟨rfl, hak⟩ := plain_expectToken_eq_ok.mp ha
  obtain ⟨rfl, htk⟩ := plain_expectWhere_eq_ok.mp ht
  obtain ⟨rfl, rfl⟩ := Prod.mk.inj (Except.ok.inj hv)
  refine ⟨⟨name, hnk⟩, ⟨left, hlk⟩, ps, ⟨right, hrk⟩, ⟨arrow, hak⟩, ⟨type, htk⟩, ?_, ?_⟩
  · rw [hts₂]
  · rw [hstart right _ rfl]

mutual

theorem statement_sound {stop : Token} {ts rest : List Token} {v : Tree}
    (h : plain (statement stop ts) = .ok (v, rest)) :
    ∃ d : Statement, ts = d.word ++ rest ∧ d.tree = v := by
  match ts with
  | [] =>
    rw [plain_statement_nil] at h
    obtain ⟨d, hts, rfl⟩ := expression_sound h
    exact ⟨.expression d, hts, rfl⟩
  | t :: ts₀ =>
    by_cases hw : isStatementWord t.kind = true
    · cases hk : t.kind with
      | keywordFn =>
        rw [plain_statement_fn stop hk, bind_eq_ok] at h
        obtain ⟨⟨head, ts₁⟩, hh, h⟩ := h
        obtain ⟨⟨body, ts₂⟩, hb, hv⟩ := bind_eq_ok.mp h
        have hlt := length_lt_of_plain hh
        obtain ⟨name, left, ps, right, arrow, type, hts, rfl⟩ := functionHead_sound hh
        obtain ⟨b, hts₁, rfl⟩ := block_sound hb
        obtain ⟨rfl, rfl⟩ := Prod.mk.inj (Except.ok.inj hv)
        exact ⟨.function ⟨t, hk⟩ name left ps right arrow type b,
          by simp [hts, hts₁, Statement.word], rfl⟩
      | keywordVar =>
        rw [plain_statement_var stop hk] at h
        obtain ⟨name, colon, type, value, hts, rfl⟩ := declaration_sound h
        exact ⟨.declaration ⟨t, hk⟩ name colon type value, by rw [hts]; rfl, rfl⟩
      | keywordIf =>
        rw [plain_statement_if stop hk, bind_eq_ok] at h
        obtain ⟨⟨test, ts₁⟩, ht, h⟩ := h
        obtain ⟨⟨body, ts₂⟩, hb, h⟩ := bind_eq_ok.mp h
        obtain ⟨⟨others, ts₃⟩, ho, hv⟩ := bind_eq_ok.mp h
        have hlt₁ := length_lt_of_plain ht
        have hlt₂ := length_lt_of_plain hb
        obtain ⟨d, hts, rfl⟩ := parenthesised_sound ht
        obtain ⟨b, hts₁, rfl⟩ := block_sound hb
        obtain ⟨bs, hts₂, rfl⟩ := branches_sound ho
        obtain ⟨rfl, rfl⟩ := Prod.mk.inj (Except.ok.inj hv)
        exact ⟨.conditional ⟨t, hk⟩ d b bs, by simp [hts, hts₁, hts₂, Statement.word], rfl⟩
      | keywordWhile =>
        rw [plain_statement_while stop hk, bind_eq_ok] at h
        obtain ⟨⟨test, ts₁⟩, ht, h⟩ := h
        obtain ⟨⟨body, ts₂⟩, hb, hv⟩ := bind_eq_ok.mp h
        have hlt := length_lt_of_plain ht
        obtain ⟨d, hts, rfl⟩ := parenthesised_sound ht
        obtain ⟨b, hts₁, rfl⟩ := block_sound hb
        obtain ⟨rfl, rfl⟩ := Prod.mk.inj (Except.ok.inj hv)
        exact ⟨.loop ⟨t, hk⟩ d b, by simp [hts, hts₁, Statement.word], rfl⟩
      | keywordReturn =>
        rw [plain_statement_return stop hk, bind_eq_ok] at h
        obtain ⟨⟨value, ts₁⟩, he, hv⟩ := h
        obtain ⟨d, hts, rfl⟩ := expression_sound he
        obtain ⟨rfl, rfl⟩ := Prod.mk.inj (Except.ok.inj hv)
        exact ⟨.giveBack ⟨t, hk⟩ d, by rw [hts]; rfl, rfl⟩
      | _ => rw [hk] at hw; cases hw
    · rw [Bool.not_eq_true] at hw
      by_cases ha : t.kind = .identifier ∧ lead ts₀ = some .assign
      · obtain ⟨hi, hl⟩ := ha
        obtain ⟨u, ts₁, rfl, hu⟩ := lead_eq_some_iff.mp hl
        rw [plain_statement_assignment stop hi hu, bind_eq_ok] at h
        obtain ⟨⟨value, ts₂⟩, he, hv⟩ := h
        obtain ⟨d, hts, rfl⟩ := expression_sound he
        obtain ⟨rfl, rfl⟩ := Prod.mk.inj (Except.ok.inj hv)
        exact ⟨.assignment ⟨t, hi⟩ ⟨u, hu⟩ d, by rw [hts]; rfl, rfl⟩
      · rw [plain_statement_expression stop hw ha] at h
        obtain ⟨d, hts, rfl⟩ := expression_sound h
        exact ⟨.expression d, hts, rfl⟩
termination_by 3 * ts.length + 1

theorem block_sound {stop : Token} {ts rest : List Token} {v : Tree}
    (h : plain (block stop ts) = .ok (v, rest)) :
    ∃ d : Block, ts = d.word ++ rest ∧ d.tree = v := by
  rw [plain_block, bind_eq_ok] at h
  obtain ⟨⟨left, ts₁⟩, hl, h⟩ := h
  obtain ⟨⟨children, ts₂⟩, hc, hv⟩ := bind_eq_ok.mp h
  have hlt := length_lt_of_plain hl
  obtain ⟨hts, hlk⟩ := plain_expectToken_eq_ok.mp hl
  obtain ⟨ss, right, hrk, hts₁, rfl⟩ := blockTail_sound hc
  obtain ⟨rfl, rfl⟩ := Prod.mk.inj (Except.ok.inj hv)
  exact ⟨.mk ⟨left, hlk⟩ ss ⟨right, hrk⟩, by simp [hts, hts₁, Block.word], rfl⟩
termination_by 3 * ts.length

theorem blockTail_sound {stop : Token} {ts rest : List Token} {v : List Tree}
    (h : plain (blockTail stop ts) = .ok (v, rest)) :
    ∃ (d : Statements) (close : Token), close.kind = .rightBrace ∧
      ts = d.word ++ close :: rest ∧ d.trees = v := by
  match ts with
  | [] =>
    rw [plain_blockTail_nil] at h
    cases h
  | t :: ts₀ =>
    by_cases hk : t.kind = .rightBrace
    · rw [plain_blockTail_close stop hk] at h
      obtain ⟨rfl, rfl⟩ := Prod.mk.inj (Except.ok.inj h)
      exact ⟨.nil, t, hk, rfl, rfl⟩
    · rw [plain_blockTail stop hk, bind_eq_ok] at h
      obtain ⟨⟨first, ts₁⟩, hf, h⟩ := h
      obtain ⟨⟨others, ts₂⟩, ho, hv⟩ := bind_eq_ok.mp h
      have hlt := length_lt_of_plain hf
      obtain ⟨d, hts, rfl⟩ := statement_sound hf
      obtain ⟨ds, close, hc, hts₁, rfl⟩ := blockTail_sound ho
      obtain ⟨rfl, rfl⟩ := Prod.mk.inj (Except.ok.inj hv)
      exact ⟨.cons d ds, close, hc, by simp [hts, hts₁, Statements.word], rfl⟩
termination_by 3 * ts.length + 2
decreasing_by all_goals simp only [List.length_cons] at *; omega

theorem branches_sound {stop : Token} {ts rest : List Token} {v : List Tree}
    (h : plain (branches stop ts) = .ok (v, rest)) :
    ∃ d : Branches, ts = d.word ++ rest ∧ d.trees = v := by
  by_cases hi : lead ts = some .keywordElseif
  · obtain ⟨t, ts₀, hts₀, hk⟩ := lead_eq_some_iff.mp hi
    rw [hts₀, plain_branches_elseif stop hk, bind_eq_ok] at h
    obtain ⟨⟨test, ts₁⟩, ht, h⟩ := h
    obtain ⟨⟨body, ts₂⟩, hb, h⟩ := bind_eq_ok.mp h
    obtain ⟨⟨others, ts₃⟩, ho, hv⟩ := bind_eq_ok.mp h
    have hlt₁ := length_lt_of_plain ht
    have hlt₂ := length_lt_of_plain hb
    obtain ⟨d, hts, rfl⟩ := parenthesised_sound ht
    obtain ⟨b, hts₁, rfl⟩ := block_sound hb
    obtain ⟨bs, hts₂, rfl⟩ := branches_sound ho
    obtain ⟨rfl, rfl⟩ := Prod.mk.inj (Except.ok.inj hv)
    exact ⟨.elseIf ⟨t, hk⟩ d b bs, by simp [hts₀, hts, hts₁, hts₂, Branches.word], rfl⟩
  by_cases he : lead ts = some .keywordElse
  · obtain ⟨t, ts₀, hts₀, hk⟩ := lead_eq_some_iff.mp he
    rw [hts₀, plain_branches_else stop hk, bind_eq_ok] at h
    obtain ⟨⟨body, ts₁⟩, hb, hv⟩ := h
    obtain ⟨b, hts, rfl⟩ := block_sound hb
    obtain ⟨rfl, rfl⟩ := Prod.mk.inj (Except.ok.inj hv)
    exact ⟨.otherwise ⟨t, hk⟩ b, by simp [hts₀, hts, Branches.word], rfl⟩
  · rw [plain_branches stop hi he] at h
    obtain ⟨rfl, rfl⟩ := Prod.mk.inj (Except.ok.inj h)
    exact ⟨.nil, rfl, rfl⟩
termination_by 3 * ts.length
decreasing_by all_goals simp only [hts₀, List.length_cons]; omega

end

/-- Whatever is read up to the end of the input is derived. -/
theorem statements_sound {stop : Token} {ts : List Token} {v : List Tree}
    (h : statements stop ts = .ok v) : ∃ d : Statements, ts = d.word ∧ d.trees = v := by
  match ts with
  | [] =>
    rw [statements_nil, Except.ok.injEq] at h
    exact ⟨.nil, rfl, h⟩
  | t :: ts₀ =>
    rw [statements_cons, bind_eq_ok] at h
    obtain ⟨⟨first, ts₁⟩, hf, h⟩ := h
    obtain ⟨others, ho, hv⟩ := bind_eq_ok.mp h
    have hlt := length_lt_of_plain hf
    obtain ⟨d, hts, rfl⟩ := statement_sound hf
    obtain ⟨ds, rfl, rfl⟩ := statements_sound ho
    exact ⟨.cons d ds, hts, Except.ok.inj hv⟩
termination_by ts.length
decreasing_by simp only [List.length_cons] at *; omega

end StackLang.Parser
