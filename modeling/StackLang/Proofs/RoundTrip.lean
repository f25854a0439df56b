import StackLang.Proofs.Grammar.Exact
import StackLang.Proofs.Grammar.Moved
import StackLang.Proofs.Writing

/-!
# What is written is read back

The words of a tree are derived by the grammar, and the tree of the derivation is the tree that was
written. They are read as they are derived, because no statement continues a value in parentheses.
So parsing what is written gives the tree back, wherever the tokens stand.
-/

namespace StackLang

namespace Tree

/-! ## Sameness -/

theorem same_of {t u : Tree} (hkind : t.kind = u.kind) (hvalue : t.value = u.value)
    (hattributes : t.attributes.same u.attributes = true)
    (hchildren : sameAll t.children u.children = true) : t.same u = true := by
  obtain ⟨kind, value, attributes, children, location⟩ := t
  simp only [same, Bool.and_eq_true, beq_iff_eq]
  exact ⟨⟨⟨hkind, hvalue⟩, hattributes⟩, hchildren⟩

theorem sameAll_cons {t u : Tree} {ts us : List Tree} (h : t.same u = true)
    (hs : sameAll ts us = true) : sameAll (t :: ts) (u :: us) = true := by
  rw [sameAll, h, hs]
  rfl

mutual

/-- Places do not matter. -/
theorem same_moved (move : Location → Location) (t u : Tree) :
    t.same (u.moved move) = t.same u := by
  obtain ⟨kind, value, attributes, children, location⟩ := t
  obtain ⟨kind', value', attributes', children', location'⟩ := u
  rw [moved, same, same, sameAll_movedAll move children children']

theorem sameAll_movedAll (move : Location → Location) (ts us : List Tree) :
    sameAll ts (movedAll move us) = sameAll ts us := by
  cases ts with
  | nil => cases us <;> rfl
  | cons t ts =>
    cases us with
    | nil => rfl
    | cons u us =>
      rw [movedAll, sameAll, sameAll, same_moved move t u, sameAll_movedAll move ts us]

end

end Tree

/-- The token of a word at a place. -/
def Token.placed (place : Location) (w : Token.Kind × String) : Token := ⟨w.1, w.2, place⟩

namespace Grammar

open StackLang.Parser (binaryNode)
open StackLang.Tree

/-! ## Derivations that go on -/

/-- Factors with one more behind them. -/
def Factors.snoc (operator : OneOf Token.Kind.isMultiplicative) (next : Factor) : Factors → Factors
  | .nil => .cons operator next .nil
  | .cons operator' first others => .cons operator' first (others.snoc operator next)

theorem Factors.word_snoc (operator : OneOf Token.Kind.isMultiplicative) (next : Factor)
    (fs : Factors) : (fs.snoc operator next).word = fs.word ++ operator.1 :: next.word := by
  cases fs with
  | nil => simp only [snoc, word, List.append_nil, List.nil_append]
  | cons operator' first others =>
    rw [snoc, word, word, word_snoc operator next others, ← List.append_assoc]

theorem Factors.treeFrom_snoc (operator : OneOf Token.Kind.isMultiplicative) (next : Factor)
    (fs : Factors) (left : Tree) :
    (fs.snoc operator next).treeFrom left =
      binaryNode .term operator.1 (fs.treeFrom left) next.tree := by
  cases fs with
  | nil => rw [snoc, treeFrom, treeFrom, treeFrom]
  | cons operator' first others =>
    rw [snoc, treeFrom, treeFrom, treeFrom_snoc operator next others]

/-- Terms with one more behind them. -/
def Terms.snoc (operator : OneOf Token.Kind.isAdditive) (next : Term) : Terms → Terms
  | .nil => .cons operator next .nil
  | .cons operator' first others => .cons operator' first (others.snoc operator next)

theorem Terms.word_snoc (operator : OneOf Token.Kind.isAdditive) (next : Term) (ts : Terms) :
    (ts.snoc operator next).word = ts.word ++ operator.1 :: next.word := by
  cases ts with
  | nil => simp only [snoc, word, List.append_nil, List.nil_append]
  | cons operator' first others =>
    rw [snoc, word, word, word_snoc operator next others, ← List.append_assoc]

theorem Terms.treeFrom_snoc (operator : OneOf Token.Kind.isAdditive) (next : Term) (ts : Terms)
    (left : Tree) :
    (ts.snoc operator next).treeFrom left =
      binaryNode .expression operator.1 (ts.treeFrom left) next.tree := by
  cases ts with
  | nil => rw [snoc, treeFrom, treeFrom, treeFrom]
  | cons operator' first others =>
    rw [snoc, treeFrom, treeFrom, treeFrom_snoc operator next others]

/-! ## What is written is derived -/

variable (place : Location)

/-- The token of a kind with one spelling. -/
def fixedToken (k : Token.Kind) : Of k := ⟨.placed place (fixedWord k), rfl⟩

/-- The token of a name. -/
def nameToken (name : String) : Of .identifier := ⟨.placed place (nameWord name), rfl⟩

/-- The token of a kind with one spelling that is one of several kinds. -/
def sortToken {p : Token.Kind → Bool} {k : Token.Kind} (hk : p k = true) : OneOf p :=
  ⟨.placed place (fixedWord k), hk⟩

/-- The words of a value are derived, as each sort of derivation that need not be put in
parentheses. -/
structure DerivesValue (t : Tree) : Prop where
  expression : ∃ e : Expression,
    e.word = (valueWords t).map (Token.placed place) ∧ t.same e.tree = true
  term : t.kind ≠ .expression → ∃ d : Term,
    d.word = (valueWords t).map (Token.placed place) ∧ t.same d.tree = true
  factor : t.kind ∉ [.expression, .term] → ∃ f : Factor,
    f.word = (valueWords t).map (Token.placed place) ∧ t.same f.tree = true

namespace DerivesValue

variable {place} {t : Tree}

theorem of_expression {e : Expression} (hkind : t.kind = .expression)
    (hword : e.word = (valueWords t).map (Token.placed place)) (hsame : t.same e.tree = true) :
    DerivesValue place t :=
  ⟨⟨e, hword, hsame⟩, fun h => absurd hkind h, fun h => absurd (by rw [hkind]; decide) h⟩

theorem of_term {d : Term} (hkind : t.kind = .term)
    (hword : d.word = (valueWords t).map (Token.placed place)) (hsame : t.same d.tree = true) :
    DerivesValue place t where
  expression := ⟨.mk d .nil, by rw [Expression.word, Terms.word, List.append_nil, hword],
    by rwa [Expression.tree, Terms.treeFrom]⟩
  term := fun _ => ⟨d, hword, hsame⟩
  factor := fun h => absurd (by rw [hkind]; decide) h

theorem of_factor {f : Factor} (hword : f.word = (valueWords t).map (Token.placed place))
    (hsame : t.same f.tree = true) : DerivesValue place t where
  expression := ⟨.mk (.mk f .nil) .nil,
    by rw [Expression.word, Terms.word, Term.word, Factors.word, List.append_nil, List.append_nil,
      hword],
    by rwa [Expression.tree, Terms.treeFrom, Term.tree, Factors.treeFrom]⟩
  term := fun _ => ⟨.mk f .nil, by rw [Term.word, Factors.word, List.append_nil, hword],
    by rwa [Term.tree, Factors.treeFrom]⟩
  factor := fun _ => ⟨f, hword, hsame⟩

/-- Any value in parentheses is a factor. -/
theorem enclosed (h : DerivesValue place t) : ∃ f : Factor,
    f.word = (Tree.enclosed (valueWords t)).map (Token.placed place) ∧ t.same f.tree = true := by
  obtain ⟨e, hword, hsame⟩ := h.expression
  refine ⟨.parenthesised (fixedToken place .leftParen) e (fixedToken place .rightParen), ?_, ?_⟩
  · rw [Factor.word, hword, Tree.enclosed, List.map_append, List.map_cons]
    rfl
  · rwa [Factor.tree]

/-- A value is a factor, in parentheses if need be. -/
theorem factorAt (h : DerivesValue place t) : ∃ f : Factor,
    f.word = (enclosedAt [.expression, .term] t.kind (valueWords t)).map (Token.placed place) ∧
      t.same f.tree = true := by
  by_cases hkind : t.kind ∈ [.expression, .term]
  · rw [enclosedAt, if_pos hkind]
    exact h.enclosed
  · rw [enclosedAt, if_neg hkind]
    exact h.factor hkind

/-- A value is a term, in parentheses if need be. -/
theorem termAt (h : DerivesValue place t) : ∃ d : Term,
    d.word = (enclosedAt [.expression] t.kind (valueWords t)).map (Token.placed place) ∧
      t.same d.tree = true := by
  by_cases hkind : t.kind = .expression
  · obtain ⟨f, hword, hsame⟩ := h.enclosed
    refine ⟨.mk f .nil, ?_, ?_⟩
    · rw [Term.word, Factors.word, List.append_nil, hword, enclosedAt,
        if_pos (List.mem_singleton.mpr hkind)]
    · rwa [Term.tree, Factors.treeFrom]
  · rw [enclosedAt, if_neg (fun hmem => hkind (List.mem_singleton.mp hmem))]
    exact h.term hkind

end DerivesValue

variable {place} in
theorem exists_moreArguments {ts : List Tree} (h : ∀ t ∈ ts, DerivesValue place t) :
    ∃ as : MoreArguments,
      as.word = ((valueWordsAll ts).flatMap (fixedWord .comma :: ·)).map (Token.placed place) ∧
        sameAll ts as.trees = true := by
  induction ts with
  | nil => exact ⟨.nil, by rw [MoreArguments.word]; rfl, by rw [MoreArguments.trees]; rfl⟩
  | cons t ts ih =>
    obtain ⟨e, he, hsame⟩ := (h t List.mem_cons_self).expression
    obtain ⟨as, has, hothers⟩ := ih fun u hu => h u (List.mem_cons_of_mem t hu)
    refine ⟨.cons (fixedToken place .comma) e as, ?_, ?_⟩
    · rw [MoreArguments.word, he, has, valueWordsAll, List.flatMap_cons, List.map_append,
        List.map_cons]
      rfl
    · rw [MoreArguments.trees]
      exact sameAll_cons hsame hothers

variable {place} in
theorem exists_arguments {ts : List Tree} (h : ∀ t ∈ ts, DerivesValue place t) :
    ∃ as : Arguments, as.word = (separated (valueWordsAll ts)).map (Token.placed place) ∧
      sameAll ts as.trees = true := by
  cases ts with
  | nil => exact ⟨.none, by rw [Arguments.word]; rfl, by rw [Arguments.trees]; rfl⟩
  | cons t ts =>
    obtain ⟨e, he, hsame⟩ := (h t List.mem_cons_self).expression
    obtain ⟨as, has, hothers⟩ := exists_moreArguments fun u hu => h u (List.mem_cons_of_mem t hu)
    refine ⟨.some e as, ?_, ?_⟩
    · rw [Arguments.word, he, has, valueWordsAll, separated, List.map_append]
    · rw [Arguments.trees]
      exact sameAll_cons hsame hothers

/-- The words of every value are derived. -/
theorem derivesValue {t : Tree} (h : RegularValue t) : DerivesValue place t := by
  induction h with
  | @number digits location h =>
    exact .of_factor (f := .number ⟨.placed place (.number, digits), rfl⟩)
      (by rw [Factor.word]; rfl) (by rw [Factor.tree]; exact same_of rfl rfl rfl rfl)
  | @name name location h =>
    exact .of_factor (f := .name (nameToken place name)) (by rw [Factor.word]; rfl)
      (by rw [Factor.tree]; exact same_of rfl rfl rfl rfl)
  | @call name arguments location hname h ih =>
    obtain ⟨as, hword, hsame⟩ := exists_arguments ih
    refine .of_factor (f := .call (nameToken place name) (fixedToken place .leftParen) as
      (fixedToken place .rightParen)) ?_ ?_
    · rw [Factor.word, hword, valueWords, Tree.enclosed, List.map_cons, List.map_append,
        List.map_cons]
      rfl
    · rw [Factor.tree]
      exact same_of rfl rfl (Attributes.same_singleton _) hsame
  | @negate operand location h ih =>
    obtain ⟨f, hword, hsame⟩ := ih.factorAt
    refine .of_factor (f := .negative (fixedToken place .minus) f) ?_ ?_
    · rw [Factor.word, hword, valueWords]
      rfl
    · rw [Factor.tree]
      exact same_of rfl rfl rfl (sameAll_cons hsame rfl)
  | @term k left right location hk hleft hright ihl ihr =>
    obtain ⟨⟨first, others⟩, hdword, hdsame⟩ := ihl.termAt
    obtain ⟨f, hfword, hfsame⟩ := ihr.factorAt
    refine .of_term (d := .mk first (others.snoc (sortToken place hk) f)) rfl ?_ ?_
    · rw [Term.word] at hdword
      rw [Term.word, Factors.word_snoc, ← List.append_assoc, hdword, hfword, valueWords_term hk,
        List.map_append, List.map_cons]
      rfl
    · rw [Term.tree] at hdsame
      rw [Term.tree, Factors.treeFrom_snoc]
      exact same_of rfl rfl (Attributes.same_singleton _)
        (sameAll_cons hdsame (sameAll_cons hfsame rfl))
  | @expression k left right location hk hleft hright ihl ihr =>
    obtain ⟨⟨first, others⟩, heword, hesame⟩ := ihl.expression
    obtain ⟨d, hdword, hdsame⟩ := ihr.termAt
    refine .of_expression (e := .mk first (others.snoc (sortToken place hk) d)) rfl ?_ ?_
    · rw [Expression.word] at heword
      rw [Expression.word, Terms.word_snoc, ← List.append_assoc, heword, hdword,
        valueWords_expression hk, List.map_append, List.map_cons]
      rfl
    · rw [Expression.tree] at hesame
      rw [Expression.tree, Terms.treeFrom_snoc]
      exact same_of rfl rfl (Attributes.same_singleton _)
        (sameAll_cons hesame (sameAll_cons hdsame rfl))

/-- The words of every test are derived. -/
theorem exists_test {t : Tree} (h : RegularCondition t) : ∃ d : Test,
    d.word = (testWords t).map (Token.placed place) ∧ t.same d.condition.tree = true := by
  obtain @⟨k, left, right, location, hk, hleft, hright⟩ := h
  obtain ⟨l, hlword, hlsame⟩ := (derivesValue place hleft).expression
  obtain ⟨r, hrword, hrsame⟩ := (derivesValue place hright).expression
  refine ⟨⟨fixedToken place .leftParen, ⟨l, sortToken place hk, r⟩,
    fixedToken place .rightParen⟩, ?_, ?_⟩
  · rw [Test.word, Condition.word, hlword, hrword, testWords_mk hk, enclosed, List.map_append,
      List.map_cons, List.map_append, List.map_cons]
    rfl
  · exact same_of rfl rfl (Attributes.same_singleton _)
      (sameAll_cons hlsame (sameAll_cons hrsame rfl))

/-- The words of every parameter are derived. -/
theorem exists_parameter {t : Tree} (h : RegularParameter t) : ∃ d : Grammar.Parameter,
    d.word = (parameterWords t).map (Token.placed place) ∧ t.same d.tree = true := by
  obtain @⟨name, k, attributes, location, hname, hk, hattributes⟩ := h
  obtain ⟨-, -, hsame⟩ := text_of_perm (by decide) hattributes
  refine ⟨⟨nameToken place name, fixedToken place .colon, sortToken place hk⟩, ?_, ?_⟩
  · rw [parameterWords_mk hk hattributes]
    rfl
  · exact same_of rfl rfl hsame rfl

theorem exists_moreParameters {ts : List Tree} (h : ∀ t ∈ ts, RegularParameter t) :
    ∃ ds : List (Of .comma × Grammar.Parameter),
      moreParametersWord ds =
        ((ts.map parameterWords).flatMap (fixedWord .comma :: ·)).map (Token.placed place) ∧
        sameAll ts (ds.map (·.2.tree)) = true := by
  induction ts with
  | nil => exact ⟨[], rfl, rfl⟩
  | cons t ts ih =>
    obtain ⟨d, hd, hsame⟩ := exists_parameter place (h t List.mem_cons_self)
    obtain ⟨ds, hds, hothers⟩ := ih fun u hu => h u (List.mem_cons_of_mem t hu)
    refine ⟨(fixedToken place .comma, d) :: ds, ?_, sameAll_cons hsame hothers⟩
    rw [List.map_cons, List.flatMap_cons, List.map_append, ← hds, List.map_cons, ← hd]
    rfl

theorem exists_parameters {ts : List Tree} (h : ∀ t ∈ ts, RegularParameter t) :
    ∃ d : Parameters, d.word = (separated (ts.map parameterWords)).map (Token.placed place) ∧
      sameAll ts d.trees = true := by
  cases ts with
  | nil => exact ⟨.none, rfl, rfl⟩
  | cons t ts =>
    obtain ⟨d, hd, hsame⟩ := exists_parameter place (h t List.mem_cons_self)
    obtain ⟨ds, hds, hothers⟩ := exists_moreParameters place
      fun u hu => h u (List.mem_cons_of_mem t hu)
    refine ⟨.some d ds, ?_, sameAll_cons hsame hothers⟩
    rw [Parameters.word, hd, hds, List.map_cons, separated, List.map_append]

/-- A value in parentheses is derived. -/
theorem exists_enclosed {t : Tree} (h : RegularValue t) : ∃ e : Expression, e.IsEnclosed ∧
    e.word = (enclosed (valueWords t)).map (Token.placed place) ∧ t.same e.tree = true := by
  obtain ⟨e, hword, hsame⟩ := (derivesValue place h).expression
  refine ⟨_, .mk (fixedToken place .leftParen) e (fixedToken place .rightParen), ?_, ?_⟩
  · rw [enclosed, List.map_append, List.map_cons, ← hword]
    simp only [Expression.word, Term.word, Factor.word, Factors.word, Terms.word, List.append_nil]
    rfl
  · rwa [Expression.tree, Terms.treeFrom, Term.tree, Factors.treeFrom, Factor.tree]

/-- The value of a declaration is derived. -/
theorem exists_initializer {value : Option Tree} (h : ∀ v ∈ value, RegularValue v) :
    ∃ d : Option (Of .assign × Expression), (∀ v ∈ d, v.2.IsEnclosed) ∧
      valueWord d = (initializerWords value.toList).map (Token.placed place) ∧
        sameAll value.toList (d.map (·.2.tree)).toList = true := by
  cases value with
  | none => exact ⟨none, by rintro v ⟨⟩, rfl, rfl⟩
  | some v =>
    obtain ⟨e, he, hword, hsame⟩ := exists_enclosed place (h v rfl)
    refine ⟨some (fixedToken place .assign, e), ?_, ?_, sameAll_cons hsame rfl⟩
    · rintro d ⟨⟩
      exact he
    · rw [valueWord, hword]
      rfl

/-- The words of a statement are derived. -/
def DerivesStatement (t : Tree) : Prop :=
  ∃ s : Statement, s.IsEnclosed ∧ s.word = (statementWords t).map (Token.placed place) ∧
    t.same s.tree = true

variable {place} in
/-- The words of statements are derived if those of each one are. -/
theorem exists_statements {ts : List Tree} (h : ∀ t ∈ ts, DerivesStatement place t) :
    ∃ ss : Statements, ss.IsEnclosed ∧
      ss.word = (statementsWords ts).map (Token.placed place) ∧ sameAll ts ss.trees = true := by
  induction ts with
  | nil =>
    refine ⟨.nil, ?_, ?_, ?_⟩
    · rw [Statements.IsEnclosed]
      trivial
    · rw [Statements.word]
      rfl
    · rw [Statements.trees]
      rfl
  | cons t ts ih =>
    obtain ⟨s, hs, hword, hsame⟩ := h t List.mem_cons_self
    obtain ⟨ss, hss, hwords, hothers⟩ := ih fun u hu => h u (List.mem_cons_of_mem t hu)
    refine ⟨.cons s ss, ?_, ?_, ?_⟩
    · rw [Statements.IsEnclosed]
      exact ⟨hs, hss⟩
    · rw [Statements.word, hword, hwords, statementsWords, List.map_append]
    · rw [Statements.trees]
      exact sameAll_cons hsame hothers

mutual

/-- The words of every statement are derived. -/
theorem derivesStatement {t : Tree} (h : RegularStatement t) : DerivesStatement place t := by
  cases h with
  | @function name k attributes parameters body start location hname hk hattributes hparameters
      hbody =>
    obtain ⟨-, -, hsame⟩ := text_of_perm (by decide) hattributes
    obtain ⟨ps, hps, hpsame⟩ := exists_parameters place hparameters
    obtain ⟨b, hb, hbword, hbsame⟩ := exists_block hbody
    refine ⟨.function (fixedToken place .keywordFn) (nameToken place name)
      (fixedToken place .leftParen) ps (fixedToken place .rightParen) (fixedToken place .arrow)
      (sortToken place hk) b, ?_, ?_, ?_⟩
    · rwa [Statement.IsEnclosed]
    · rw [Statement.word, hps, hbword, statementWords_function hk hattributes]
      simp only [enclosed, List.map_cons, List.map_append, List.cons_append, List.append_assoc]
      rfl
    · rw [Statement.tree]
      exact same_of rfl rfl hsame (sameAll_cons (same_of rfl rfl rfl hpsame)
        (sameAll_cons hbsame rfl))
  | @declaration name k attributes value location hname hk hattributes hvalue =>
    obtain ⟨-, -, hsame⟩ := text_of_perm (by decide) hattributes
    obtain ⟨d, hd, hdword, hdsame⟩ := exists_initializer place hvalue
    refine ⟨.declaration (fixedToken place .keywordVar) (nameToken place name)
      (fixedToken place .colon) (sortToken place hk) d, ?_, ?_, ?_⟩
    · rwa [Statement.IsEnclosed]
    · rw [Statement.word, hdword, statementWords_declaration hk hattributes]
      rfl
    · rw [Statement.tree]
      exact same_of rfl rfl hsame hdsame
  | @assignment name value location hname hvalue =>
    obtain ⟨e, he, hword, hsame⟩ := exists_enclosed place hvalue
    refine ⟨.assignment (nameToken place name) (fixedToken place .assign) e, ?_, ?_, ?_⟩
    · rwa [Statement.IsEnclosed]
    · rw [Statement.word, hword, statementWords]
      rfl
    · rw [Statement.tree]
      exact same_of rfl rfl (Attributes.same_singleton _) (sameAll_cons hsame rfl)
  | @conditional test body others location htest hbody hothers =>
    obtain ⟨d, hdword, hdsame⟩ := exists_test place htest
    obtain ⟨b, hb, hbword, hbsame⟩ := exists_block hbody
    obtain ⟨bs, hbs, hbsword, hbssame⟩ := exists_branches hothers
    refine ⟨.conditional (fixedToken place .keywordIf) d b bs, ?_, ?_, ?_⟩
    · rw [Statement.IsEnclosed]
      exact ⟨hb, hbs⟩
    · rw [Statement.word, hdword, hbword, hbsword, statementWords, List.map_cons, List.map_append,
        List.map_append]
      rfl
    · rw [Statement.tree]
      exact same_of rfl rfl rfl (sameAll_cons hdsame (sameAll_cons hbsame hbssame))
  | @loop test body location htest hbody =>
    obtain ⟨d, hdword, hdsame⟩ := exists_test place htest
    obtain ⟨b, hb, hbword, hbsame⟩ := exists_block hbody
    refine ⟨.loop (fixedToken place .keywordWhile) d b, ?_, ?_, ?_⟩
    · rwa [Statement.IsEnclosed]
    · rw [Statement.word, hdword, hbword, statementWords, List.map_cons, List.map_append]
      rfl
    · rw [Statement.tree]
      exact same_of rfl rfl rfl (sameAll_cons hdsame (sameAll_cons hbsame rfl))
  | @giveBack value location hvalue =>
    obtain ⟨e, he, hword, hsame⟩ := exists_enclosed place hvalue
    refine ⟨.giveBack (fixedToken place .keywordReturn) e, ?_, ?_, ?_⟩
    · rwa [Statement.IsEnclosed]
    · rw [Statement.word, hword, statementWords]
      rfl
    · rw [Statement.tree]
      exact same_of rfl rfl rfl (sameAll_cons hsame rfl)
  | value hvalue =>
    obtain ⟨e, he, hword, hsame⟩ := exists_enclosed place hvalue
    refine ⟨.expression e, ?_, ?_, ?_⟩
    · rwa [Statement.IsEnclosed]
    · rw [Statement.word, hword, hvalue.statementWords_eq]
    · rwa [Statement.tree]

theorem exists_block {t : Tree} (h : RegularBlock t) : ∃ b : Block, b.IsEnclosed ∧
    b.word = (blockWords t).map (Token.placed place) ∧ t.same b.tree = true := by
  cases h with
  | @mk statements location h =>
    obtain ⟨ss, hss, hword, hsame⟩ := exists_statements fun s hs => derivesStatement (h s hs)
    refine ⟨.mk (fixedToken place .leftBrace) ss (fixedToken place .rightBrace), ?_, ?_, ?_⟩
    · rwa [Block.IsEnclosed]
    · rw [Block.word, hword, blockWords, List.map_append, List.map_cons]
      rfl
    · rw [Block.tree]
      exact same_of rfl rfl rfl hsame

theorem exists_branches {ts : List Tree} (h : RegularBranches ts) : ∃ bs : Branches,
    bs.IsEnclosed ∧ bs.word = (branchWords ts).map (Token.placed place) ∧
      sameAll ts bs.trees = true := by
  cases h with
  | none =>
    refine ⟨.nil, ?_, ?_, ?_⟩
    · rw [Branches.IsEnclosed]
      trivial
    · rw [Branches.word]
      rfl
    · rw [Branches.trees]
      rfl
  | @elseIf test body others location htest hbody hothers =>
    obtain ⟨d, hdword, hdsame⟩ := exists_test place htest
    obtain ⟨b, hb, hbword, hbsame⟩ := exists_block hbody
    obtain ⟨bs, hbs, hbsword, hbssame⟩ := exists_branches hothers
    refine ⟨.elseIf (fixedToken place .keywordElseif) d b bs, ?_, ?_, ?_⟩
    · rw [Branches.IsEnclosed]
      exact ⟨hb, hbs⟩
    · rw [Branches.word, hdword, hbword, hbsword, branchWords, List.map_append, List.map_cons,
        List.map_append]
      rfl
    · rw [Branches.trees]
      exact sameAll_cons (same_of rfl rfl rfl (sameAll_cons hdsame (sameAll_cons hbsame rfl)))
        hbssame
  | @otherwise body location hbody =>
    obtain ⟨b, hb, hbword, hbsame⟩ := exists_block hbody
    refine ⟨.otherwise (fixedToken place .keywordElse) b, ?_, ?_, ?_⟩
    · rwa [Branches.IsEnclosed]
    · rw [Branches.word, hbword, branchWords, branchWords, List.append_nil, List.map_cons]
      rfl
    · rw [Branches.trees]
      exact sameAll_cons (same_of rfl rfl rfl (sameAll_cons hbsame rfl)) rfl

end

end Grammar

open StackLang.Tree (statementsWords RegularStatement)

/-- Statements that are written are read back. -/
theorem Parser.exists_statements_written (stop : Token) {trees : List Tree}
    (h : ∀ t ∈ trees, RegularStatement t) {ts : List Token}
    (hts : ts.map Token.bare = statementsWords trees) :
    ∃ us, statements stop ts = .ok us ∧ Tree.sameAll trees us = true := by
  let place : Location := .ofPosition "" .start
  obtain ⟨d, hd, hword, hsame⟩ :=
    Grammar.exists_statements fun t ht => Grammar.derivesStatement place (h t ht)
  -- the tokens are moved to the one place at which the words were derived
  have hmoved : ts.map (Token.moved fun _ => place) = d.word := by
    rw [hword, ← hts, List.map_map]
    rfl
  have hread := statements_moved (fun _ => place) stop ts
  rw [hmoved, statements_exact _ hd] at hread
  cases hus : statements stop ts with
  | error r =>
    rw [hus] at hread
    cases hread
  | ok us =>
    rw [hus] at hread
    have htrees : d.trees = Tree.movedAll (fun _ => place) us := Except.ok.inj hread
    rw [htrees, Tree.sameAll_movedAll] at hsame
    exact ⟨us, rfl, hsame⟩

/-- A program that is written is read back. -/
theorem Parser.exists_program_written {t : Tree} (h : t.RegularProgram) (file : String)
    {ts : List Token}
    (hts : (ts.takeWhile (·.kind ≠ .endOfInput)).map Token.bare = t.written) :
    ∃ u, program file ts = .ok u ∧ t.same u = true := by
  obtain @⟨trees, location, h⟩ := h
  obtain ⟨us, hus, hsame⟩ := exists_statements_written (sentence file ts).2 h hts
  refine ⟨⟨.program, none, [], us, some (peek (sentence file ts).2 (sentence file ts).1).location⟩,
    ?_, Tree.same_of rfl rfl rfl hsame⟩
  have hread : statements (sentence file ts).2 (sentence file ts).1 = .ok us := hus
  simp only [program, hread]
  rfl

/-- The words of a program are the tokens of any text of them. -/
theorem Source.exists_tree_written {t : Tree} (h : t.RegularProgram) (file : String) {text : String}
    (htext : Token.Layout (t.written.map fun w => w.2.toList) text.toList) :
    ∃ u, tree file text = .ok u ∧ t.same u = true := by
  obtain ⟨ts, hts, hbare⟩ := Token.exists_scan_layout file h.spelt htext .start
  have hne : ∀ w ∈ t.written, decide (w.1 ≠ .endOfInput) = true := by
    intro w hw
    exact decide_eq_true (h.spelt w hw).kind_ne_end
  have hwords : (ts.takeWhile (·.kind ≠ .endOfInput)).map Token.bare = t.written := by
    rw [Token.map_bare_takeWhile, hbare, List.takeWhile_append_of_pos hne]
    exact List.append_nil _
  obtain ⟨u, hu, hsame⟩ := Parser.exists_program_written h file hwords
  refine ⟨u, ?_, hsame⟩
  simp only [tree, tokens, hts, treeOfTokens, bind, Except.bind, hu]

/-- The text of a program: its words, each behind a space. -/
def Tree.sourceText (t : Tree) : String :=
  String.ofList ((t.written.map fun w => w.2.toList).flatMap (' ' :: ·))

theorem layout_sourceText (t : Tree) :
    Token.Layout (t.written.map fun w => w.2.toList) t.sourceText.toList := by
  rw [Tree.sourceText, String.toList_ofList]
  exact Token.layout_flatMap _

/-- Writing a program and parsing it gives the program back: from its words, wherever the tokens
stand, and from any text of its words with space and comments between them. -/
theorem parse_written {t : Tree} (h : t.RegularProgram) :
    (∀ file ts, (ts.takeWhile (·.kind ≠ .endOfInput)).map Token.bare = t.written →
      ∃ u, Parser.program file ts = .ok u ∧ t.same u = true) ∧
    ∀ file text, Token.Layout (t.written.map fun w => w.2.toList) text.toList →
      ∃ u, Source.tree file text = .ok u ∧ t.same u = true :=
  ⟨fun file _ hts => Parser.exists_program_written h file hts,
    fun file _ htext => Source.exists_tree_written h file htext⟩

/-- A program in which values stand wherever they may need parentheses, and one behind the other. -/
def adjacentValues : Tree :=
  let a : Tree := { kind := .identifier, value := some "a" }
  let one : Tree := { kind := .number, value := some "1" }
  let minus (left right : Tree) : Tree :=
    { kind := .expression, attributes := [("operator", "-")], children := [left, right] }
  let times (left right : Tree) : Tree :=
    { kind := .term, attributes := [("operator", "*")], children := [left, right] }
  let negate (operand : Tree) : Tree :=
    { kind := .negate, attributes := [("operator", "-")], children := [operand] }
  let test : Tree :=
    { kind := .condition, attributes := [("operator", "<")], children := [minus a one, one] }
  { kind := .program
    children :=
      [{ kind := .function
         attributes := [("returnType", "int"), ("name", "f")]
         children :=
           [{ kind := .parameterList
              children :=
                [{ kind := .parameter, attributes := [("name", "a"), ("type", "int")] }] },
            { kind := .block
              children :=
                [{ kind := .conditional
                   children :=
                     [test,
                      { kind := .block
                        children := [{ kind := .giveBack, children := [negate (times a a)] }] },
                      { kind := .elseIf, children := [test, { kind := .block }] },
                      { kind := .otherwise, children := [{ kind := .block }] }] }] }] },
       { kind := .variableDeclaration
         attributes := [("name", "a"), ("type", "int")]
         children := [minus (minus one one) (minus one (times one one))] },
       { kind := .variableDeclaration, attributes := [("type", "bool"), ("name", "b")] },
       { kind := .assignment
         attributes := [("name", "a")]
         children := [times (minus a one) (times (negate (negate a)) one)] },
       { kind := .loop, children := [test, { kind := .block }] },
       a,
       { kind := .functionCall, attributes := [("name", "f")], children := [minus a one, one] }] }

theorem regular_adjacentValues : adjacentValues.RegularProgram := by
  have hnameA : Token.Lexeme .identifier "a".toList :=
    .identifier _ ⟨⟨'a', rfl, by decide⟩, List.all_eq_true.mp (by decide)⟩ (by decide)
  have hnameB : Token.Lexeme .identifier "b".toList :=
    .identifier _ ⟨⟨'b', rfl, by decide⟩, List.all_eq_true.mp (by decide)⟩ (by decide)
  have hnameF : Token.Lexeme .identifier "f".toList :=
    .identifier _ ⟨⟨'f', rfl, by decide⟩, List.all_eq_true.mp (by decide)⟩ (by decide)
  have ha : Tree.RegularValue { kind := .identifier, value := some "a" } := .name hnameA
  have hone : Tree.RegularValue { kind := .number, value := some "1" } :=
    .number (.number _ (by decide) (List.all_eq_true.mp (by decide)))
  have hminus {l r : Tree} (hl : l.RegularValue) (hr : r.RegularValue) : Tree.RegularValue
      { kind := .expression, attributes := [("operator", "-")], children := [l, r] } :=
    .expression (k := .minus) rfl hl hr
  have htimes {l r : Tree} (hl : l.RegularValue) (hr : r.RegularValue) : Tree.RegularValue
      { kind := .term, attributes := [("operator", "*")], children := [l, r] } :=
    .term (k := .star) rfl hl hr
  have htest {l r : Tree} (hl : l.RegularValue) (hr : r.RegularValue) : Tree.RegularCondition
      { kind := .condition, attributes := [("operator", "<")], children := [l, r] } :=
    .mk (k := .less) rfl hl hr
  have hsmall := htest (hminus ha hone) hone
  have hempty : Tree.RegularBlock { kind := .block } := .mk (by simp)
  refine .mk ?_
  simp only [List.forall_mem_cons, List.not_mem_nil, false_implies, implies_true, and_true]
  refine ⟨?_, ?_, ?_, ?_, ?_, ?_, ?_⟩
  · refine .function (k := .typeInt) hnameF rfl (.swap ..) ?_ (.mk ?_)
    · exact List.forall_mem_singleton.mpr (.mk (k := .typeInt) hnameA rfl (.refl _))
    · refine List.forall_mem_singleton.mpr (.conditional hsmall (.mk ?_) ?_)
      · exact List.forall_mem_singleton.mpr (.giveBack (.negate (htimes ha ha)))
      · exact .elseIf hsmall hempty (.otherwise hempty)
  · refine @Tree.RegularStatement.declaration "a" .typeInt _ (some _) none hnameA rfl (.refl _) ?_
    rintro v ⟨⟩
    exact hminus (hminus hone hone) (hminus hone (htimes hone hone))
  · refine @Tree.RegularStatement.declaration "b" .typeBool _ none none hnameB rfl (.swap ..) ?_
    rintro v ⟨⟩
  · exact .assignment hnameA (htimes (hminus ha hone) (htimes (.negate (.negate ha)) hone))
  · exact .loop hsmall hempty
  · exact .value ha
  · refine .value (.call hnameF ?_)
    simpa using ⟨hminus ha hone, hone⟩

theorem parse_written_adjacentValues :
    adjacentValues.RegularProgram ∧
      adjacentValues.written.map (·.2) =
        ["fn", "f", "(", "a", ":", "int", ")", "->", "int", "\x7b",
          "if", "(", "a", "-", "1", "<", "1", ")",
          "\x7b", "return", "(", "-", "(", "a", "*", "a", ")", ")", "\x7d",
          "elseif", "(", "a", "-", "1", "<", "1", ")", "\x7b", "\x7d",
          "else", "\x7b", "\x7d", "\x7d",
          "var", "a", ":", "int", "=",
          "(", "1", "-", "1", "-", "(", "1", "-", "1", "*", "1", ")", ")",
          "var", "b", ":", "bool",
          "a", "=", "(", "(", "a", "-", "1", ")", "*", "(", "-", "-", "a", "*", "1", ")", ")",
          "while", "(", "a", "-", "1", "<", "1", ")", "\x7b", "\x7d",
          "(", "a", ")", "(", "f", "(", "a", "-", "1", ",", "1", ")", ")"] ∧
      (∃ ts, (ts.takeWhile (·.kind ≠ .endOfInput)).map Token.bare = adjacentValues.written ∧
        ∃ u, Parser.program "words" ts = .ok u ∧ adjacentValues.same u = true) ∧
      Token.Layout (adjacentValues.written.map fun w => w.2.toList)
        adjacentValues.sourceText.toList ∧
      ∃ u, Source.tree "text" adjacentValues.sourceText = .ok u ∧ adjacentValues.same u = true := by
  obtain ⟨hwords, htext⟩ := parse_written regular_adjacentValues
  have hlayout := layout_sourceText adjacentValues
  let ts := adjacentValues.written.map (Token.placed (.ofPosition "words" .start))
  have hts : (ts.takeWhile (·.kind ≠ .endOfInput)).map Token.bare = adjacentValues.written := by
    decide +kernel
  exact ⟨regular_adjacentValues, by decide +kernel, ⟨ts, hts, hwords "words" ts hts⟩, hlayout,
    htext "text" adjacentValues.sourceText hlayout⟩

end StackLang
