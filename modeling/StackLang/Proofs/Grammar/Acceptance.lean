import StackLang.Proofs.Grammar.Complete

/-!
# The parser accepts exactly its grammar

A token list is read if and only if its tokens before the end of the input are the word of a
derivation, and the tree that is built is the tree of such a derivation. Every name and every number
of the word stands in the tree once, in the order of the word.
-/

namespace StackLang

open Token (Kind)

/-- The texts that a tree spells, node after node: the name of a node and its value. -/
def Tree.spellings (t : Tree) : List String :=
  t.walk.flatMap fun n => (n.get? "name").toList ++ n.value.toList

theorem Tree.walkAll_eq_flatMap (ts : List Tree) : walkAll ts = ts.flatMap walk := by
  induction ts with
  | nil => rfl
  | cons t ts ih => rw [walkAll, ih, List.flatMap_cons]

/-- A node spells its own texts before those of its children. -/
theorem Tree.spellings_mk (kind : Kind) (value : Option String) (attributes : Attributes)
    (children : List Tree) (location : Option Location) :
    spellings ⟨kind, value, attributes, children, location⟩ =
      (attributes.get? "name").toList ++ value.toList ++ children.flatMap spellings := by
  rw [spellings, walk, List.flatMap_cons, walkAll_eq_flatMap, List.flatMap_assoc]
  rfl

namespace Grammar

/-- The kinds of the tokens that have a text of their own. -/
def isOperand : Kind → Bool
  | .identifier | .number => true
  | _ => false

/-- The texts of the names and numbers among tokens. -/
def operands (ts : List Token) : List String :=
  (ts.filter (isOperand ·.kind)).map Token.lexeme

@[simp] theorem operands_nil : operands [] = [] := rfl

@[simp] theorem operands_append (ts us : List Token) :
    operands (ts ++ us) = operands ts ++ operands us := by
  rw [operands, List.filter_append, List.map_append]
  rfl

theorem operands_cons_of_operand {t : Token} (h : isOperand t.kind = true) (ts : List Token) :
    operands (t :: ts) = t.lexeme :: operands ts := by
  simp only [operands, List.filter_cons, h, if_true, List.map_cons]

theorem operands_cons_of_not {t : Token} (h : isOperand t.kind = false) (ts : List Token) :
    operands (t :: ts) = operands ts := by
  simp [operands, h]

@[simp] theorem operands_cons_name (t : Of .identifier) (ts : List Token) :
    operands (t.1 :: ts) = t.1.lexeme :: operands ts :=
  operands_cons_of_operand (by rw [t.2]; rfl) ts

/-- A token of a kind that has no text of its own adds nothing. -/
theorem operands_cons_of {k : Kind} (h : isOperand k = false) (t : Of k) (ts : List Token) :
    operands (t.1 :: ts) = operands ts :=
  operands_cons_of_not (by rw [t.2]; exact h) ts

/-- Operators and types are no operands. -/
theorem isOperand_eq_false {k : Kind}
    (h : (k.isAdditive || k.isMultiplicative || k.isComparison || k.isType) = true) :
    isOperand k = false := by
  cases k <;> first | rfl | cases h

theorem operands_cons_operator {p : Kind → Bool}
    (h : ∀ k, p k = true →
      (k.isAdditive || k.isMultiplicative || k.isComparison || k.isType) = true)
    (t : OneOf p) (ts : List Token) : operands (t.1 :: ts) = operands ts :=
  operands_cons_of_not (isOperand_eq_false (h _ t.2)) ts

/-! ## Texts of trees -/

theorem spellings_binaryNode (kind : Tree.Kind) (operator : Token) (left right : Tree) :
    (Parser.binaryNode kind operator left right).spellings = left.spellings ++ right.spellings := by
  rw [Parser.binaryNode, Tree.spellings_mk]
  simp [Tree.Attributes.get?]

theorem spellings_plainNode (kind : Tree.Kind) (location : Location) (children : List Tree) :
    (plainNode kind location children).spellings = children.flatMap Tree.spellings := by
  rw [plainNode, Tree.spellings_mk]
  simp [Tree.Attributes.get?]

mutual

theorem Factor.spellings_tree (f : Factor) : f.tree.spellings = operands f.word := by
  cases f with
  | parenthesised left inner right =>
    rw [Factor.tree, Factor.word, List.cons_append, operands_cons_of rfl, operands_append,
      operands_cons_of rfl, inner.spellings_tree, operands_nil, List.append_nil]
  | negative sign operand =>
    rw [Factor.tree, Factor.word, operands_cons_of rfl, ← operand.spellings_tree, negationNode,
      Tree.spellings_mk]
    simp [Tree.Attributes.get?]
  | number digits =>
    rw [Factor.tree, Factor.word, operands_cons_of_operand (by rw [digits.2]; rfl), numberNode,
      Tree.spellings_mk]
    rfl
  | name token =>
    rw [Factor.tree, Factor.word, operands_cons_name, variableNode, Tree.spellings_mk]
    rfl
  | call name left arguments right =>
    rw [Factor.tree, Factor.word, List.cons_append, operands_cons_name, List.cons_append,
      operands_cons_of rfl, operands_append, ← arguments.spellings_trees, operands_cons_of rfl,
      callNode, Tree.spellings_mk]
    simp [Tree.Attributes.get?]

theorem Term.spellings_tree (t : Term) : t.tree.spellings = operands t.word := by
  cases t with
  | mk first others =>
    rw [Term.tree, Term.word, others.spellings_treeFrom, first.spellings_tree, operands_append]

theorem Factors.spellings_treeFrom (left : Tree) (fs : Factors) :
    (fs.treeFrom left).spellings = left.spellings ++ operands fs.word := by
  cases fs with
  | nil => simp [Factors.treeFrom, Factors.word]
  | cons operator next others =>
    rw [Factors.treeFrom, Factors.word, others.spellings_treeFrom, spellings_binaryNode,
      next.spellings_tree, List.cons_append, operands_cons_operator (by simp +contextual),
      operands_append, List.append_assoc]

theorem Expression.spellings_tree (e : Expression) : e.tree.spellings = operands e.word := by
  cases e with
  | mk first others =>
    rw [Expression.tree, Expression.word, others.spellings_treeFrom, first.spellings_tree,
      operands_append]

theorem Terms.spellings_treeFrom (left : Tree) (ts : Terms) :
    (ts.treeFrom left).spellings = left.spellings ++ operands ts.word := by
  cases ts with
  | nil => simp [Terms.treeFrom, Terms.word]
  | cons operator next others =>
    rw [Terms.treeFrom, Terms.word, others.spellings_treeFrom, spellings_binaryNode,
      next.spellings_tree, List.cons_append, operands_cons_operator (by simp +contextual),
      operands_append, List.append_assoc]

theorem Arguments.spellings_trees (as : Arguments) :
    as.trees.flatMap Tree.spellings = operands as.word := by
  cases as with
  | none => rfl
  | some first others =>
    rw [Arguments.trees, Arguments.word, List.flatMap_cons, first.spellings_tree,
      others.spellings_trees, operands_append]

theorem MoreArguments.spellings_trees (as : MoreArguments) :
    as.trees.flatMap Tree.spellings = operands as.word := by
  cases as with
  | nil => rfl
  | cons comma next others =>
    rw [MoreArguments.trees, MoreArguments.word, List.flatMap_cons, next.spellings_tree,
      others.spellings_trees, List.cons_append, operands_cons_of rfl, operands_append]

end

theorem Condition.spellings_tree (c : Condition) : c.tree.spellings = operands c.word := by
  rw [Condition.tree, Condition.word, spellings_binaryNode, c.left.spellings_tree,
    c.right.spellings_tree, operands_append, operands_cons_operator (by simp +contextual)]

theorem Test.operands_word (t : Test) : operands t.word = t.condition.tree.spellings := by
  rw [Test.word, List.cons_append, operands_cons_of rfl, operands_append, operands_cons_of rfl,
    ← t.condition.spellings_tree, operands_nil, List.append_nil]

theorem Parameter.spellings_tree (p : Parameter) : p.tree.spellings = operands p.word := by
  rw [Parameter.tree, Parameter.word, operands_cons_name, operands_cons_of rfl,
    operands_cons_operator (by simp +contextual), parameterNode, Tree.spellings_mk]
  rfl

theorem spellings_moreParameters (ps : List (Of .comma × Parameter)) :
    (ps.map (·.2.tree)).flatMap Tree.spellings = operands (moreParametersWord ps) := by
  induction ps with
  | nil => rfl
  | cons p ps ih =>
    have hword : moreParametersWord (p :: ps) = p.1.1 :: (p.2.word ++ moreParametersWord ps) := rfl
    rw [List.map_cons, List.flatMap_cons, ih, p.2.spellings_tree, hword, operands_cons_of rfl,
      operands_append]

theorem Parameters.spellings_trees (ps : Parameters) :
    ps.trees.flatMap Tree.spellings = operands ps.word := by
  cases ps with
  | none => rfl
  | some first others =>
    rw [Parameters.trees, Parameters.word, List.flatMap_cons, first.spellings_tree,
      spellings_moreParameters, operands_append]

theorem spellings_functionNode (location : Location) (name : String) (parameters : Tree)
    (type : String) (body : Tree) :
    (functionNode location name parameters type body).spellings =
      name :: (parameters.spellings ++ body.spellings) := by
  rw [functionNode, Tree.spellings_mk]
  simp [Tree.Attributes.get?]

theorem spellings_parametersNode (location : Location) (parameters : List Tree) :
    (parametersNode location parameters).spellings = parameters.flatMap Tree.spellings := by
  rw [parametersNode, Tree.spellings_mk]
  simp [Tree.Attributes.get?]

theorem spellings_declarationNode (location : Location) (name type : String)
    (value : Option Tree) :
    (declarationNode location name type value).spellings =
      name :: value.toList.flatMap Tree.spellings := by
  rw [declarationNode, Tree.spellings_mk]
  simp [Tree.Attributes.get?]

theorem spellings_assignmentNode (location : Location) (name : String) (value : Tree) :
    (assignmentNode location name value).spellings = name :: value.spellings := by
  rw [assignmentNode, Tree.spellings_mk]
  simp [Tree.Attributes.get?]

theorem operands_valueWord (value : Option (Of .assign × Expression)) :
    operands (valueWord value) = (value.map (·.2.tree)).toList.flatMap Tree.spellings := by
  cases value with
  | none => rfl
  | some v =>
    rw [valueWord, operands_cons_of rfl, ← v.2.spellings_tree]
    simp

mutual

theorem Statement.spellings_tree (s : Statement) : s.tree.spellings = operands s.word := by
  cases s with
  | function word name left parameters right arrow type body =>
    rw [Statement.tree, Statement.word, spellings_functionNode, spellings_parametersNode,
      parameters.spellings_trees, body.spellings_tree, operands_cons_of rfl, operands_cons_name,
      operands_cons_of rfl, operands_append, operands_cons_of rfl, operands_cons_of rfl,
      operands_cons_operator (by simp +contextual)]
  | declaration word name colon type value =>
    rw [Statement.tree, Statement.word, spellings_declarationNode, operands_cons_of rfl,
      operands_cons_name, operands_cons_of rfl, operands_cons_operator (by simp +contextual),
      operands_valueWord]
  | conditional word test body others =>
    rw [Statement.tree, Statement.word, spellings_plainNode, List.flatMap_cons, List.flatMap_cons,
      body.spellings_tree, others.spellings_trees, operands_cons_of rfl, operands_append,
      operands_append, test.operands_word, List.append_assoc]
  | loop word test body =>
    rw [Statement.tree, Statement.word, spellings_plainNode, List.flatMap_cons, List.flatMap_cons,
      body.spellings_tree, operands_cons_of rfl, operands_append, test.operands_word,
      List.flatMap_nil, List.append_nil]
  | giveBack word value =>
    rw [Statement.tree, Statement.word, spellings_plainNode, List.flatMap_cons,
      value.spellings_tree, operands_cons_of rfl, List.flatMap_nil, List.append_nil]
  | assignment name sign value =>
    rw [Statement.tree, Statement.word, spellings_assignmentNode, value.spellings_tree,
      operands_cons_name, operands_cons_of rfl]
  | expression value => rw [Statement.tree, Statement.word, value.spellings_tree]

theorem Block.spellings_tree (b : Block) : b.tree.spellings = operands b.word := by
  cases b with
  | mk left statements right =>
    rw [Block.tree, Block.word, spellings_plainNode, statements.spellings_trees, List.cons_append,
      operands_cons_of rfl, operands_append, operands_cons_of rfl, operands_nil, List.append_nil]

theorem Statements.spellings_trees (ss : Statements) :
    ss.trees.flatMap Tree.spellings = operands ss.word := by
  cases ss with
  | nil => rfl
  | cons first others =>
    rw [Statements.trees, Statements.word, List.flatMap_cons, first.spellings_tree,
      others.spellings_trees, operands_append]

theorem Branches.spellings_trees (bs : Branches) :
    bs.trees.flatMap Tree.spellings = operands bs.word := by
  cases bs with
  | nil => rfl
  | elseIf word test body others =>
    rw [Branches.trees, Branches.word, List.flatMap_cons, spellings_plainNode, List.flatMap_cons,
      List.flatMap_cons, List.flatMap_nil, List.append_nil, body.spellings_tree,
      others.spellings_trees, operands_cons_of rfl, operands_append, operands_append,
      test.operands_word]
  | otherwise word body =>
    rw [Branches.trees, Branches.word, List.flatMap_cons, spellings_plainNode, List.flatMap_cons,
      List.flatMap_nil, List.append_nil, List.append_nil, body.spellings_tree,
      operands_cons_of rfl]

end

/-! ## Whole programs -/

/-- A program is read if its statements are. -/
theorem program_eq_ok_iff {file : String} {ts : List Token} {t : Tree} :
    Parser.program file ts = .ok t ↔
      ∃ v, Parser.statements (Parser.sentence file ts).2 (Parser.sentence file ts).1 = .ok v ∧
        t = plainNode .program (Parser.peek (Parser.sentence file ts).2
          (Parser.sentence file ts).1).location v := by
  have hprogram : Parser.program file ts =
      (Parser.statements (Parser.sentence file ts).2 (Parser.sentence file ts).1).bind fun v =>
        .ok (plainNode .program (Parser.peek (Parser.sentence file ts).2
          (Parser.sentence file ts).1).location v) := rfl
  rw [hprogram, Parser.bind_eq_ok]
  simp only [Except.ok.injEq, eq_comm]

theorem Statements.spellings_program (stop : Token) (ss : Statements) :
    (ss.program stop).spellings = operands ss.word := by
  rw [Statements.program, spellings_plainNode, ss.spellings_trees]

/-- What is read is the tree of a derivation. -/
theorem exists_derivation_of_program {file : String} {ts : List Token} {t : Tree}
    (h : Parser.program file ts = .ok t) :
    ∃ d : Statements, d.word = (Parser.sentence file ts).1 ∧
      t = d.program (Parser.sentence file ts).2 := by
  obtain ⟨v, hv, rfl⟩ := program_eq_ok_iff.mp h
  obtain ⟨d, hword, rfl⟩ := Parser.statements_sound hv
  exact ⟨d, hword.symm, by rw [Statements.program, ← hword]⟩

theorem exists_program_iff {file : String} {ts : List Token} :
    (∃ t, Parser.program file ts = .ok t) ↔
      ∃ d : Statements, d.word = (Parser.sentence file ts).1 := by
  constructor
  · rintro ⟨t, ht⟩
    obtain ⟨d, hd, -⟩ := exists_derivation_of_program ht
    exact ⟨d, hd⟩
  · rintro ⟨d, hd⟩
    obtain ⟨v, hv⟩ := Parser.statements_complete (Parser.sentence file ts).2 d
    rw [hd] at hv
    exact ⟨_, program_eq_ok_iff.mpr ⟨v, hv, rfl⟩⟩

/-- A refusal names a missing token or an unexpected one. -/
theorem cause_eq (r : Parser.Refusal) :
    (∃ expected found, r.cause = .missingToken expected found) ∨
      ∃ found expected, r.cause = .unexpectedToken found expected := by
  unfold Parser.Refusal.cause
  split
  · exact .inr ⟨_, _, rfl⟩
  · exact .inr ⟨_, _, rfl⟩
  · exact .inl ⟨_, _, rfl⟩

/-- Of the tokens that do not belong to the word of a program, only the first is looked at. -/
theorem program_eq_program_take (file : String) (ts : List Token) :
    Parser.program file ts =
      Parser.program file
        (ts.takeWhile (·.kind ≠ .endOfInput) ++ (ts.find? (·.kind = .endOfInput)).toList) := by
  have hword : ∀ t ∈ ts.takeWhile (·.kind ≠ .endOfInput), decide (t.kind ≠ .endOfInput) = true :=
    fun t ht => List.all_eq_true.mp List.all_takeWhile t ht
  have hnone : (ts.takeWhile (·.kind ≠ .endOfInput)).find? (·.kind = .endOfInput) = none :=
    List.find?_eq_none.mpr fun t ht => by simpa using hword t ht
  have hsentence : Parser.sentence file ts = Parser.sentence file
      (ts.takeWhile (·.kind ≠ .endOfInput) ++ (ts.find? (·.kind = .endOfInput)).toList) := by
    rw [Parser.sentence, Parser.sentence, List.takeWhile_append_of_pos hword, List.find?_append,
      hnone]
    cases hfind : ts.find? (·.kind = .endOfInput) with
    | none => simp
    | some stop =>
      have hstop : stop.kind = .endOfInput := by simpa using List.find?_some hfind
      simp [hstop]
  rw [Parser.program, Parser.program, hsentence]

/-- The parser reads a token list exactly if its tokens before the first end of the input are the
word of a derivation. Then it builds the tree of a derivation of that word, in which the names and
the numbers of the word stand once each and in order; otherwise it says which token is missing or
unexpected. Tokens after the first end of the input do not matter. -/
theorem program_accepts_exactly (file : String) (ts : List Token) :
    ((∃ t, Parser.program file ts = .ok t) ↔
      ∃ d : Statements, d.word = ts.takeWhile (·.kind ≠ .endOfInput)) ∧
    (match Parser.program file ts with
      | .ok t =>
        (∃ d : Statements, d.word = ts.takeWhile (·.kind ≠ .endOfInput) ∧
          t = d.program (Parser.sentence file ts).2) ∧
        t.spellings = operands (ts.takeWhile (·.kind ≠ .endOfInput))
      | .error r =>
        (∃ expected found, r.cause = .missingToken expected found) ∨
          ∃ found expected, r.cause = .unexpectedToken found expected) ∧
    Parser.program file ts =
      Parser.program file
        (ts.takeWhile (·.kind ≠ .endOfInput) ++ (ts.find? (·.kind = .endOfInput)).toList) := by
  refine ⟨exists_program_iff, ?_, program_eq_program_take file ts⟩
  cases h : Parser.program file ts with
  | error r => exact cause_eq r
  | ok t =>
    obtain ⟨d, hd, rfl⟩ := exists_derivation_of_program h
    refine ⟨⟨d, hd, rfl⟩, ?_⟩
    rw [d.spellings_program, hd]
    rfl

end Grammar
end StackLang
