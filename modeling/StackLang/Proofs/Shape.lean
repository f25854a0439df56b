import StackLang.Proofs.Grammar.Acceptance
import StackLang.Script.OfTree
import StackLang.Source

/-!
# Shapes of parsed trees

What the nodes of a parsed source text look like: their kinds, attributes and children. Operators
are those of the operator table and numbers are runs of digits, because the tokens come from a text.
Each shape says how its node is read.
-/

namespace StackLang

open Grammar (plainNode declarationNode assignmentNode functionNode parametersNode)

/-! ## Tokens of a text -/

namespace Token

/-- A token as a text can give it: numbers are digits, and operators have their spelling. -/
structure Genuine (t : Token) : Prop where
  digits : t.kind = .number → t.lexeme ≠ "" ∧ ∀ c ∈ t.lexeme.toList, Text.isAsciiDigit c = true
  spelt : t.kind ≠ .identifier → t.kind ≠ .number → t.kind ≠ .endOfInput →
    t.lexeme = t.kind.spelling

private theorem spelling_of_operator? {cs lexeme rest : List Char} {k : Kind}
    (h : operator? cs = some (k, lexeme, rest)) :
    k ≠ .number ∧ String.ofList lexeme = k.spelling := by
  unfold operator? at h
  split at h <;> simp only [Option.some.injEq, Prod.mk.injEq, reduceCtorEq] at h
  all_goals
    obtain ⟨rfl, rfl, -⟩ := h
    exact ⟨by decide, by decide⟩

private theorem spelling_ofWord {word : String} (h : Kind.ofWord word ≠ .identifier) :
    Kind.ofWord word ≠ .number ∧ word = (Kind.ofWord word).spelling := by
  unfold Kind.ofWord at h ⊢
  cases hfind : Kind.keywords.find? (·.spelling = word) with
  | none => simp [hfind] at h
  | some k =>
    have hmem : k ∈ Kind.keywords := List.mem_of_find?_eq_some hfind
    have hspelling : k.spelling = word := by simpa using List.find?_some hfind
    refine ⟨?_, hspelling.symm⟩
    rintro rfl
    exact absurd hmem (by decide)

/-- The longest token at the start of a text is genuine, wherever the text stands. -/
theorem genuine_of_munch {cs lexeme rest : List Char} {k : Kind} (location : Location)
    (h : munch cs = some (k, lexeme, rest)) : Genuine ⟨k, String.ofList lexeme, location⟩ := by
  have hne : lexeme ≠ [] := (munch_append h).2
  unfold munch at h
  split at h
  · cases h
  · split at h
    · -- A word is an identifier or a keyword, and a keyword is what its spelling says.
      simp only [Option.some.injEq, Prod.mk.injEq] at h
      obtain ⟨rfl, rfl, -⟩ := h
      constructor
      · intro hnumber
        change Kind.ofWord _ = .number at hnumber
        exact absurd hnumber (spelling_ofWord (by rw [hnumber]; decide)).1
      · intro hidentifier _ _
        exact (spelling_ofWord hidentifier).2
    · split at h
      · simp only [Option.some.injEq, Prod.mk.injEq] at h
        obtain ⟨rfl, rfl, -⟩ := h
        constructor
        · intro _
          refine ⟨fun hempty => hne (by simpa using hempty), fun c hc => ?_⟩
          exact List.all_eq_true.mp List.all_takeWhile c (by simpa using hc)
        · intro _ hnumber _
          exact absurd rfl hnumber
      · obtain ⟨hnumber, hspelling⟩ := spelling_of_operator? h
        exact ⟨fun hk => absurd hk hnumber, fun _ _ _ => hspelling⟩

/-- All tokens of a text are genuine. -/
theorem genuine_of_scan {file : String} {p : Position} {cs : List Char} {ts : List Token}
    (h : scan file p cs = .ok ts) : ∀ t ∈ ts, t.Genuine := by
  induction hn : cs.length using Nat.strongRecOn generalizing p cs ts with
  | _ n ih =>
    rw [scan] at h
    split at h
    · rename_i q _
      obtain rfl := Except.ok.inj h
      intro t ht
      obtain rfl := List.mem_singleton.mp ht
      exact ⟨fun hk => (by cases hk), fun _ _ hk => absurd rfl hk⟩
    · rename_i q c rest hgap
      split at h
      · cases h
      · rename_i kind lexeme after hmunch
        have hle := length_skipGap_le p cs
        obtain ⟨happend, hne⟩ := munch_append hmunch
        have hpos := List.length_pos_iff.mpr hne
        have hlen := congrArg List.length happend
        rw [hgap] at hle
        simp only [List.length_append, List.length_cons] at hlen hle
        split at h
        · cases h
        · rename_i us hscan
          obtain rfl := Except.ok.inj h
          intro t ht
          rcases List.mem_cons.mp ht with rfl | ht
          · exact genuine_of_munch _ hmunch
          · exact ih after.length (by omega) hscan rfl t ht

end Token

/-! ## Values and conditions -/

namespace Tree

/-- The operators that stand at nodes of a kind. -/
def Kind.takes : Kind → Operator → Bool
  | .expression, .add | .expression, .sub => true
  | .term, .mul | .term, .div => true
  | .condition, op => !(op matches .add | .sub | .mul | .div)
  | _, _ => false

/-- The node of an operator with its operands. -/
def operatorNode (kind : Kind) (op : Operator) (left right : Tree) (location : Option Location) :
    Tree :=
  { kind, attributes := [("operator", op.spelling)], children := [left, right], location }

/-- The shapes of nodes that stand for values. -/
inductive IsValue : Tree → Prop
  | number (digits : String) (location : Option Location) (hne : digits ≠ "")
      (hdigits : ∀ c ∈ digits.toList, Text.isAsciiDigit c = true) :
      IsValue { kind := .number, value := some digits, location }
  | name (name : String) (location : Option Location) :
      IsValue { kind := .identifier, value := some name, location }
  | negate (operand : Tree) (location : Option Location) (h : IsValue operand) :
      IsValue
        { kind := .negate, attributes := [("operator", "-")], children := [operand], location }
  | operator (kind : Kind) (op : Operator) (left right : Tree) (location : Option Location)
      (hkind : kind ≠ .condition) (htakes : kind.takes op = true) (hleft : IsValue left)
      (hright : IsValue right) : IsValue (operatorNode kind op left right location)
  | call (name : String) (arguments : List Tree) (location : Option Location)
      (h : ∀ a ∈ arguments, IsValue a) :
      IsValue { kind := .functionCall, attributes := [("name", name)], children := arguments,
                location }

/-- The shape of nodes that stand for conditions. -/
inductive IsCondition : Tree → Prop
  | mk (op : Operator) (left right : Tree) (location : Option Location)
      (htakes : Kind.condition.takes op = true) (hleft : IsValue left) (hright : IsValue right) :
      IsCondition (operatorNode .condition op left right location)

/-! ## Statements -/

/-- A parameter as it is written. -/
structure Formal where
  name : String
  type : String
  location : Location

/-- The node of a parameter. -/
def Formal.tree (p : Formal) : Tree :=
  { kind := .parameter, attributes := [("name", p.name), ("type", p.type)],
    location := some p.location }

/-- The node of a block. -/
def blockNode (location : Location) (statements : List Tree) : Tree :=
  plainNode .block location statements

/-- The branches of a conditional after its first one. -/
inductive Chain where
  | none
  | otherwise (location place : Location) (body : List Tree)
  | elseIf (location place : Location) (condition : Tree) (body : List Tree) (rest : Chain)

namespace Chain

/-- The nodes of the branches. -/
def trees : Chain → List Tree
  | none => []
  | otherwise location place body => [plainNode .otherwise location [blockNode place body]]
  | elseIf location place condition body rest =>
    plainNode .elseIf location [condition, blockNode place body] :: rest.trees

/-- The conditions of the branches. -/
def conditions : Chain → List Tree
  | none | otherwise _ _ _ => []
  | elseIf _ _ condition _ rest => condition :: rest.conditions

/-- The statements in the branches. -/
def statements : Chain → List Tree
  | none => []
  | otherwise _ _ body => body
  | elseIf _ _ _ body rest => body ++ rest.statements

end Chain

/-- The shapes of nodes that stand for statements. -/
inductive IsStatement : Tree → Prop
  | function (location start place : Location) (name type : String) (parameters : List Formal)
      (body : List Tree) (h : ∀ s ∈ body, IsStatement s) :
      IsStatement (functionNode location name (parametersNode start (parameters.map Formal.tree))
        type (blockNode place body))
  | declaration (location : Location) (name type : String) (value : Option Tree)
      (h : ∀ v ∈ value, IsValue v) : IsStatement (declarationNode location name type value)
  | assignment (location : Location) (name : String) (value : Tree) (h : IsValue value) :
      IsStatement (assignmentNode location name value)
  | conditional (location place : Location) (condition : Tree) (body : List Tree) (rest : Chain)
      (hcondition : IsCondition condition) (hbody : ∀ s ∈ body, IsStatement s)
      (hconditions : ∀ c ∈ rest.conditions, IsCondition c)
      (hrest : ∀ s ∈ rest.statements, IsStatement s) :
      IsStatement (plainNode .conditional location
        (condition :: blockNode place body :: rest.trees))
  | loop (location place : Location) (condition : Tree) (body : List Tree)
      (hcondition : IsCondition condition) (hbody : ∀ s ∈ body, IsStatement s) :
      IsStatement (plainNode .loop location [condition, blockNode place body])
  | giveBack (location : Location) (value : Tree) (h : IsValue value) :
      IsStatement (plainNode .giveBack location [value])
  | value (t : Tree) (h : IsValue t) : IsStatement t

end Tree

/-! ## Derivations of genuine tokens -/

namespace Grammar

open StackLang.Tree

/-- The operator that tokens of a kind spell, if they spell one. -/
def operatorOf : Token.Kind → Operator
  | .minus => .sub
  | .star => .mul
  | .slash => .div
  | .equal => .equal
  | .notEqual => .notEqual
  | .less => .less
  | .greater => .greater
  | .lessEqual => .lessEqual
  | .greaterEqual => .greaterEqual
  | _ => .add

private theorem exists_operator {t : Token} (ht : t.Genuine) (kind : Tree.Kind)
    (h : kind = .expression ∧ t.kind.isAdditive = true ∨
      kind = .term ∧ t.kind.isMultiplicative = true ∨
      kind = .condition ∧ t.kind.isComparison = true) :
    ∃ op : Operator, kind.takes op = true ∧ t.lexeme = op.spelling := by
  have hspelt : t.lexeme = t.kind.spelling := by
    apply ht.spelt
    all_goals
      intro hk
      simp [hk, Token.Kind.isAdditive, Token.Kind.isMultiplicative, Token.Kind.isComparison] at h
  rw [hspelt]
  generalize t.kind = k at h
  refine ⟨operatorOf k, ?_⟩
  rcases h with ⟨rfl, hk⟩ | ⟨rfl, hk⟩ | ⟨rfl, hk⟩
  all_goals cases k <;> first | exact ⟨rfl, rfl⟩ | cases hk

/-- The node of an operator token is that of an operator. -/
private theorem exists_operatorNode {t : Token} (ht : t.Genuine) (kind : Tree.Kind)
    (left right : Tree)
    (h : kind = .expression ∧ t.kind.isAdditive = true ∨
      kind = .term ∧ t.kind.isMultiplicative = true ∨
      kind = .condition ∧ t.kind.isComparison = true) :
    ∃ op : Operator, kind.takes op = true ∧
      Parser.binaryNode kind t left right = operatorNode kind op left right left.location := by
  obtain ⟨op, htakes, hlexeme⟩ := exists_operator ht kind h
  exact ⟨op, htakes, by rw [Parser.binaryNode, operatorNode, hlexeme]⟩

mutual

theorem Factor.isValue (f : Factor) (h : ∀ t ∈ f.word, t.Genuine) : IsValue f.tree := by
  cases f with
  | parenthesised left inner right =>
    rw [Factor.word] at h
    rw [Factor.tree]
    exact inner.isValue fun t ht => h t (by simp [ht])
  | negative sign operand =>
    rw [Factor.word] at h
    rw [Factor.tree]
    exact .negate _ _ (operand.isValue fun t ht => h t (by simp [ht]))
  | number digits =>
    obtain ⟨hne, hdigits⟩ := (h digits.1 (by simp [Factor.word])).digits digits.2
    rw [Factor.tree]
    exact .number _ _ hne hdigits
  | name token =>
    rw [Factor.tree]
    exact .name _ _
  | call name left arguments right =>
    rw [Factor.word] at h
    rw [Factor.tree]
    exact .call _ _ _ (arguments.areValues fun t ht => h t (by simp [ht]))

theorem Term.isValue (t : Term) (h : ∀ u ∈ t.word, u.Genuine) : IsValue t.tree := by
  cases t with
  | mk first others =>
    rw [Term.word] at h
    rw [Term.tree]
    exact others.isValue_treeFrom (first.isValue fun u hu => h u (by simp [hu]))
      fun u hu => h u (by simp [hu])

theorem Factors.isValue_treeFrom {left : Tree} (hleft : IsValue left) (fs : Factors)
    (h : ∀ t ∈ fs.word, t.Genuine) : IsValue (fs.treeFrom left) := by
  cases fs with
  | nil =>
    rw [Factors.treeFrom]
    exact hleft
  | cons operator next others =>
    rw [Factors.word] at h
    rw [Factors.treeFrom]
    have hnext : IsValue next.tree := next.isValue fun t ht => h t (by simp [ht])
    obtain ⟨op, htakes, hnode⟩ := exists_operatorNode (h operator.1 (by simp)) .term left next.tree
      (.inr (.inl ⟨rfl, operator.2⟩))
    rw [hnode]
    exact others.isValue_treeFrom (.operator _ _ _ _ _ (by decide) htakes hleft hnext)
      fun t ht => h t (by simp [ht])

theorem Expression.isValue (e : Expression) (h : ∀ t ∈ e.word, t.Genuine) : IsValue e.tree := by
  cases e with
  | mk first others =>
    rw [Expression.word] at h
    rw [Expression.tree]
    exact others.isValue_treeFrom (first.isValue fun t ht => h t (by simp [ht]))
      fun t ht => h t (by simp [ht])

theorem Terms.isValue_treeFrom {left : Tree} (hleft : IsValue left) (ts : Terms)
    (h : ∀ t ∈ ts.word, t.Genuine) : IsValue (ts.treeFrom left) := by
  cases ts with
  | nil =>
    rw [Terms.treeFrom]
    exact hleft
  | cons operator next others =>
    rw [Terms.word] at h
    rw [Terms.treeFrom]
    have hnext : IsValue next.tree := next.isValue fun t ht => h t (by simp [ht])
    obtain ⟨op, htakes, hnode⟩ := exists_operatorNode (h operator.1 (by simp)) .expression left
      next.tree (.inl ⟨rfl, operator.2⟩)
    rw [hnode]
    exact others.isValue_treeFrom (.operator _ _ _ _ _ (by decide) htakes hleft hnext)
      fun t ht => h t (by simp [ht])

theorem Arguments.areValues (as : Arguments) (h : ∀ t ∈ as.word, t.Genuine) :
    ∀ a ∈ as.trees, IsValue a := by
  cases as with
  | none => simp [Arguments.trees]
  | some first others =>
    rw [Arguments.word] at h
    rw [Arguments.trees]
    refine List.forall_mem_cons.mpr ⟨?_, ?_⟩
    · exact first.isValue fun t ht => h t (by simp [ht])
    · exact others.areValues fun t ht => h t (by simp [ht])

theorem MoreArguments.areValues (as : MoreArguments) (h : ∀ t ∈ as.word, t.Genuine) :
    ∀ a ∈ as.trees, IsValue a := by
  cases as with
  | nil => simp [MoreArguments.trees]
  | cons comma next others =>
    rw [MoreArguments.word] at h
    rw [MoreArguments.trees]
    refine List.forall_mem_cons.mpr ⟨?_, ?_⟩
    · exact next.isValue fun t ht => h t (by simp [ht])
    · exact others.areValues fun t ht => h t (by simp [ht])

end

theorem Condition.isCondition (c : Condition) (h : ∀ t ∈ c.word, t.Genuine) :
    IsCondition c.tree := by
  rw [Condition.word] at h
  have hleft : IsValue c.left.tree := c.left.isValue fun t ht => h t (by simp [ht])
  have hright : IsValue c.right.tree := c.right.isValue fun t ht => h t (by simp [ht])
  obtain ⟨op, htakes, hnode⟩ := exists_operatorNode (h c.operator.1 (by simp)) .condition
    c.left.tree c.right.tree (.inr (.inr ⟨rfl, c.operator.2⟩))
  rw [Condition.tree, hnode]
  exact .mk _ _ _ _ htakes hleft hright

theorem Test.isCondition (t : Test) (h : ∀ u ∈ t.word, u.Genuine) :
    IsCondition t.condition.tree := by
  rw [Test.word] at h
  exact t.condition.isCondition fun u hu => h u (by simp [hu])

/-- A parameter as it is written. -/
def Parameter.formal (p : Parameter) : Formal :=
  ⟨p.name.1.lexeme, p.type.1.lexeme, p.name.1.location⟩

theorem Parameters.exists_formals (ps : Parameters) :
    ∃ formals : List Formal, ps.trees = formals.map Formal.tree := by
  cases ps with
  | none => exact ⟨[], rfl⟩
  | some first others =>
    refine ⟨first.formal :: others.map (·.2.formal), ?_⟩
    rw [Parameters.trees, List.map_cons, List.map_map]
    rfl

mutual

theorem Statement.isStatement (s : Statement) (h : ∀ t ∈ s.word, t.Genuine) :
    IsStatement s.tree := by
  cases s with
  | function word name left parameters right arrow type body =>
    rw [Statement.word] at h
    obtain ⟨formals, hformals⟩ := parameters.exists_formals
    obtain ⟨place, statements, hbody, hstatements⟩ :=
      body.isBlock fun t ht => h t (by simp [ht])
    rw [Statement.tree, hformals, hbody]
    exact .function _ _ _ _ _ _ _ hstatements
  | declaration word name colon type value =>
    rw [Statement.word] at h
    rw [Statement.tree]
    apply IsStatement.declaration
    intro v hv
    obtain ⟨⟨sign, e⟩, hvalue, rfl⟩ := Option.map_eq_some_iff.mp hv
    exact e.isValue fun t ht => h t (by simp [hvalue, valueWord, ht])
  | conditional word test body others =>
    rw [Statement.word] at h
    obtain ⟨place, statements, hbody, hstatements⟩ :=
      body.isBlock fun t ht => h t (by simp [ht])
    obtain ⟨rest, hrest, hconditions, hothers⟩ := others.isChain fun t ht => h t (by simp [ht])
    rw [Statement.tree, hbody, hrest]
    exact .conditional _ _ _ _ _ (test.isCondition fun t ht => h t (by simp [ht])) hstatements
      hconditions hothers
  | loop word test body =>
    rw [Statement.word] at h
    obtain ⟨place, statements, hbody, hstatements⟩ :=
      body.isBlock fun t ht => h t (by simp [ht])
    rw [Statement.tree, hbody]
    exact .loop _ _ _ _ (test.isCondition fun t ht => h t (by simp [ht])) hstatements
  | giveBack word value =>
    rw [Statement.word] at h
    rw [Statement.tree]
    exact .giveBack _ _ (value.isValue fun t ht => h t (by simp [ht]))
  | assignment name sign value =>
    rw [Statement.word] at h
    rw [Statement.tree]
    exact .assignment _ _ _ (value.isValue fun t ht => h t (by simp [ht]))
  | expression value =>
    rw [Statement.word] at h
    rw [Statement.tree]
    exact .value _ (value.isValue h)

theorem Block.isBlock (b : Block) (h : ∀ t ∈ b.word, t.Genuine) :
    ∃ place body, b.tree = blockNode place body ∧ ∀ s ∈ body, IsStatement s := by
  cases b with
  | mk left statements right =>
    rw [Block.word] at h
    refine ⟨left.1.location, statements.trees, by rw [Block.tree, blockNode], ?_⟩
    exact statements.areStatements fun t ht => h t (by simp [ht])

theorem Statements.areStatements (ss : Statements) (h : ∀ t ∈ ss.word, t.Genuine) :
    ∀ s ∈ ss.trees, IsStatement s := by
  cases ss with
  | nil => simp [Statements.trees]
  | cons first others =>
    rw [Statements.word] at h
    rw [Statements.trees]
    refine List.forall_mem_cons.mpr ⟨?_, ?_⟩
    · exact first.isStatement fun t ht => h t (by simp [ht])
    · exact others.areStatements fun t ht => h t (by simp [ht])

theorem Branches.isChain (bs : Branches) (h : ∀ t ∈ bs.word, t.Genuine) :
    ∃ rest : Chain, bs.trees = rest.trees ∧ (∀ c ∈ rest.conditions, IsCondition c) ∧
      ∀ s ∈ rest.statements, IsStatement s := by
  cases bs with
  | nil => exact ⟨.none, by rw [Branches.trees, Chain.trees], by simp [Chain.conditions],
      by simp [Chain.statements]⟩
  | elseIf word test body others =>
    rw [Branches.word] at h
    obtain ⟨place, statements, hbody, hstatements⟩ :=
      body.isBlock fun t ht => h t (by simp [ht])
    obtain ⟨rest, hrest, hconditions, hothers⟩ := others.isChain fun t ht => h t (by simp [ht])
    have hcondition : IsCondition test.condition.tree :=
      test.isCondition fun t ht => h t (by simp [ht])
    refine ⟨.elseIf word.1.location place test.condition.tree statements rest, ?_, ?_, ?_⟩
    · rw [Branches.trees, hbody, hrest, Chain.trees]
    · exact List.forall_mem_cons.mpr ⟨hcondition, hconditions⟩
    · exact List.forall_mem_append.mpr ⟨hstatements, hothers⟩
  | otherwise word body =>
    rw [Branches.word] at h
    obtain ⟨place, statements, hbody, hstatements⟩ :=
      body.isBlock fun t ht => h t (by simp [ht])
    refine ⟨.otherwise word.1.location place statements, ?_, by simp [Chain.conditions], ?_⟩
    · rw [Branches.trees, hbody, Chain.trees]
    · exact hstatements

end

end Grammar

/-- The tree of a source text is a program node with statements. -/
theorem Source.exists_statements {file source : String} {tree : Tree}
    (h : Source.tree file source = .ok tree) :
    ∃ location statements, tree = plainNode .program location statements ∧
      ∀ s ∈ statements, s.IsStatement := by
  unfold Source.tree Source.tokens Source.treeOfTokens at h
  cases hscan : Token.scan file .start source.toList with
  | error e => simp [hscan, bind, Except.bind] at h
  | ok ts =>
    cases hprogram : Parser.program file ts with
    | error r => simp [hscan, hprogram, bind, Except.bind] at h
    | ok t =>
      have ht : t = tree := by simpa [hscan, hprogram, bind, Except.bind] using h
      obtain ⟨d, hword, htree⟩ := Grammar.exists_derivation_of_program hprogram
      refine ⟨_, d.trees, by rw [← ht, htree, Grammar.Statements.program], ?_⟩
      apply d.areStatements
      intro u hu
      rw [hword] at hu
      exact Token.genuine_of_scan hscan u ((List.takeWhile_sublist _).mem hu)

/-! ## How shapes are read -/

open StackLang.Tree

theorem Expr.ofTrees_eq_map (ts : List Tree) : Expr.ofTrees ts = ts.map Expr.ofTree := by
  induction ts with
  | nil => rfl
  | cons t ts ih => rw [Expr.ofTrees, ih, List.map_cons]

theorem Expr.ofTree_number {digits : String} (location : Option Location) (hne : digits ≠ "")
    (hdigits : ∀ c ∈ digits.toList, Text.isAsciiDigit c = true) :
    Expr.ofTree { kind := .number, value := some digits, location } = .number digits := by
  have hany : digits.toList.any (fun c => !Text.isAsciiDigit c) = false := by
    simpa using hdigits
  have hempty : digits.isEmpty = false := by simpa using hne
  change Expr.ofNumber digits location = .number digits
  rw [Expr.ofNumber, hempty, hany]
  rfl

theorem Expr.ofTree_name (name : String) (location : Option Location) :
    Expr.ofTree { kind := .identifier, value := some name, location } =
      .variable (some name) location :=
  rfl

theorem Expr.ofTree_negate (attributes : Attributes) (operand : Tree) (location : Option Location) :
    Expr.ofTree { kind := .negate, attributes, children := [operand], location } =
      .negate (Expr.ofTree operand) :=
  rfl

theorem Expr.ofTree_call (name : String) (arguments : List Tree) (location : Option Location) :
    Expr.ofTree { kind := .functionCall, attributes := [("name", name)], children := arguments,
                  location } =
      .call (some name) (arguments.map Expr.ofTree) location := by
  rw [← Expr.ofTrees_eq_map]
  rfl

theorem Expr.ofTree_operatorNode {kind : Kind} {op : Operator} (left right : Tree)
    (location : Option Location) (h : kind.takes op = true) :
    Expr.ofTree (operatorNode kind op left right location) =
      .binary op (Expr.ofTree left) (Expr.ofTree right) := by
  have hread (l r : Expr) : Expr.ofOperator (some op.spelling) l r location = .binary op l r := by
    rw [Expr.ofOperator, Option.bind_some, Operator.ofSpelling?_spelling]
  cases kind <;> first
    | cases h
    | exact hread (Expr.ofTree left) (Expr.ofTree right)

theorem Stmt.ofTree_value {t : Tree} (h : t.IsValue) :
    Stmt.ofTree t = .discard (Expr.ofTree t) := by
  cases h with
  | number digits location => rfl
  | name name location => rfl
  | negate operand location => rfl
  | call name arguments location => rfl
  | operator kind op left right location hkind htakes =>
    cases kind <;> first
      | cases htakes
      | rfl

theorem Stmt.ofTree_declaration (location : Location) (name type : String) (value : Option Tree) :
    Stmt.ofTree (declarationNode location name type value) =
      .declare name (value.map Expr.ofTree) := by
  cases value <;> rfl

theorem Stmt.ofTree_assignment (location : Location) (name : String) (value : Tree) :
    Stmt.ofTree (assignmentNode location name value) =
      .assign (some name) (Expr.ofTree value) (some location) :=
  rfl

theorem Stmt.ofTree_loop (location place : Location) (condition : Tree) (body : List Tree) :
    Stmt.ofTree (plainNode .loop location [condition, blockNode place body]) =
      .loop (Expr.ofTree condition) (Stmt.ofTrees body) :=
  rfl

theorem Stmt.ofTree_giveBack (location : Location) (value : Tree) :
    Stmt.ofTree (plainNode .giveBack location [value]) =
      .giveBack (some (Expr.ofTree value)) (some location) :=
  rfl

theorem Stmt.ofTree_function (location : Location) (name type : String) (parameters body : Tree) :
    Stmt.ofTree (functionNode location name parameters type body) =
      .misuse (.nestedFunction (some name)) (some location) :=
  rfl

/-- The effect of the branches after the first one. -/
def Stmt.ofChain : Chain → Stmt
  | .none => .skip
  | .otherwise _ _ body => Stmt.ofTrees body
  | .elseIf _ _ condition body rest =>
    .branch true (Expr.ofTree condition) (Stmt.ofTrees body) (Stmt.ofChain rest)

theorem Stmt.ofBranches_chain (location : Option Location) (rest : Chain) :
    Stmt.ofBranches location rest.trees (Stmt.ofElse rest.trees) = Stmt.ofChain rest := by
  induction rest with
  | none => rfl
  | otherwise _ place body =>
    simp [Chain.trees, Stmt.ofChain, plainNode, blockNode, Stmt.ofBranches, Stmt.ofElse,
      Stmt.ofBlock]
  | elseIf _ place condition body rest ih =>
    simp [Chain.trees, Stmt.ofChain, plainNode, blockNode, Stmt.ofBranches, Stmt.ofElse,
      Stmt.ofBlock, Stmt.ofArms, ← ih]

theorem Stmt.ofTree_conditional (location place : Location) {condition : Tree} (body : List Tree)
    (rest : Chain) (h : condition.IsCondition) :
    Stmt.ofTree (plainNode .conditional location
        (condition :: blockNode place body :: rest.trees)) =
      .branch false (Expr.ofTree condition) (Stmt.ofTrees body) (Stmt.ofChain rest) := by
  cases h with
  | mk op left right place' =>
    simp [plainNode, Stmt.ofTree, Stmt.ofArms, Stmt.ofBranches, Stmt.ofElse, operatorNode,
      blockNode, Stmt.ofBlock, ← Stmt.ofBranches_chain (some location)]

theorem Function.ofTree_functionNode (location start place : Location) (name type : String)
    (parameters : List Formal) (body : List Tree) :
    Function.ofTree (functionNode location name (parametersNode start (parameters.map Formal.tree))
        type (blockNode place body)) =
      { name := some name
        location := some location
        returnType := some type
        parameters := parameters.map fun p => ⟨some p.name, some p.location⟩
        locals := Tree.declarationsAll body
        body := some (Stmt.ofTrees body) } := by
  simp only [Function.ofTree, Tree.first?, functionNode, parametersNode, blockNode, plainNode]
  simp [Tree.get?, Attributes.get?, List.lookup_cons, Stmt.ofBlock, Tree.declarations, Formal.tree,
    Parameter.ofTree, Function.comp_def]

end StackLang
