import StackLang.Script

/-!
# Reading scripts from trees

The meaning of each kind of node, in every place where it may stand.
-/

namespace StackLang

/-- The kinds of nodes with two operands. -/
def Tree.Kind.isBinary : Tree.Kind → Bool
  | .expression | .term | .condition => true
  | _ => false

/-- The value of a number leaf. -/
def Expr.ofNumber (text : String) (location : Option Location) : Expr :=
  if text.isEmpty || text.toList.any (!Text.isAsciiDigit ·) then
    .hole (.malformedNumber text) location
  else .number text

/-- The value of two operands under an operator. -/
def Expr.ofOperator (operator : Option String) (left right : Expr) (location : Option Location) :
    Expr :=
  match operator.bind Operator.ofSpelling? with
  | some op => .binary op left right
  | none => .unknown operator left right location

mutual

/-- The value of a node. -/
def Expr.ofTree : Tree → Expr
  | ⟨kind, value, attributes, children, location⟩ =>
    match kind with
    | .number => .ofNumber (value.getD "") location
    | .identifier => .variable value location
    | .functionCall => .call (attributes.get? "name") (Expr.ofTrees children) location
    | .negate =>
      match Expr.ofTrees children with
      | operand :: _ => .negate operand
      | [] => .hole .missingOperand location
    | kind =>
      if kind.isBinary then
        match Expr.ofTrees children with
        | [left, right] => .ofOperator (attributes.get? "operator") left right location
        | _ => .hole (.operandCount kind) location
      else .hole (.notValue kind) location

/-- The values of several nodes. -/
def Expr.ofTrees : List Tree → List Expr
  | [] => []
  | t :: ts => Expr.ofTree t :: Expr.ofTrees ts

end

mutual

/-- The effect of a node. -/
def Stmt.ofTree : Tree → Stmt
  | ⟨kind, value, attributes, children, location⟩ =>
    match kind with
    | .variableDeclaration =>
      match attributes.get? "name" with
      | none => .misuse .namelessVariable location
      | some name => .declare name (children.head?.map Expr.ofTree)
    | .assignment =>
      match children with
      | [] => .misuse (.missingValue (attributes.get? "name")) location
      | value :: _ => .assign (attributes.get? "name") (Expr.ofTree value) location
    | .conditional =>
      Stmt.ofArms false location children (Stmt.ofBranches location children (Stmt.ofElse children))
    | .loop =>
      match children with
      | condition :: body :: _ => .loop (Expr.ofTree condition) (Stmt.ofBlock body)
      | _ => .misuse .incompleteLoop location
    | .giveBack => .giveBack (children.head?.map Expr.ofTree) location
    | .block => Stmt.ofTrees children
    | .function => .misuse (.nestedFunction (attributes.get? "name")) location
    | .program | .parameterList | .parameter | .elseIf | .otherwise =>
      .misuse (.notStatement kind) location
    | .condition | .expression | .term | .negate | .functionCall | .number | .identifier =>
      .discard (Expr.ofTree ⟨kind, value, attributes, children, location⟩)

/-- The effects of several nodes, one after the other. -/
def Stmt.ofTrees : List Tree → Stmt
  | [] => .skip
  | t :: ts => .seq (Stmt.ofTree t) (Stmt.ofTrees ts)

/-- The effect of the children of a node, whatever its kind. -/
def Stmt.ofBlock : Tree → Stmt
  | ⟨_, _, _, children, _⟩ => Stmt.ofTrees children

/-- The branch whose condition and block are the first two of `children`, and the rest of the chain.
-/
def Stmt.ofArms (chained : Bool) (location : Option Location) : List Tree → Stmt → Stmt
  | condition :: block :: _, rest =>
    .branch chained (Expr.ofTree condition) (Stmt.ofBlock block) rest
  | _, rest => .seq (.misuse .incompleteBranch location) rest

/-- The further branches of a conditional before the rest of the chain. -/
def Stmt.ofBranches (location : Option Location) : List Tree → Stmt → Stmt
  | [], rest => rest
  | ⟨kind, _, _, children, _⟩ :: ts, rest =>
    if kind = .elseIf then Stmt.ofArms true location children (Stmt.ofBranches location ts rest)
    else Stmt.ofBranches location ts rest

/-- The last arm of a conditional. -/
def Stmt.ofElse : List Tree → Stmt
  | [] => .skip
  | ⟨kind, _, _, children, _⟩ :: ts =>
    if kind = .otherwise then
      match children with
      | block :: _ => Stmt.ofBlock block
      | [] => .skip
    else Stmt.ofElse ts

end

mutual

/-- The number of declarations in a tree, those in functions inside it left out. -/
def Tree.declarations : Tree → Nat
  | ⟨kind, _, _, children, _⟩ =>
    (if kind = .variableDeclaration then 1 else 0) +
      (if kind = .function then 0 else Tree.declarationsAll children)

/-- The number of declarations in several trees. -/
def Tree.declarationsAll : List Tree → Nat
  | [] => 0
  | t :: ts => Tree.declarations t + Tree.declarationsAll ts

end

/-- The parameter that a node declares. -/
def Parameter.ofTree (t : Tree) : Parameter := ⟨t.get? "name", t.location⟩

/-- The function that a node defines. -/
def Function.ofTree (t : Tree) : Function :=
  { name := t.get? "name"
    location := t.location
    returnType := t.get? "returnType"
    parameters :=
      ((t.first? .parameterList).map fun list => list.children.map Parameter.ofTree).getD []
    locals := ((t.first? .block).map Tree.declarations).getD 0
    body := (t.first? .block).map Stmt.ofBlock }

namespace Script

/-- The variable that a node outside all blocks declares. -/
def declared? (t : Tree) : Option (String × Option Location) :=
  if t.kind = .variableDeclaration then (t.get? "name").map (·, t.location) else none

/-- The script of a program node. -/
def ofTree? (t : Tree) : Option Script :=
  if t.kind = .program then
    some
      { declared := t.children.filterMap declared?
        entry := Stmt.ofTrees (t.children.filter (·.kind ≠ .function))
        functions := (t.childrenOf .function).map Function.ofTree }
  else none

end Script

end StackLang
