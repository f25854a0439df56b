import StackLang.Tree.Parser

/-!
# Derivations of the grammar

One type for each nonterminal, one constructor for each alternative: a value is a derivation. `word`
is the token list that it derives and `tree` its syntax tree. The rules are those of a plain
context-free grammar; nothing here looks ahead, and two derivations may well have one word.

Repetitions are types of their own, and the tree of a chain of operators is built from the left. The
texts of names and numbers stand in the tree once each, in the order of the word.
-/

namespace StackLang.Grammar

open Token (Kind)
open StackLang.Parser (binaryNode)

/-- A token of the kind `k`. -/
abbrev Of (k : Kind) := { t : Token // t.kind = k }

/-- A token of one of the kinds that satisfy `p`. -/
abbrev OneOf (p : Kind → Bool) := { t : Token // p t.kind = true }

/-! ## Nodes -/

/-- The leaf of a number. -/
def numberNode (digits : Token) : Tree :=
  { kind := .number, value := some digits.lexeme, location := some digits.location }

/-- The leaf of a variable. -/
def variableNode (name : Token) : Tree :=
  { kind := .identifier, value := some name.lexeme, location := some name.location }

/-- The node of a call. -/
def callNode (name : Token) (arguments : List Tree) : Tree :=
  { kind := .functionCall, attributes := [("name", name.lexeme)], children := arguments,
    location := some name.location }

/-- The node of a minus sign before a factor. -/
def negationNode (sign : Token) (operand : Tree) : Tree :=
  { kind := .negate, attributes := [("operator", "-")], children := [operand],
    location := some sign.location }

/-- The node of a parameter. -/
def parameterNode (name type : Token) : Tree :=
  { kind := .parameter, attributes := [("name", name.lexeme), ("type", type.lexeme)],
    location := some name.location }

/-- The node of parameters, which start at `location`. -/
def parametersNode (location : Location) (parameters : List Tree) : Tree :=
  { kind := .parameterList, children := parameters, location := some location }

/-- The node of a function. -/
def functionNode (location : Location) (name : String) (parameters : Tree) (type : String)
    (body : Tree) : Tree :=
  { kind := .function, attributes := [("name", name), ("returnType", type)],
    children := [parameters, body], location := some location }

/-- The node of a declaration. -/
def declarationNode (location : Location) (name type : String) (value : Option Tree) : Tree :=
  { kind := .variableDeclaration, attributes := [("name", name), ("type", type)],
    children := value.toList, location := some location }

/-- The node of an assignment. -/
def assignmentNode (location : Location) (name : String) (value : Tree) : Tree :=
  { kind := .assignment, attributes := [("name", name)], children := [value],
    location := some location }

/-- The node of a statement or branch that has no name: a kind and the children. -/
def plainNode (kind : Tree.Kind) (location : Location) (children : List Tree) : Tree :=
  { kind, children, location := some location }

/-! ## Expressions -/

mutual

/-- `'(' expression ')' | '-' factor | NUMBER | NAME | NAME '(' arguments ')'` -/
inductive Factor where
  | parenthesised (left : Of .leftParen) (inner : Expression) (right : Of .rightParen)
  | negative (sign : Of .minus) (operand : Factor)
  | number (digits : Of .number)
  | name (token : Of .identifier)
  | call (name : Of .identifier) (left : Of .leftParen) (arguments : Arguments)
      (right : Of .rightParen)

/-- `factor (('*' | '/') factor)*` -/
inductive Term where
  | mk (first : Factor) (others : Factors)

/-- `(('*' | '/') factor)*` -/
inductive Factors where
  | nil
  | cons (operator : OneOf Kind.isMultiplicative) (next : Factor) (others : Factors)

/-- `term (('+' | '-') term)*` -/
inductive Expression where
  | mk (first : Term) (others : Terms)

/-- `(('+' | '-') term)*` -/
inductive Terms where
  | nil
  | cons (operator : OneOf Kind.isAdditive) (next : Term) (others : Terms)

/-- `(expression (',' expression)*)?` -/
inductive Arguments where
  | none
  | some (first : Expression) (others : MoreArguments)

/-- `(',' expression)*` -/
inductive MoreArguments where
  | nil
  | cons (comma : Of .comma) (next : Expression) (others : MoreArguments)

end

mutual

/-- The tokens of a factor. -/
def Factor.word : Factor → List Token
  | .parenthesised left inner right => left.1 :: inner.word ++ [right.1]
  | .negative sign operand => sign.1 :: operand.word
  | .number digits => [digits.1]
  | .name token => [token.1]
  | .call name left arguments right => name.1 :: left.1 :: arguments.word ++ [right.1]

/-- The tokens of a term. -/
def Term.word : Term → List Token
  | .mk first others => first.word ++ others.word

/-- The tokens of the further factors of a term. -/
def Factors.word : Factors → List Token
  | .nil => []
  | .cons operator next others => operator.1 :: next.word ++ others.word

/-- The tokens of an expression. -/
def Expression.word : Expression → List Token
  | .mk first others => first.word ++ others.word

/-- The tokens of the further terms of an expression. -/
def Terms.word : Terms → List Token
  | .nil => []
  | .cons operator next others => operator.1 :: next.word ++ others.word

/-- The tokens of arguments. -/
def Arguments.word : Arguments → List Token
  | .none => []
  | .some first others => first.word ++ others.word

/-- The tokens of the further arguments. -/
def MoreArguments.word : MoreArguments → List Token
  | .nil => []
  | .cons comma next others => comma.1 :: next.word ++ others.word

end

mutual

/-- The tree of a factor; parentheses leave no trace. -/
def Factor.tree : Factor → Tree
  | .parenthesised _ inner _ => inner.tree
  | .negative sign operand => negationNode sign.1 operand.tree
  | .number digits => numberNode digits.1
  | .name token => variableNode token.1
  | .call name _ arguments _ => callNode name.1 arguments.trees

/-- The tree of a term. -/
def Term.tree : Term → Tree
  | .mk first others => others.treeFrom first.tree

/-- The tree of further factors after a tree; each operator takes all before it as its left operand.
-/
def Factors.treeFrom (left : Tree) : Factors → Tree
  | .nil => left
  | .cons operator next others =>
    others.treeFrom (binaryNode .term operator.1 left next.tree)

/-- The tree of an expression. -/
def Expression.tree : Expression → Tree
  | .mk first others => others.treeFrom first.tree

/-- The tree of further terms after a tree; each operator takes all before it as its left operand.
-/
def Terms.treeFrom (left : Tree) : Terms → Tree
  | .nil => left
  | .cons operator next others =>
    others.treeFrom (binaryNode .expression operator.1 left next.tree)

/-- The trees of arguments. -/
def Arguments.trees : Arguments → List Tree
  | .none => []
  | .some first others => first.tree :: others.trees

/-- The trees of the further arguments. -/
def MoreArguments.trees : MoreArguments → List Tree
  | .nil => []
  | .cons _ next others => next.tree :: others.trees

end

/-- `expression comparison expression` -/
structure Condition where
  left : Expression
  operator : OneOf Kind.isComparison
  right : Expression

/-- The tokens of a condition. -/
def Condition.word (c : Condition) : List Token := c.left.word ++ c.operator.1 :: c.right.word

/-- The tree of a condition. -/
def Condition.tree (c : Condition) : Tree :=
  binaryNode .condition c.operator.1 c.left.tree c.right.tree

/-! ## Statements -/

/-- `NAME ':' type` -/
structure Parameter where
  name : Of .identifier
  colon : Of .colon
  type : OneOf Kind.isType

/-- The tokens of a parameter. -/
def Parameter.word (p : Parameter) : List Token := [p.name.1, p.colon.1, p.type.1]

/-- The tree of a parameter. -/
def Parameter.tree (p : Parameter) : Tree := parameterNode p.name.1 p.type.1

/-- `(parameter (',' parameter)*)?` -/
inductive Parameters where
  | none
  | some (first : Parameter) (others : List (Of .comma × Parameter))

/-- The tokens of the further parameters. -/
def moreParametersWord (ps : List (Of .comma × Parameter)) : List Token :=
  ps.flatMap fun p => p.1.1 :: p.2.word

/-- The tokens of parameters. -/
def Parameters.word : Parameters → List Token
  | none => []
  | some first others => first.word ++ moreParametersWord others

/-- The trees of parameters. -/
def Parameters.trees : Parameters → List Tree
  | none => []
  | some first others => first.tree :: others.map (·.2.tree)

/-- Where parameters start, given the token after them. -/
def Parameters.start (after : Token) : Parameters → Location
  | none => after.location
  | some first _ => first.name.1.location

/-- `'(' condition ')'` -/
structure Test where
  left : Of .leftParen
  condition : Condition
  right : Of .rightParen

/-- The tokens of a test. -/
def Test.word (t : Test) : List Token := t.left.1 :: t.condition.word ++ [t.right.1]

mutual

/-- `function | declaration | conditional | loop | return | assignment | expression` -/
inductive Statement where
  /-- `'fn' NAME '(' parameters ')' '->' type block` -/
  | function (word : Of .keywordFn) (name : Of .identifier) (left : Of .leftParen)
      (parameters : Parameters) (right : Of .rightParen) (arrow : Of .arrow)
      (type : OneOf Kind.isType) (body : Block)
  /-- `'var' NAME ':' type ('=' expression)?` -/
  | declaration (word : Of .keywordVar) (name : Of .identifier) (colon : Of .colon)
      (type : OneOf Kind.isType) (value : Option (Of .assign × Expression))
  /-- `'if' '(' condition ')' block ('elseif' '(' condition ')' block)* ('else' block)?` -/
  | conditional (word : Of .keywordIf) (test : Test) (body : Block) (others : Branches)
  /-- `'while' '(' condition ')' block` -/
  | loop (word : Of .keywordWhile) (test : Test) (body : Block)
  /-- `'return' expression` -/
  | giveBack (word : Of .keywordReturn) (value : Expression)
  /-- `NAME '=' expression` -/
  | assignment (name : Of .identifier) (sign : Of .assign) (value : Expression)
  | expression (value : Expression)

/-- `'{' statement* '}'` -/
inductive Block where
  | mk (left : Of .leftBrace) (statements : Statements) (right : Of .rightBrace)

/-- `statement*` -/
inductive Statements where
  | nil
  | cons (first : Statement) (others : Statements)

/-- `('elseif' '(' condition ')' block)* ('else' block)?` -/
inductive Branches where
  | nil
  | elseIf (word : Of .keywordElseif) (test : Test) (body : Block) (others : Branches)
  | otherwise (word : Of .keywordElse) (body : Block)

end

/-- The tokens of the value of a declaration. -/
def valueWord : Option (Of .assign × Expression) → List Token
  | none => []
  | some (sign, value) => sign.1 :: value.word

mutual

/-- The tokens of a statement. -/
def Statement.word : Statement → List Token
  | .function word name left parameters right arrow type body =>
    word.1 :: name.1 :: left.1 :: (parameters.word ++ right.1 :: arrow.1 :: type.1 :: body.word)
  | .declaration word name colon type value =>
    word.1 :: name.1 :: colon.1 :: type.1 :: valueWord value
  | .conditional word test body others => word.1 :: (test.word ++ body.word ++ others.word)
  | .loop word test body => word.1 :: (test.word ++ body.word)
  | .giveBack word value => word.1 :: value.word
  | .assignment name sign value => name.1 :: sign.1 :: value.word
  | .expression value => value.word

/-- The tokens of a block. -/
def Block.word : Block → List Token
  | .mk left statements right => left.1 :: statements.word ++ [right.1]

/-- The tokens of statements. -/
def Statements.word : Statements → List Token
  | .nil => []
  | .cons first others => first.word ++ others.word

/-- The tokens of the further branches of a conditional. -/
def Branches.word : Branches → List Token
  | .nil => []
  | .elseIf word test body others => word.1 :: (test.word ++ body.word ++ others.word)
  | .otherwise word body => word.1 :: body.word

end

mutual

/-- The tree of a statement. -/
def Statement.tree : Statement → Tree
  | .function word name _ parameters right _ type body =>
    functionNode word.1.location name.1.lexeme
      (parametersNode (parameters.start right.1) parameters.trees) type.1.lexeme body.tree
  | .declaration word name _ type value =>
    declarationNode word.1.location name.1.lexeme type.1.lexeme (value.map (·.2.tree))
  | .conditional word test body others =>
    plainNode .conditional word.1.location (test.condition.tree :: body.tree :: others.trees)
  | .loop word test body => plainNode .loop word.1.location [test.condition.tree, body.tree]
  | .giveBack word value => plainNode .giveBack word.1.location [value.tree]
  | .assignment name _ value => assignmentNode name.1.location name.1.lexeme value.tree
  | .expression value => value.tree

/-- The tree of a block. -/
def Block.tree : Block → Tree
  | .mk left statements _ => plainNode .block left.1.location statements.trees

/-- The trees of statements. -/
def Statements.trees : Statements → List Tree
  | .nil => []
  | .cons first others => first.tree :: others.trees

/-- The trees of the further branches of a conditional. -/
def Branches.trees : Branches → List Tree
  | .nil => []
  | .elseIf word test body others =>
    plainNode .elseIf word.1.location [test.condition.tree, body.tree] :: others.trees
  | .otherwise word body => [plainNode .otherwise word.1.location [body.tree]]

end

/-- The tree of a program, given the token that ends its word. -/
def Statements.program (stop : Token) (ss : Statements) : Tree :=
  plainNode .program (Parser.peek stop ss.word).location ss.trees

end StackLang.Grammar
