import StackLang.Location
import StackLang.Text.Quoted

/-!
# Attributed trees

Every construct of the language is a node of one shape: a kind, an optional text, named attributes,
an ordered list of children and an optional place. The parser builds such trees, and so may anyone
else, so nothing is assumed here about which children a kind has.
-/

namespace StackLang

namespace Tree

/-- The kinds of nodes. -/
inductive Kind where
  | program | function | parameterList | parameter | block | variableDeclaration | assignment
  | conditional | elseIf | otherwise | loop | giveBack | condition | expression | term | negate
  | functionCall
  | number | identifier
deriving DecidableEq, Inhabited

namespace Kind

/-- All kinds. -/
def all : List Kind :=
  [.program, .function, .parameterList, .parameter, .block, .variableDeclaration, .assignment,
    .conditional, .elseIf, .otherwise, .loop, .giveBack, .condition, .expression, .term, .negate,
    .functionCall, .number, .identifier]

/-- The name under which a kind is shown. -/
def name : Kind → String
  | program => "PROGRAM"
  | function => "FUNCTION"
  | parameterList => "PARAMETER_LIST"
  | parameter => "PARAMETER"
  | block => "BLOCK"
  | variableDeclaration => "VARIABLE_DECLARATION"
  | assignment => "ASSIGNMENT"
  | conditional => "IF"
  | elseIf => "ELSE_IF"
  | otherwise => "ELSE"
  | loop => "WHILE"
  | giveBack => "RETURN"
  | condition => "CONDITION"
  | expression => "EXPRESSION"
  | term => "TERM"
  | negate => "NEGATE"
  | functionCall => "FUNCTION_CALL"
  | number => "NUMERIC"
  | identifier => "IDENTIFIER"

/-- The kind shown under a name. -/
def ofName? (name : String) : Option Kind := all.find? (·.name = name)

/-- The kinds of the leaves that the parser makes of single tokens. -/
def isTerminal : Kind → Bool
  | number | identifier => true
  | _ => false

theorem ofName?_name (k : Kind) : ofName? k.name = some k := by cases k <;> decide

end Kind

/-- Named texts in the order in which the names were first given. -/
abbrev Attributes := List (String × String)

namespace Attributes

/-- The text of the attribute `key`. -/
def get? (as : Attributes) (key : String) : Option String := as.lookup key

/-- Gives the attribute `key` a text; a name already there keeps its place. -/
def set (as : Attributes) (key value : String) : Attributes :=
  if as.any (·.1 == key) then as.map fun a => if a.1 == key then (key, value) else a
  else as ++ [(key, value)]

/-- The attributes given one after the other. -/
def ofList (as : List (String × String)) : Attributes :=
  as.foldl (fun acc a => set acc a.1 a.2) []

/-- Equality up to the order of the names. -/
def same (as bs : Attributes) : Bool :=
  as.length == bs.length && as.all fun a => get? bs a.1 == some a.2

end Attributes

end Tree

/-- A node with its descendants. -/
structure Tree where
  kind : Tree.Kind
  value : Option String := none
  attributes : Tree.Attributes := []
  children : List Tree := []
  location : Option Location := none
deriving Inhabited

namespace Tree

/-- The text of the attribute `key`. -/
def get? (t : Tree) (key : String) : Option String := t.attributes.get? key

/-- The child with number `i`; none has a negative number. -/
def child? (t : Tree) (i : Int) : Option Tree :=
  if 0 ≤ i then t.children[i.toNat]? else none

/-- The first child of the kind `k`. -/
def first? (t : Tree) (k : Kind) : Option Tree := t.children.find? (·.kind = k)

/-- The children of the kind `k`. -/
def childrenOf (t : Tree) (k : Kind) : List Tree := t.children.filter (·.kind = k)

/-- The tree with the attribute `key` set. -/
def setAttribute (t : Tree) (key value : String) : Tree :=
  { t with attributes := t.attributes.set key value }

/-- The tree with one more child at the end. -/
def addChild (t child : Tree) : Tree := { t with children := t.children ++ [child] }

/-- The descendant reached by following child numbers. -/
def descendant? (t : Tree) : List Int → Option Tree
  | [] => some t
  | i :: path =>
    match t.child? i with
    | none => none
    | some c => c.descendant? path

/-- The tree with `f` applied to the descendant reached by following child numbers. -/
def modifyAt (f : Tree → Tree) (t : Tree) : List Int → Tree
  | [] => f t
  | i :: path =>
    match t.child? i with
    | none => t
    | some c => { t with children := t.children.set i.toNat (c.modifyAt f path) }

mutual

/-- The node and all its descendants, each before its children. -/
def walk : Tree → List Tree
  | ⟨kind, value, attributes, children, location⟩ =>
    ⟨kind, value, attributes, children, location⟩ :: walkAll children

/-- The nodes of several trees, one tree after the other. -/
def walkAll : List Tree → List Tree
  | [] => []
  | t :: ts => walk t ++ walkAll ts

end

/-- The terminal leaves from left to right. -/
def leaves (t : Tree) : List Tree := t.walk.filter (·.kind.isTerminal)

mutual

/-- Equality of trees up to their places and the order of attributes. -/
def same : Tree → Tree → Bool
  | ⟨kind, value, attributes, children, _⟩, u =>
    kind == u.kind && value == u.value && attributes.same u.attributes &&
      sameAll children u.children

/-- Equality of lists of trees up to places and the order of attributes. -/
def sameAll : List Tree → List Tree → Bool
  | [], [] => true
  | t :: ts, u :: us => same t u && sameAll ts us
  | _, _ => false

end

end Tree

end StackLang
