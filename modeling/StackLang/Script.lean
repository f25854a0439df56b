import StackLang.Diagnostic
import StackLang.Operator
import StackLang.PrimitiveType
import StackLang.Text.Numeral

/-!
# Scripts

What a tree means to the compiler: expressions, statements, functions, and the script made of them.
Any tree can be read; where a node has no meaning, a hole or a misuse stands in its place and says
why.

Blocks are sequences, and a chain of branches is a conditional in the other arm of a conditional.
-/

namespace StackLang

/-- What yields a word. -/
inductive Expr where
  /-- A number in decimal digits. -/
  | number (digits : String)
  /-- The value of a variable. -/
  | variable (name : Option String) (location : Option Location)
  /-- An operator with its operands. -/
  | binary (op : Operator) (left right : Expr)
  /-- Two operands under an operator that is not known. -/
  | unknown (operator : Option String) (left right : Expr) (location : Option Location)
  /-- The negative of a value. -/
  | negate (operand : Expr)
  /-- A call with its arguments. -/
  | call (callee : Option String) (arguments : List Expr) (location : Option Location)
  /-- A node that has no value. -/
  | hole (misuse : Misuse) (location : Option Location)
deriving Inhabited

/-- What has an effect. -/
inductive Stmt where
  | skip
  | seq (first second : Stmt)
  /-- Declares a variable and stores its value, or zero. -/
  | declare (name : String) (value : Option Expr)
  /-- Stores a value in a variable. -/
  | assign (name : Option String) (value : Expr) (location : Option Location)
  /-- Computes a value for its effects only. -/
  | discard (value : Expr)
  /-- Chooses by a condition; `chained` if it is itself the other arm of a chain of branches. -/
  | branch (chained : Bool) (condition : Expr) (yes no : Stmt)
  /-- Repeats a body while a condition holds. -/
  | loop (condition : Expr) (body : Stmt)
  /-- Leaves the function with a value, or zero. -/
  | giveBack (value : Option Expr) (location : Option Location)
  /-- A node that has no effect. -/
  | misuse (m : Misuse) (location : Option Location)
deriving Inhabited

/-- A parameter: its name and where it stands. -/
structure Parameter where
  name : Option String
  location : Option Location
deriving DecidableEq, Inhabited

/-- A function as it is written. -/
structure Function where
  name : Option String
  location : Option Location
  returnType : Option String
  parameters : List Parameter
  /-- The number of declarations below its body. -/
  locals : Nat
  body : Option Stmt
deriving Inhabited

/-- What a call has to know of a function. -/
structure Signature where
  name : String
  returnType : Option PrimitiveType
  arity : Nat
deriving DecidableEq, Inhabited

/-- A whole program: the variables it declares outside all blocks, the statements outside functions,
and the functions. -/
structure Script where
  declared : List (String × Option Location)
  entry : Stmt
  functions : List Function
deriving Inhabited

/-- The signature of a function that has a name. -/
def Function.signature? (f : Function) : Option Signature :=
  f.name.map fun name =>
    { name
      returnType := f.returnType.bind PrimitiveType.ofSpelling?
      arity := f.parameters.length }

/-- The signatures in the order of the functions; of several with one name, calls mean the first. -/
def Script.signatures (s : Script) : List Signature :=
  (s.functions.filterMap Function.signature?).eraseDupsBy fun f g => f.name == g.name

end StackLang
