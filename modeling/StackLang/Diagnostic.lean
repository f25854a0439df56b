import StackLang.Tree

/-!
# Diagnostics

What can be wrong with a source text or a tree, as causes, and the text in which each is reported:
the place, the quoted source line with a caret under the column, and a hint.
-/

namespace StackLang

/-- A name as messages show it; trees built by hand may lack names. -/
def shownName (name : Option String) : String := name.getD "None"

/-- Constructs that have no meaning where they stand. -/
inductive Misuse where
  /-- The root is no program. -/
  | notProgram (kind : Tree.Kind)
  /-- A function lacks its name or its body. -/
  | incompleteFunction
  /-- A value is returned where there is no function. -/
  | returnOutsideFunction
  /-- A function is defined inside something. -/
  | nestedFunction (name : Option String)
  /-- A node that is no statement stands for one. -/
  | notStatement (kind : Tree.Kind)
  /-- A node that has no value stands for one. -/
  | notValue (kind : Tree.Kind)
  /-- A declared variable lacks its name. -/
  | namelessVariable
  /-- An assignment lacks its value. -/
  | missingValue (name : Option String)
  /-- A branch lacks its condition or its block. -/
  | incompleteBranch
  /-- A loop lacks its condition or its body. -/
  | incompleteLoop
  /-- A number is not written in digits. -/
  | malformedNumber (text : String)
  /-- An operation has more or fewer than two operands. -/
  | operandCount (kind : Tree.Kind)
  /-- An operator is not known. -/
  | unknownOperator (operator : Option String)
  /-- A negation lacks its operand. -/
  | missingOperand
deriving DecidableEq

namespace Misuse

/-- The text of a misuse. -/
def text : Misuse → String
  | notProgram kind => "expected a PROGRAM node, got " ++ kind.name
  | incompleteFunction => "function is missing its name or body"
  | returnOutsideFunction => "'return' outside of a function"
  | nestedFunction name => "function '" ++ shownName name ++ "' must be defined at top level"
  | notStatement kind => kind.name ++ " node cannot appear as a statement"
  | notValue kind => kind.name ++ " node cannot be used as a value"
  | namelessVariable => "variable declaration is missing its name"
  | missingValue name => "assignment to '" ++ shownName name ++ "' has no value"
  | incompleteBranch => "if branch is missing its condition or block"
  | incompleteLoop => "while is missing its condition or body"
  | malformedNumber text => "malformed numeric literal '" ++ text ++ "'"
  | operandCount kind => kind.name ++ " needs exactly two operands"
  | unknownOperator operator => "unknown operator '" ++ shownName operator ++ "'"
  | missingOperand => "negation is missing its operand"

/-- The misuses that are reported with the source line. -/
def quotesSource : Misuse → Bool
  | returnOutsideFunction | nestedFunction _ | notValue _ | unknownOperator _ => true
  | _ => false

end Misuse

/-- The families of diagnostics that carry a text of their own. -/
inductive Family where
  | located | compilation | grammar | meaning | statement
deriving DecidableEq

/-- What is wrong. -/
inductive Cause where
  /-- A character that starts no token. -/
  | invalidCharacter (c : Char) (hint : Option String)
  /-- A token that starts no alternative. -/
  | unexpectedToken (found : String) (expected : Option String)
  /-- A token that has to stand here does not. -/
  | missingToken (expected found : String)
  /-- A variable that is not declared. -/
  | undeclaredIdentifier (name : String) (similar : List String)
  /-- A call of a function that is nowhere defined. -/
  | undefinedFunction (name : String) (similar : List String)
  /-- A name declared again in one scope. -/
  | duplicateDeclaration (what : String) (name : Option String)
  /-- A call with the wrong number of arguments. -/
  | argumentCount (name : String) (expected found : Int)
  /-- A construct that has no meaning where it stands. -/
  | misuse (m : Misuse)
  /-- A text of its own. -/
  | remark (family : Family) (text : String) (hint : Option String)
deriving DecidableEq

namespace Cause

/-- The first three of the similar names, as a question. -/
def suggestion (similar : List String) : String :=
  "did you mean " ++ ", ".intercalate ((similar.take 3).map fun s => "'" ++ s ++ "'") ++ "?"

/-- The text of a cause. -/
def text : Cause → String
  | invalidCharacter c _ =>
    "invalid character '" ++ String.singleton c ++ "' (0x" ++
      (Text.hexadecimal 2 c.toNat).map Char.toUpper ++ ")"
  | unexpectedToken found _ => "unexpected token '" ++ found ++ "'"
  | missingToken expected found => "expected " ++ expected ++ " but found '" ++ found ++ "'"
  | undeclaredIdentifier name _ => "undeclared identifier '" ++ name ++ "'"
  | undefinedFunction name _ => "call to undefined function '" ++ name ++ "'"
  | duplicateDeclaration what name => "redeclaration of " ++ what ++ " '" ++ shownName name ++ "'"
  | argumentCount name expected found =>
    "'" ++ name ++ "' takes " ++ Text.decimal expected ++
      (if expected = 1 then " argument but " else " arguments but ") ++ Text.decimal found ++
      (if found = 1 then " was given" else " were given")
  | misuse m => m.text
  | remark _ text _ => text

/-- The hint that goes with a cause. -/
def hint : Cause → Option String
  | invalidCharacter _ hint => hint
  | unexpectedToken _ (some expected) =>
    if expected.isEmpty then none else some ("expected " ++ expected)
  | undeclaredIdentifier _ similar => if similar.isEmpty then none else some (suggestion similar)
  | undefinedFunction _ similar =>
    some (if similar.isEmpty then "the call will target address 0" else suggestion similar)
  | duplicateDeclaration _ name =>
    some ("the first declaration of '" ++ shownName name ++ "' is kept")
  | remark _ _ hint => hint
  | _ => none

/-- The causes that are reported with the source line. -/
def quotesSource : Cause → Bool
  | misuse m => m.quotesSource
  | _ => true

end Cause

/-- A cause with its place and the source line at it. -/
structure Diagnostic where
  cause : Cause
  location : Option Location := none
  sourceLine : Option String := none
deriving DecidableEq

namespace Diagnostic

/-- The bare text. -/
def text (d : Diagnostic) : String := d.cause.text

/-- The hint. -/
def hint (d : Diagnostic) : Option String := d.cause.hint

/-- The text after its place, if there is one. -/
def placed (d : Diagnostic) (mark : String) : String :=
  match d.location with
  | some l => l.text ++ ": " ++ mark ++ d.text
  | none => mark ++ d.text

/-- The quoted source line and the caret under its column. -/
def excerpt (d : Diagnostic) : List String :=
  match d.location, d.sourceLine with
  | some l, some line =>
    ["    " ++ line, String.ofList (List.replicate (4 + l.column).toNat ' ') ++ "^"]
  | _, _ => []

/-- The full report of a diagnostic. -/
def message (d : Diagnostic) : String :=
  let hint := match d.hint with
    | some h => if h.isEmpty then [] else ["hint: " ++ h]
    | none => []
  "\n".intercalate (d.placed "error: " :: (d.excerpt ++ hint))

/-- The diagnostic for a cause at a place of a text with these lines. -/
def ofCause (lines : List String) (cause : Cause) (location : Option Location) : Diagnostic :=
  { cause, location,
    sourceLine := if cause.quotesSource then location.bind fun l => lineAt? lines l.line else none }

end Diagnostic

end StackLang
