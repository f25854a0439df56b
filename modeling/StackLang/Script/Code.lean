import StackLang.Draft
import StackLang.Word

/-!
# The code of scripts

The drafts that compute an expression, carry out a statement and make up a function. An expression
leaves exactly one word on the stack and a statement none; what has no meaning leaves a placeholder,
so that this holds for every script.
-/

namespace StackLang

/-- The function that prints, unless the script defines one of this name. -/
def printName : String := "print"

/-- The function that a script starts with. -/
def entryName : String := "main"

/-- Whether a call prints instead of calling a function of the script. -/
def Scope.prints (σ : Scope) (callee : Option String) : Bool :=
  callee = some printName && (σ.signature? callee).isNone

/-- The instruction that calls a function by its name. -/
def Scope.callDraft (σ : Scope) (callee : Option String) : Draft :=
  match callee, σ.signature? callee with
  | some name, some _ => { action := .call name 0, comment := some ("call " ++ name) }
  | _, _ => .of (.call 0) ("call " ++ shownName callee ++ " (undefined)")

mutual

/-- The code that pushes the value of an expression. -/
def Expr.code (σ : Scope) : Expr → List Draft
  | .number digits =>
    [.of (.push (Word.wrap (Text.ofAsciiDigits digits.toList))) ("push " ++ digits)]
  | .variable name _ =>
    match σ.resolve? name with
    | some place => [.load place ("load " ++ shownName name)]
    | none => [.of (.push 0) ("unknown '" ++ shownName name ++ "'")]
  | .binary op left right => left.code σ ++ right.code σ ++ [.of (.compute op) op.spelling]
  | .unknown _ left right _ => left.code σ ++ right.code σ ++ [.bare .pop, .bare .pop, .placeholder]
  | .negate operand => operand.code σ ++ [.bare .negate]
  | .call callee arguments _ =>
    if σ.prints callee then
      if arguments.length = 1 then Expr.codeAll σ arguments ++ [.bare .print]
      else Expr.codeDiscarded σ arguments ++ [.placeholder]
    else Expr.codeAll σ arguments ++ [σ.callDraft callee]
  | .hole _ _ => [.placeholder]

/-- The code that pushes the values of several expressions, the first one first. -/
def Expr.codeAll (σ : Scope) : List Expr → List Draft
  | [] => []
  | e :: es => e.code σ ++ Expr.codeAll σ es

/-- The code that computes the values of several expressions and drops each. -/
def Expr.codeDiscarded (σ : Scope) : List Expr → List Draft
  | [] => []
  | e :: es => e.code σ ++ [.bare .pop] ++ Expr.codeDiscarded σ es

end

/-- The word with which a branch is commented. -/
def branchWord (chained : Bool) : String := if chained then "elseif" else "if"

/-- A branch of a chain: the condition, a jump past the arm, the arm, and a jump past the rest. -/
def branchCode (chained : Bool) (condition yes no : List Draft) : List Draft :=
  condition ++
    [{ action := .jumpIfZero (yes.length + 2)
       comment := some (branchWord chained ++ ": false, next branch") }] ++ yes ++
    [{ action := .jump (no.length + 1), comment := some (branchWord chained ++ ": done") }] ++ no

/-- A loop: the condition, a jump past the body, the body, and a jump back to the condition. -/
def loopCode (condition body : List Draft) : List Draft :=
  condition ++
    [{ action := .jumpIfZero (body.length + 2), comment := some "while: exit loop" }] ++ body ++
    [{ action := .jump (-(condition.length + 1 + body.length : Int))
       comment := some "while: repeat" }]

/-- The code that carries out a statement. -/
def Stmt.code (σ : Scope) : Stmt → List Draft
  | .skip => []
  | .seq first second => first.code σ ++ second.code (first.scopeAfter σ)
  | .declare name value =>
    (match value with
      | some e => e.code (σ.declare name)
      | none => [.of (.push 0) ("default value of " ++ name)]) ++
      [.store (σ.placeOf name) ("init " ++ name)]
  | .assign name value _ =>
    value.code σ ++
      [match σ.resolve? name with
        | some place => .store place (shownName name ++ " =")
        | none => .of .pop ("drop value for unknown '" ++ shownName name ++ "'")]
  | .discard value => value.code σ ++ [.of .pop "discard expression value"]
  | .branch chained condition yes no =>
    branchCode chained (condition.code σ) (yes.code σ) (no.code (yes.scopeAfter σ))
  | .loop condition body => loopCode (condition.code σ) (body.code σ)
  | .giveBack value _ =>
    match σ.inside with
    | none => []
    | some f =>
      (match value with
        | some e => e.code σ
        | none => [.of (.push 0) "no return value"]) ++
        [.of (.giveBack f.arity) ("return from " ++ f.name)]
  | .misuse _ _ => []

/-- A function that gets code: its name, what calls of it mean, how it is written and its body. -/
structure Definition where
  name : String
  signature : Signature
  written : Function
  body : Stmt

namespace Definition

/-- The type that the comment of a function shows. -/
def shownType (d : Definition) : String :=
  match d.signature.returnType with
  | some type => type.spelling
  | none => shownName d.written.returnType

/-- The scope in which the body stands. -/
def scope (σ : Scope) (d : Definition) : Scope := σ.enter d.signature d.written.parameters

/-- The code of a function: room for its variables, the body, and the return of zero at its end. -/
def code (σ : Scope) (d : Definition) : List Draft :=
  { action := .fixed (.enter d.written.locals), label := some d.name,
    comment := some ("fn " ++ d.name ++ " -> " ++ d.shownType ++ ", " ++
      Text.decimal d.written.locals ++ " locals") } ::
    (d.body.code (d.scope σ) ++
      [.of (.push 0) "default return value",
        .of (.giveBack d.written.parameters.length) ("exit " ++ d.name)])

end Definition

/-- What becomes of a written function. -/
inductive Fate where
  /-- It gets code. -/
  | defined (d : Definition)
  /-- It lacks its name or its body. -/
  | incomplete (location : Option Location)
  /-- A function with its name has code already. -/
  | repeated (name : String) (location : Option Location)

namespace Script

/-- The fates of functions, given the names that have code already. -/
def fatesFrom (signatures : List Signature) : List String → List Function → List Fate
  | _, [] => []
  | seen, f :: fs =>
    match f.name, f.body with
    | some name, some body =>
      if seen.contains name then .repeated name f.location :: fatesFrom signatures seen fs
      else
        let signature := (signatures.find? (·.name = name)).getD ⟨name, none, f.parameters.length⟩
        .defined ⟨name, signature, f, body⟩ :: fatesFrom signatures (name :: seen) fs
    | _, _ => .incomplete f.location :: fatesFrom signatures seen fs

/-- The fates of the functions of a script. -/
def fates (s : Script) : List Fate := fatesFrom s.signatures [] s.functions

/-- The functions that get code. -/
def definitions (s : Script) : List Definition :=
  s.fates.filterMap fun
    | .defined d => some d
    | _ => none

/-- The code before the functions: the statements outside them, the call of the first function, and
the end of the run. -/
def entryCode (s : Script) : List Draft :=
  s.entry.code s.startScope ++
    [{ action := .call entryName (-1), comment := some ("call " ++ entryName) },
      .of .halt "end of program"]

/-- The entries of functions whose code stands one after the other from an address on. -/
def entriesFrom (σ : Scope) : Nat → List Definition → List (String × Nat)
  | _, [] => []
  | address, d :: ds => (d.name, address) :: entriesFrom σ (address + (d.code σ).length) ds

/-- The entries of the functions. -/
def entries (s : Script) : List (String × Nat) :=
  entriesFrom s.functionScope s.entryCode.length s.definitions

/-- All code. -/
def code (s : Script) : List Draft :=
  s.entryCode ++ s.definitions.flatMap (Definition.code s.functionScope)

/-- The program of a script. -/
def program (comments : Bool) (s : Script) : Program :=
  { code := (Draft.link comments s.entries 0 s.code).toArray
    functions := s.entries
    globals := s.functionScope.globals.length }

end Script

end StackLang
