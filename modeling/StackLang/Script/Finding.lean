import StackLang.Script.Code
import StackLang.Text.Similarity

/-!
# Findings in scripts

What there is to report about a script, in the order of its code: diagnostics, and the points at
which reading it breaks down altogether, because a numeral is too long to be converted or because a
name is to be compared with other names where there is no name.
-/

namespace StackLang

/-- Why a script cannot be compiled at all. -/
inductive Breakdown where
  /-- A numeral with this many digits. -/
  | longNumeral (digits : Nat)
  /-- A comparison of names where one is missing. -/
  | missingName
deriving DecidableEq

/-- What is found at a point of a script. -/
inductive Finding where
  | issue (cause : Cause) (location : Option Location)
  | breakdown (b : Breakdown)
deriving DecidableEq

/-- A construct without meaning. -/
def Finding.misuse (m : Misuse) (location : Option Location) : Finding :=
  .issue (.misuse m) location

/-- What is found about a name that means nothing, among candidates for what was meant. -/
def Finding.unknownName (cause : String → List String → Cause) (name : Option String)
    (candidates : List (Option String)) (location : Option Location) : Finding :=
  match name with
  | none => .breakdown .missingName
  | some n =>
    if candidates.contains none then .breakdown .missingName
    else .issue (cause n (Text.Similarity.closest n (candidates.filterMap id))) location

namespace Scope

/-- What is found where a variable is used. -/
def variableFindings (σ : Scope) (name : Option String) (location : Option Location) :
    List Finding :=
  match σ.resolve? name with
  | some _ => []
  | none => [.unknownName .undeclaredIdentifier name σ.known location]

/-- What is found where a function is called with `count` arguments. -/
def callFindings (σ : Scope) (callee : Option String) (count : Nat) (location : Option Location) :
    List Finding :=
  match σ.signature? callee with
  | none =>
    [.unknownName .undefinedFunction callee (σ.signatures.map (some ·.name)) location]
  | some f =>
    if count = f.arity then [] else [.issue (.argumentCount f.name f.arity count) location]

end Scope

mutual

/-- What is found in an expression. -/
def Expr.findings (σ : Scope) : Expr → List Finding
  | .number digits =>
    if Text.digitLimit < digits.length then [.breakdown (.longNumeral digits.length)] else []
  | .variable name location => σ.variableFindings name location
  | .binary _ left right => left.findings σ ++ right.findings σ
  | .unknown operator left right location =>
    left.findings σ ++ right.findings σ ++ [.misuse (.unknownOperator operator) location]
  | .negate operand => operand.findings σ
  | .call callee arguments location =>
    if σ.prints callee then
      (if arguments.length = 1 then []
        else [.issue (.argumentCount printName 1 arguments.length) location]) ++
        Expr.findingsAll σ arguments
    else Expr.findingsAll σ arguments ++ σ.callFindings callee arguments.length location
  | .hole m location => [.misuse m location]

/-- What is found in several expressions. -/
def Expr.findingsAll (σ : Scope) : List Expr → List Finding
  | [] => []
  | e :: es => e.findings σ ++ Expr.findingsAll σ es

end

/-- What is found in an expression that may be absent. -/
def Expr.findings? (σ : Scope) (e : Option Expr) : List Finding := (e.map (Expr.findings σ)).getD []

/-- What is found in a statement. -/
def Stmt.findings (σ : Scope) : Stmt → List Finding
  | .skip => []
  | .seq first second => first.findings σ ++ second.findings (first.scopeAfter σ)
  | .declare name value => Expr.findings? (σ.declare name) value
  | .assign name value location => value.findings σ ++ σ.variableFindings name location
  | .discard value => value.findings σ
  | .branch _ condition yes no =>
    condition.findings σ ++ yes.findings σ ++ no.findings (yes.scopeAfter σ)
  | .loop condition body => condition.findings σ ++ body.findings σ
  | .giveBack value location =>
    match σ.inside with
    | none => [.misuse .returnOutsideFunction location]
    | some _ => Expr.findings? σ value
  | .misuse m location => [.misuse m location]

/-- The parameters whose name an earlier one has. -/
def Parameter.repeatedFrom : List (Option String) → List Parameter → List Parameter
  | _, [] => []
  | seen, p :: ps =>
    if seen.contains p.name then p :: repeatedFrom seen ps else repeatedFrom (p.name :: seen) ps

/-- What is found in a function that gets code. -/
def Definition.findings (σ : Scope) (d : Definition) : List Finding :=
  (Parameter.repeatedFrom [] d.written.parameters).map
      (fun p => .issue (.duplicateDeclaration "parameter" p.name) p.location) ++
    d.body.findings (d.scope σ)

/-- What is found in a function. -/
def Fate.findings (σ : Scope) : Fate → List Finding
  | .defined d => d.findings σ
  | .incomplete location => [.misuse .incompleteFunction location]
  | .repeated name location => [.issue (.duplicateDeclaration "function" (some name)) location]

namespace Script

/-- The declarations outside all blocks whose name an earlier one has. -/
def repeatedFrom : List String → List (String × Option Location) → List (String × Option Location)
  | _, [] => []
  | seen, d :: ds =>
    if seen.contains d.1 then d :: repeatedFrom seen ds else repeatedFrom (d.1 :: seen) ds

/-- What is found outside functions. -/
def entryFindings (s : Script) : List Finding :=
  (repeatedFrom [] s.declared).map
      (fun d => .issue (.duplicateDeclaration "global variable" (some d.1)) d.2) ++
    s.entry.findings s.startScope

/-- All that is found. -/
def findings (s : Script) : List Finding :=
  s.entryFindings ++ s.fates.flatMap (Fate.findings s.functionScope)

end Script

end StackLang
