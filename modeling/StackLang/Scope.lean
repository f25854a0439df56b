import StackLang.Script

/-!
# Scopes

What names denote at a point of a script. Outside functions every variable has a global slot. Inside
a function the newest declaration of a name counts, then its parameter, then the global variable;
blocks do not end the life of a name.
-/

namespace StackLang

/-- Where a variable lives. -/
inductive Place where
  /-- A slot counted from the bottom of the stack. -/
  | global (slot : Nat)
  /-- An offset from the base of the frame. -/
  | frame (offset : Int)
deriving DecidableEq

/-- The names known at a point. -/
structure Scope where
  signatures : List Signature
  /-- The global variables in the order of their slots. -/
  globals : List String
  /-- The names of the frame with their offsets, the newest first. -/
  locals : List (Option String × Int) := []
  /-- The number of variables declared in the frame. -/
  frameSize : Nat := 0
  /-- The function around the point. -/
  inside : Option Signature := none

namespace Scope

/-- The function that calls of `name` mean. -/
def signature? (σ : Scope) (name : Option String) : Option Signature :=
  σ.signatures.find? fun f => some f.name = name

/-- What a name denotes. -/
def resolve? (σ : Scope) (name : Option String) : Option Place :=
  match σ.locals.lookup name with
  | some offset => some (.frame offset)
  | none => name.bind fun n => (σ.globals.idxOf? n).map .global

/-- The names that can be meant, each once for the frame and once for the globals. -/
def known (σ : Scope) : List (Option String) :=
  (σ.locals.map (·.1)).eraseDups ++ σ.globals.map some

/-- Where a variable declared here lives. A function gives each declaration a place of its own;
outside functions a name is declared once. -/
def placeOf (σ : Scope) (name : String) : Place :=
  match σ.inside with
  | some _ => .frame σ.frameSize
  | none => .global ((σ.globals.idxOf? name).getD σ.globals.length)

/-- The scope after a declaration. -/
def declare (σ : Scope) (name : String) : Scope :=
  match σ.inside with
  | some _ =>
    { σ with locals := (some name, σ.frameSize) :: σ.locals, frameSize := σ.frameSize + 1 }
  | none => if σ.globals.contains name then σ else { σ with globals := σ.globals ++ [name] }

/-- The scope at the start of a function with these parameters. Of several with one name the first
counts; the last one stands just below the two words that a call saves. -/
def enter (σ : Scope) (f : Signature) (parameters : List Parameter) : Scope :=
  let bind (locals : List (Option String × Int)) (p : Parameter × Nat) :=
    if (locals.lookup p.1.name).isSome then locals
    else (p.1.name, -((parameters.length : Int) - p.2 + 2)) :: locals
  { σ with locals := parameters.zipIdx.foldl bind [], frameSize := 0, inside := some f }

end Scope

/-- The scope after a statement. -/
def Stmt.scopeAfter (σ : Scope) : Stmt → Scope
  | .seq first second => second.scopeAfter (first.scopeAfter σ)
  | .declare name _ => σ.declare name
  | .branch _ _ yes no => no.scopeAfter (yes.scopeAfter σ)
  | .loop _ body => body.scopeAfter σ
  | _ => σ

namespace Script

/-- The names declared outside all blocks, each once. -/
def globals (s : Script) : List String := (s.declared.map (·.1)).eraseDups

/-- The scope at the start of a script: all that is declared outside all blocks is known. -/
def startScope (s : Script) : Scope := { signatures := s.signatures, globals := s.globals }

/-- The scope after the statements outside functions, in which the functions stand. -/
def functionScope (s : Script) : Scope := s.entry.scopeAfter s.startScope

end Script

end StackLang
