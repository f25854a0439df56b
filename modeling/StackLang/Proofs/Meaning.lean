import Mathlib.Data.Nat.Digits.Defs
import StackLang.Tree
import StackLang.Word

/-!
# The meaning of programs

A reference semantics of program trees that knows neither code nor slots. Every occurrence of a
declaration in a function is a variable of its own, and what a name denotes is read off the text.

Calls and loops count down a clock, so that every program has a meaning for each clock: a value, a
division by zero, or no more time. A program goes on for ever if no clock suffices.
-/

namespace StackLang.Meaning

/-! ## Variables -/

/-- A variable of a running program. -/
inductive Variable where
  | global (name : String)
  | parameter (name : String)
  /-- The declaration with this number in the text of the function. -/
  | occurrence (i : Nat)
deriving DecidableEq

/-- A point of the text: outside functions, or inside one with these parameters after these
declarations, the newest first. -/
inductive Context where
  | outside
  | inside (parameters declared : List String)

/-- The number of the newest declaration of a name. -/
def latest? (name : String) : List String → Option Nat
  | [] => none
  | d :: ds => if d = name then some ds.length else latest? name ds

namespace Context

/-- What a name denotes: its newest declaration, else the parameter, else the global variable. -/
def denoted (Γ : Context) (name : String) : Variable :=
  match Γ with
  | outside => .global name
  | inside parameters declared =>
    match latest? name declared with
    | some i => .occurrence i
    | none => if name ∈ parameters then .parameter name else .global name

/-- The point after a declaration. -/
def declare (Γ : Context) (name : String) : Context :=
  match Γ with
  | outside => outside
  | inside parameters declared => inside parameters (name :: declared)

end Context

/-- The name that a node declares as a variable. -/
def declares? (t : Tree) : Option String :=
  if t.kind = .variableDeclaration then t.get? "name" else none

/-- The names declared in trees, in the order of the text. -/
def declaredNames (ts : List Tree) : List String := (Tree.walkAll ts).filterMap declares?

/-- The point after trees; blocks do not end the life of a name. -/
def Context.after (Γ : Context) (ts : List Tree) : Context := (declaredNames ts).foldl declare Γ

/-! ## Computations -/

/-- The values of all variables and the lines printed. -/
structure Store where
  value : Variable → Int
  output : List String

/-- Why a computation ends without a result. -/
inductive Halt where
  | divisionByZero
  | timeout
  /-- The tree has no meaning. -/
  | stuck

/-- A computation on a store. -/
abbrev Eval := EStateM Halt Store

/-- How a statement ends. -/
inductive Flow where
  | next
  | returned (value : Int)

/-- The value of a variable. -/
def read (x : Variable) : Eval Int := fun s => .ok (s.value x) s

/-- The store with another value of a variable. -/
def Store.set (s : Store) (x : Variable) (v : Int) : Store :=
  { s with value := fun y => if y = x then v else s.value y }

/-- Gives a variable a value. -/
def write (x : Variable) (v : Int) : Eval Unit := fun s => .ok () (s.set x v)

/-- Prints a number on a line of its own, and gives it back. -/
def print (v : Int) : Eval Int := fun s => .ok v { s with output := s.output ++ [toString v] }

/-- The word that digits denote. -/
def literal (digits : String) : Int :=
  Word.wrap (Nat.ofDigits 10 (digits.toList.reverse.map fun c => c.toNat - '0'.toNat) : Nat)

/-- The word that an operator gives. -/
def arithmetic (operator : String) (a b : Int) : Eval Int :=
  match operator with
  | "+" => pure (Word.wrap (a + b))
  | "-" => pure (Word.wrap (a - b))
  | "*" => pure (Word.wrap (a * b))
  | "/" => if b = 0 then throw .divisionByZero else pure (Word.wrap (a.tdiv b))
  | "==" => pure (if a = b then 1 else 0)
  | "!=" => pure (if a = b then 0 else 1)
  | "<" => pure (if a < b then 1 else 0)
  | ">" => pure (if b < a then 1 else 0)
  | "<=" => pure (if a ≤ b then 1 else 0)
  | ">=" => pure (if b ≤ a then 1 else 0)
  | _ => throw .stuck

/-- Repeats a body as long as a test gives no zero, at most as often as the clock allows. -/
def repeatWhile (test : Eval Int) (body : Eval Flow) : Nat → Eval Flow
  | 0 => throw .timeout
  | clock + 1 => do
    if (← test) = 0 then return .next
    match ← body with
    | .next => repeatWhile test body clock
    | .returned v => return .returned v

/-- The store at the start of a function: fresh variables and the parameters. -/
def Store.enter (s : Store) (arguments : List (String × Int)) : Store where
  value
    | .global name => s.value (.global name)
    | .parameter name => (arguments.lookup name).getD 0
    | .occurrence _ => 0
  output := s.output

/-- The store after a function that was called in the store `s`. -/
def Store.leave (s callee : Store) : Store where
  value
    | .global name => callee.value (.global name)
    | x => s.value x
  output := callee.output

/-- Carries out the body of a function in variables of its own. -/
def inFrame (arguments : List (String × Int)) (body : Eval Int) : Eval Int := fun s =>
  match body (s.enter arguments) with
  | .ok v callee => .ok v (s.leave callee)
  | .error e callee => .error e (s.leave callee)

/-! ## Trees -/

section Trees

variable (call : String → List Int → Eval Int)

mutual

/-- The value of a tree at a point. -/
def evaluate (Γ : Context) : Tree → Eval Int
  | ⟨kind, value, attributes, children, _⟩ =>
    match kind with
    | .number =>
      match value with
      | some digits => pure (literal digits)
      | none => throw .stuck
    | .identifier =>
      match value with
      | some name => read (Γ.denoted name)
      | none => throw .stuck
    | .negate =>
      match children with
      | [operand] => do return Word.wrap (-(← evaluate Γ operand))
      | _ => throw .stuck
    | .expression | .term | .condition =>
      match attributes.get? "operator", children with
      | some operator, [left, right] => do
        let a ← evaluate Γ left
        let b ← evaluate Γ right
        arithmetic operator a b
      | _, _ => throw .stuck
    | .functionCall =>
      match attributes.get? "name" with
      | some name => do call name (← evaluateAll Γ children)
      | none => throw .stuck
    | _ => throw .stuck

/-- The values of trees, the first one first. -/
def evaluateAll (Γ : Context) : List Tree → Eval (List Int)
  | [] => pure []
  | t :: ts => do
    let v ← evaluate Γ t
    let vs ← evaluateAll Γ ts
    return v :: vs

end

variable (clock : Nat)

mutual

/-- Carries out a tree at a point. -/
def execute (Γ : Context) : Tree → Eval Flow
  | ⟨kind, value, attributes, children, location⟩ =>
    match kind with
    | .variableDeclaration =>
      match attributes.get? "name", children with
      | some name, [] => do
        write ((Γ.declare name).denoted name) 0
        return .next
      | some name, [initial] => do
        write ((Γ.declare name).denoted name) (← evaluate call (Γ.declare name) initial)
        return .next
      | _, _ => throw .stuck
    | .assignment =>
      match attributes.get? "name", children with
      | some name, [value] => do
        write (Γ.denoted name) (← evaluate call Γ value)
        return .next
      | _, _ => throw .stuck
    | .conditional => executeBranch Γ children
    | .loop =>
      match children with
      | [condition, body] =>
        repeatWhile (evaluate call Γ condition) (executeBlock Γ body) clock
      | _ => throw .stuck
    | .giveBack =>
      match children with
      | [value] => do return .returned (← evaluate call Γ value)
      | _ => throw .stuck
    | .number | .identifier | .negate | .expression | .term | .functionCall => do
      let _ ← evaluate call Γ ⟨kind, value, attributes, children, location⟩
      return .next
    | _ => throw .stuck

/-- Carries out the children of a tree. -/
def executeBlock (Γ : Context) : Tree → Eval Flow
  | ⟨_, _, _, children, _⟩ => executeAll Γ children

/-- Carries out trees one after the other. -/
def executeAll (Γ : Context) : List Tree → Eval Flow
  | [] => return .next
  | t :: ts => do
    match ← execute Γ t with
    | .next => executeAll (Γ.after [t]) ts
    | .returned v => return .returned v

/-- Carries out a block if its condition is not zero, and else the branches after it. -/
def executeBranch (Γ : Context) : List Tree → Eval Flow
  | condition :: block :: rest => do
    if (← evaluate call Γ condition) ≠ 0 then executeBlock Γ block
    else executeBranches (Γ.after [block]) rest
  | _ => throw .stuck

/-- Carries out the first of the further branches whose condition is not zero. -/
def executeBranches (Γ : Context) : List Tree → Eval Flow
  | [] => return .next
  | ⟨.elseIf, _, _, [condition, block], _⟩ :: rest => do
    if (← evaluate call Γ condition) ≠ 0 then executeBlock Γ block
    else executeBranches (Γ.after [block]) rest
  | ⟨.otherwise, _, _, [block], _⟩ :: _ => executeBlock Γ block
  | _ => throw .stuck

end

end Trees

/-! ## Programs -/

/-- The function of a program with a name. -/
def functionNamed? (program : Tree) (name : String) : Option Tree :=
  program.children.find? fun t => t.kind = .function && t.get? "name" = some name

/-- The names of the parameters of a function. -/
def parameterNames (f : Tree) : List String :=
  ((f.first? .parameterList).map Tree.children).getD [] |>.filterMap (·.get? "name")

/-- The value of a call: that of a function of the program, or what `print` gives if no function has
this name. -/
def callAt (program : Tree) : Nat → String → List Int → Eval Int
  | 0, _, _ => throw .timeout
  | clock + 1, name, values =>
    match functionNamed? program name with
    | some f =>
      match f.first? .block with
      | some body =>
        if values.length = (parameterNames f).length then
          inFrame ((parameterNames f).zip values) do
            match ← executeBlock (callAt program clock) clock (.inside (parameterNames f) [])
              body with
            | .next => return 0
            | .returned v => return v
        else throw .stuck
      | none => throw .stuck
    | none =>
      match name, values with
      | "print", [v] => print v
      | _, _ => throw .stuck

/-- All variables are zero and nothing is printed. -/
def Store.initial : Store := ⟨fun _ => 0, []⟩

/-- The statements of a program outside its functions. -/
def entryStatements (program : Tree) : List Tree := program.children.filter (·.kind ≠ .function)

/-- The computation of a program: its statements outside functions, and then `main`. -/
def compute (program : Tree) (clock : Nat) : Eval Int := do
  match ← executeAll (callAt program clock) clock .outside (entryStatements program) with
  | .next => callAt program clock "main" []
  | .returned _ => throw .stuck

/-- What a program comes to. -/
def run (program : Tree) (clock : Nat) : EStateM.Result Halt Store Int :=
  compute program clock .initial

end StackLang.Meaning
