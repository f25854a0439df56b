import StackLang.Operator
import StackLang.Text.Quoted

/-!
# Operations of the machine

The instruction set: an operation with its operand if it has one, and the name of each. A program
made by hand may also hold something that is no operation of the machine.
-/

namespace StackLang

/-- What stands in the place of an operation that the machine does not know. -/
inductive Foreign where
  | text (s : String)
  | integer (n : Int)
  | truth (b : Bool)
  | nothing
deriving DecidableEq, Inhabited

namespace Foreign

/-- The plain form. -/
def plain : Foreign → String
  | text s => s
  | integer n => Text.decimal n
  | truth b => if b then "True" else "False"
  | nothing => "None"

/-- The form in which a text is told from other things by its quotes. -/
def shown : Foreign → String
  | text s => Text.quoted s
  | other => other.plain

end Foreign

/-- An operation of the machine with its operand. -/
inductive Operation where
  | push (value : Int)
  | load (offset : Int)
  | store (offset : Int)
  | loadGlobal (slot : Int)
  | storeGlobal (slot : Int)
  | pop
  | compute (op : Operator)
  | negate
  | jump (target : Int)
  | jumpIfZero (target : Int)
  | jumpIfNonzero (target : Int)
  | call (target : Int)
  | giveBack (arguments : Int)
  | enter (locals : Int)
  | leave
  | skip
  | halt
  | print
  | printText
  | foreign (x : Foreign)
deriving DecidableEq, Inhabited

namespace Operation

/-- All operations of the machine, with `n` for the operand. -/
def catalogue (n : Int) : List Operation :=
  [push n, load n, store n, loadGlobal n, storeGlobal n, pop, compute .add, compute .sub,
    compute .mul, compute .div, negate, compute .equal, compute .notEqual, compute .greater,
    compute .less, compute .greaterEqual, compute .lessEqual, jump n, jumpIfZero n,
    jumpIfNonzero n, call n, giveBack n, enter n, leave, skip, halt, print, printText]

/-- The name of an operation. -/
def name : Operation → String
  | push _ => "PUSH"
  | load _ => "LOAD"
  | store _ => "STORE"
  | loadGlobal _ => "GLOAD"
  | storeGlobal _ => "GSTORE"
  | pop => "POP"
  | compute .add => "ADD"
  | compute .sub => "SUB"
  | compute .mul => "MUL"
  | compute .div => "DIV"
  | negate => "NEG"
  | compute .equal => "CMP_EQ"
  | compute .notEqual => "CMP_NEQ"
  | compute .greater => "CMP_GT"
  | compute .less => "CMP_LT"
  | compute .greaterEqual => "CMP_GTE"
  | compute .lessEqual => "CMP_LTE"
  | jump _ => "JMP"
  | jumpIfZero _ => "JZ"
  | jumpIfNonzero _ => "JNZ"
  | call _ => "CALL"
  | giveBack _ => "RET"
  | enter _ => "ENTER"
  | leave => "LEAVE"
  | skip => "NOP"
  | halt => "HALT"
  | print => "PRINT"
  | printText => "PRINT_STR"
  | foreign x => x.plain

/-- The operand of the operations that have one. -/
def operand? : Operation → Option Int
  | push n | load n | store n | loadGlobal n | storeGlobal n | jump n | jumpIfZero n
  | jumpIfNonzero n | call n | giveBack n | enter n => some n
  | _ => none

/-- The operations whose operand is the address of an instruction. -/
def isJump : Operation → Bool
  | jump _ | jumpIfZero _ | jumpIfNonzero _ | call _ => true
  | _ => false

/-- The operation of a name, with `n` for the operand. -/
def ofName? (name : String) (n : Int) : Option Operation :=
  (catalogue n).find? (·.name = name)

/-- An operation with its operand, the name flush left in eight places. -/
def text (op : Operation) : String :=
  match op.operand? with
  | some n => Text.flushLeft 8 op.name ++ " " ++ Text.decimal n
  | none => op.name

end Operation

end StackLang
