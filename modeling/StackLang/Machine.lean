import StackLang.Program

/-!
# The stack machine

The state of the machine and the ways in which it stops. The stack is an array of words of which
those below the stack pointer are live. Hand-made programs can bring the registers out of range; an
index below zero then counts from the end of the stack, and one beyond either end stops the machine.
-/

namespace StackLang

/-- How the machine is set up. -/
structure MachineOptions where
  stackSize : Int := 1024
  trace : Bool := false
deriving DecidableEq, Inhabited

/-- Why there is no room for a stack. -/
inductive Shortage where
  /-- The size is beyond all indices. -/
  | noIndex
  /-- No memory holds so many words. -/
  | noMemory
deriving DecidableEq

namespace MachineOptions

/-- The sizes from here on are no indices. -/
def indexBound : Int := 0x8000000000000000

/-- The sizes from here on are more words than there is memory for. -/
def memoryBound : Int := 0x40000000

/-- Why there is no room for the stack, if there is none. The machine itself knows no such bounds:
they are asked for before a stack is made. -/
def shortage? (options : MachineOptions) : Option Shortage :=
  if options.stackSize < -indexBound ∨ indexBound ≤ options.stackSize then some .noIndex
  else if memoryBound ≤ options.stackSize then some .noMemory
  else none

end MachineOptions

/-- The classes of faults. -/
inductive FaultClass where
  | general | stackOverflow | stackUnderflow | divisionByZero | invalidOpcode | invalidAddress
deriving DecidableEq

/-- Why the machine faults. -/
inductive FaultCause where
  /-- The global variables do not fit. -/
  | globalsExceed (globals stackSize : Int)
  /-- No room for one more word. -/
  | overflow (stackSize : Int)
  /-- No room for the variables of a function. -/
  | localsOverflow (locals stackSize : Int)
  /-- No word to pop. -/
  | underflow
  /-- More arguments to drop than words, or a negative number of them. -/
  | cannotDrop (arguments words : Int)
  /-- A negative number of variables that takes more than all words. -/
  | cannotReserve (locals : Int)
  /-- A division by zero. -/
  | divisionByZero
  /-- Something that is no operation. -/
  | unknownOperation (x : Foreign)
  /-- The next instruction would be outside the program. -/
  | outsideProgram (size : Nat)
  /-- A variable outside the live stack. -/
  | outsideStack (address sp : Int)
  /-- A jump to no instruction. -/
  | jumpTarget (target : Int)
  /-- A call of no instruction. -/
  | callTarget (target : Int)
  /-- A text that the table lacks. -/
  | outsideConstants (index : Int) (size : Nat)
  /-- A text of its own. -/
  | remark (category : FaultClass) (text : String)
deriving DecidableEq

namespace FaultCause

/-- The class of a cause. -/
def category : FaultCause → FaultClass
  | globalsExceed _ _ | overflow _ | localsOverflow _ _ => .stackOverflow
  | underflow | cannotDrop _ _ | cannotReserve _ => .stackUnderflow
  | divisionByZero => .divisionByZero
  | unknownOperation _ => .invalidOpcode
  | outsideProgram _ | outsideStack _ _ | jumpTarget _ | callTarget _ | outsideConstants _ _ =>
    .invalidAddress
  | remark category _ => category

/-- The text of a cause. -/
def text : FaultCause → String
  | globalsExceed globals stackSize =>
    Text.decimal globals ++ " global slots exceed stack size " ++ Text.decimal stackSize
  | overflow stackSize => "stack overflow (capacity " ++ Text.decimal stackSize ++ ")"
  | localsOverflow locals stackSize =>
    "stack overflow reserving " ++ Text.decimal locals ++ " locals (capacity " ++
      Text.decimal stackSize ++ ")"
  | underflow => "stack underflow"
  | cannotDrop arguments words =>
    "cannot drop " ++ Text.decimal arguments ++ " arguments from " ++ Text.decimal words ++
      " stack words"
  | cannotReserve locals => "cannot reserve " ++ Text.decimal locals ++ " locals"
  | divisionByZero => "division by zero"
  | unknownOperation x => "unknown opcode " ++ x.shown
  | outsideProgram size =>
    "program counter outside program (0.." ++ Text.decimal ((size : Int) - 1) ++ ")"
  | outsideStack address sp =>
    "stack address " ++ Text.decimal address ++ " outside live stack (0.." ++
      Text.decimal (sp - 1) ++ ")"
  | jumpTarget target => "unresolved jump target " ++ Text.decimal target
  | callTarget target => "unresolved call target " ++ Text.decimal target
  | outsideConstants index size =>
    "constant index " ++ Text.decimal index ++ " outside table of " ++ Text.decimal size
  | remark _ text => text

end FaultCause

/-- A fault: its cause, the address and the instruction at which it arises. -/
structure Fault where
  cause : FaultCause
  pc : Int := 0
  instruction : Option Instruction := none
deriving DecidableEq

namespace Fault

/-- The bare text. -/
def text (f : Fault) : String := f.cause.text

/-- The full text. -/
def message (f : Fault) : String :=
  let instruction := match f.instruction with
    | some i => " (" ++ i.text ++ ")"
    | none => ""
  "pc " ++ Text.zeroPadded 4 f.pc ++ instruction ++ ": " ++ f.text

end Fault

/-- Why the machine stops in the middle of something. -/
inductive Stop where
  | fault (f : Fault)
  /-- An index beyond either end of the stack. -/
  | outside
deriving DecidableEq

/-- The state of the machine. -/
structure Machine where
  options : MachineOptions
  program : Program
  stack : Array Int
  /-- The number of live words. -/
  sp : Int
  /-- The base of the frame. -/
  fp : Int
  /-- The address of the next instruction. -/
  pc : Int
  running : Bool
  /-- The number of instructions executed since the program was loaded. -/
  steps : Nat
  /-- The lines written since the program was loaded. -/
  output : Array String
deriving Inhabited

namespace Machine

/-- A stack of zeros. -/
def emptyStack (options : MachineOptions) : Array Int := Array.replicate options.stackSize.toNat 0

/-- A machine without a program. -/
def initial (options : MachineOptions) : Machine :=
  { options, program := {}, stack := emptyStack options, sp := 0, fp := 0, pc := 0,
    running := false, steps := 0, output := #[] }

/-- A machine without a program, if there is room for its stack. -/
def make (options : MachineOptions) : Except Shortage Machine :=
  match options.shortage? with
  | some s => .error s
  | none => .ok (initial options)

/-- The place of the word with an index, in a stack of a size: from the start, or, below zero, from
the end. -/
def slot? (size : Nat) (index : Int) : Option Nat :=
  if 0 ≤ index then if index < size then some index.toNat else none
  else if -index ≤ size then some (size + index).toNat
  else none

/-- The word with an index. -/
def word? (m : Machine) (index : Int) : Option Int := (slot? m.stack.size index).bind (m.stack[·]?)

/-- How many words a stack pointer counts: none or all, if it is beyond the ends. -/
def liveCount (m : Machine) : Nat :=
  if 0 ≤ m.sp then m.sp.toNat else (m.stack.size + m.sp).toNat

/-- The live words from one on. -/
def liveFrom (m : Machine) (start : Nat) : List Int := (m.stack.extract start m.liveCount).toList

/-- The live words. -/
def live (m : Machine) : List Int := m.liveFrom 0

/-- The top word, or zero if none is live. There may be no such word if the stack pointer is too
large. -/
def result? (m : Machine) : Option Int := if 0 < m.sp then m.word? (m.sp - 1) else some 0

/-- Whether there is an instruction to execute, or none because the address is negative. -/
def isActive (m : Machine) : Bool := m.running && m.pc < m.program.size

theorem slot?_lt {size : Nat} {index : Int} {k : Nat} (h : slot? size index = some k) :
    k < size := by
  unfold slot? at h
  split at h <;> split at h <;> simp only [Option.some.injEq, reduceCtorEq] at h <;> omega

/-- An index in the range of the stack is its own place. -/
theorem slot?_ofNat {size k : Nat} (h : k < size) : slot? size k = some k := by
  simp [slot?, h]

end Machine

end StackLang
