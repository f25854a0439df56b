import StackLang.Machine
import StackLang.Word

/-!
# Steps of the machine

Each operation of the machine. What stops in the middle of a step keeps the effects it had so far:
words that were popped stay popped.
-/

namespace StackLang.Machine

/-- A part of a step: it changes the machine, and may stop. -/
abbrev Exec := EStateM Stop Machine

/-- Stops the machine with a fault at the instruction `i`. -/
def fault {α : Type} (i : Instruction) (cause : FaultCause) : Exec α := fun m =>
  .error (.fault ⟨cause, m.pc, some i⟩) { m with running := false }

/-- The word with an index. -/
def readWord (index : Int) : Exec Int := fun m =>
  match m.word? index with
  | some v => .ok v m
  | none => .error .outside m

/-- Stores a word at an index. -/
def writeWord (index v : Int) : Exec Unit := fun m =>
  match slot? m.stack.size index with
  | some k => .ok () { m with stack := m.stack.setIfInBounds k v }
  | none => .error .outside m

/-- Sets the stack pointer. -/
def setSp (sp : Int) : Exec Unit := fun m => .ok () { m with sp }

/-- Goes to an address. -/
def goto (pc : Int) : Exec Unit := fun m => .ok () { m with pc }

/-- Goes to the next instruction. -/
def advance : Exec Unit := fun m => .ok () { m with pc := m.pc + 1 }

/-- Writes a line. -/
def writeLine (line : String) : Exec Unit := fun m => .ok () { m with output := m.output.push line }

/-- Pushes a word. -/
def push (i : Instruction) (v : Int) : Exec Unit := do
  let m ← get
  let sp := m.sp
  if m.options.stackSize ≤ sp then fault i (.overflow m.options.stackSize)
  writeWord sp v
  setSp (sp + 1)

/-- Pops a word. -/
def pop (i : Instruction) : Exec Int := do
  let sp := (← get).sp
  if sp ≤ 0 then fault i .underflow
  setSp (sp - 1)
  readWord (sp - 1)

/-- The top word. -/
def top (i : Instruction) : Exec Int := do
  let sp := (← get).sp
  if sp ≤ 0 then fault i .underflow
  readWord (sp - 1)

/-- Faults unless an address is that of a live word. -/
def checkLive (i : Instruction) (address : Int) : Exec Unit := do
  let sp := (← get).sp
  if ¬(0 ≤ address ∧ address < sp) then fault i (.outsideStack address sp)

/-- Pushes the word at an address. -/
def load (i : Instruction) (address : Int) : Exec Unit := do
  checkLive i address
  push i (← readWord address)
  advance

/-- Pops a word into an address. -/
def store (i : Instruction) (address : Int) : Exec Unit := do
  let v ← pop i
  checkLive i address
  writeWord address v
  advance

/-- Jumps to an instruction or to the end of the program. -/
def jump (i : Instruction) (target : Int) : Exec Unit := do
  let m ← get
  if ¬(0 ≤ target ∧ target ≤ m.program.size) then fault i (.jumpTarget target)
  goto target

/-- Stores zeros at `count` indices from one on. -/
def clear (index : Int) : Nat → Exec Unit
  | 0 => pure ()
  | count + 1 => do
    writeWord index 0
    clear (index + 1) count

/-- Calls a function: saves the next address and the frame, and starts a new frame. -/
def call (i : Instruction) (target : Int) : Exec Unit := do
  let m ← get
  if ¬(0 ≤ target ∧ target < m.program.size) then fault i (.callTarget target)
  let pc := m.pc
  let fp := m.fp
  push i (pc + 1)
  push i fp
  modify fun m => { m with fp := m.sp, pc := target }

/-- Returns from a function: drops the frame and the arguments, and pushes the value. -/
def giveBack (i : Instruction) (arguments : Int) : Exec Unit := do
  let v ← pop i
  modify fun m => { m with sp := m.fp }
  let fp ← pop i
  modify fun m => { m with fp }
  let address ← pop i
  let sp := (← get).sp
  if ¬(0 ≤ arguments ∧ arguments ≤ sp) then fault i (.cannotDrop arguments sp)
  setSp (sp - arguments)
  push i v
  goto address

/-- Makes room for the variables of a function and sets them to zero. -/
def enter (i : Instruction) (locals : Int) : Exec Unit := do
  let m ← get
  let sp := m.sp
  if m.options.stackSize < sp + locals then fault i (.localsOverflow locals m.options.stackSize)
  if sp + locals < 0 then fault i (.cannotReserve locals)
  clear sp locals.toNat
  setSp (sp + locals)
  advance

/-- Computes an operator of the two top words. -/
def compute (i : Instruction) (op : Operator) : Exec Unit := do
  let right ← pop i
  let left ← pop i
  match op.compute? left right with
  | some v => push i v
  | none => fault i .divisionByZero
  advance

/-- Writes the text with the number on top of the stack. -/
def printText (i : Instruction) : Exec Unit := do
  let index ← pop i
  let constants := (← get).program.constants
  if 0 ≤ index then
    match constants[index.toNat]? with
    | some line => writeLine line
    | none => fault i (.outsideConstants index constants.size)
  else fault i (.outsideConstants index constants.size)
  advance

/-- Executes an instruction. -/
def execute (i : Instruction) : Exec Unit :=
  match i.operation with
  | .push v => do push i (Word.wrap v); advance
  | .load offset => do load i ((← get).fp + offset)
  | .store offset => do store i ((← get).fp + offset)
  | .loadGlobal slot => load i slot
  | .storeGlobal slot => store i slot
  | .pop => do let _ ← pop i; advance
  | .compute op => compute i op
  | .negate => do push i (Word.wrap (-(← pop i))); advance
  | .jump target => jump i target
  | .jumpIfZero target => do if (← pop i) = 0 then jump i target else advance
  | .jumpIfNonzero target => do if (← pop i) ≠ 0 then jump i target else advance
  | .call target => call i target
  | .giveBack arguments => giveBack i arguments
  | .enter locals => enter i locals
  | .leave => do modify (fun m => { m with sp := m.fp }); advance
  | .skip => advance
  | .halt => modify fun m => { m with running := false }
  | .print => do writeLine (Text.decimal (← top i)); advance
  | .printText => printText i
  | .foreign x => fault i (.unknownOperation x)

/-- The instruction that the machine is at. -/
def current? (m : Machine) : Option Instruction :=
  if 0 ≤ m.pc then m.program.code[m.pc.toNat]? else none

/-- Executes exactly one instruction. An instruction counts as a step unless it is unknown. -/
def step : Exec Unit := fun m =>
  match m.current? with
  | none =>
    .error (.fault ⟨.outsideProgram m.program.size, m.pc, none⟩) { m with running := false }
  | some i =>
    match i.operation with
    | .foreign _ => execute i m
    | _ => execute i { m with steps := m.steps + 1 }

/-- Takes a program in and reserves its global variables. -/
def loadProgram (program : Program) : Exec Unit := fun m =>
  let fresh : Machine :=
    { options := m.options, program, stack := emptyStack m.options, sp := 0, fp := 0, pc := 0,
      running := true, steps := 0, output := #[] }
  if m.options.stackSize < program.globals then
    .error (.fault ⟨.globalsExceed program.globals m.options.stackSize, 0, none⟩)
      { fresh with running := false }
  else .ok () { fresh with sp := program.globals }

end StackLang.Machine
