import StackLang.Log
import StackLang.Machine.Step

/-!
# Runs of the machine

Many steps at a time, with the records they leave. How long a run takes is not known beforehand, so
a run is given the number of steps it may take.
-/

namespace StackLang.Machine

/-- A record of the machine. -/
def record (level : Log.Level) (message : String) : Log := ⟨level, .machine, message⟩

/-- The words of the stack that a trace shows. -/
def traceWindow : Int := 10

/-- The line that traces a step: the registers, the instruction and the topmost words. -/
def traceLine (m : Machine) (i : Instruction) : String :=
  let words := m.liveFrom (m.sp - traceWindow).toNat
  "PC=" ++ Text.zeroPadded 4 m.pc ++ "  SP=" ++ Text.flushRight 3 ' ' (Text.decimal m.sp) ++
    "  FP=" ++ Text.flushRight 3 ' ' (Text.decimal m.fp) ++ "  | " ++ Text.flushLeft 20 i.text ++
    " | Stack: [" ++ ", ".intercalate (words.map Text.decimal) ++ "]"

/-- The record that is left before a step. -/
def traceRecord (m : Machine) : List Log :=
  match m.options.trace, m.current? with
  | true, some i => [record .debug (m.traceLine i)]
  | _, _ => []

/-- The records of the lines written after the first `count`. -/
def outputRecords (m : Machine) (count : Nat) : List Log :=
  (m.output.extract count).toList.map fun line => record .debug ("OUTPUT: " ++ line)

/-- The record of a stop. -/
def stopRecord : Stop → List Log
  | .fault f => [record .error ("VM fault: " ++ f.message)]
  | .outside => []

/-- Why a part of a run does not come to its end. -/
inductive Interruption where
  | stop (s : Stop)
  /-- There is no room for the stack. -/
  | shortage (s : Shortage)
deriving DecidableEq

/-- What a part of a run comes to: the machine, the records left, and the interruption if there was
one. -/
structure Ran where
  machine : Machine
  logs : List Log
  interruption : Option Interruption

/-- One step with its records. -/
def stepLogged (m : Machine) : Ran :=
  let before := m.traceRecord
  let written := m.output.size
  match step m with
  | .ok () m => ⟨m, before ++ m.outputRecords written, none⟩
  | .error stop m => ⟨m, before ++ stopRecord stop, some (.stop stop)⟩

/-- Loading with its record. If there is no room for the stack, the program is taken in and all
else stays. -/
def loadLogged (m : Machine) (program : Program) : Ran :=
  match m.options.shortage? with
  | some s => ⟨{ m with program }, [], some (.shortage s)⟩
  | none =>
    match loadProgram program m with
    | .ok () m => ⟨m, [], none⟩
    | .error stop m => ⟨m, stopRecord stop, some (.stop stop)⟩

/-- At most `fuel` steps, as long as the machine is active. The records so far are given in reverse.
-/
def runFrom : Nat → List Log → Machine → Ran
  | 0, logs, m => ⟨m, logs.reverse, none⟩
  | fuel + 1, logs, m =>
    if m.isActive then
      let next := m.stepLogged
      match next.interruption with
      | none => runFrom fuel (next.logs.reverse ++ logs) next.machine
      | some i => ⟨next.machine, (next.logs.reverse ++ logs).reverse, some i⟩
    else ⟨m, logs.reverse, none⟩

/-- At most `fuel` steps, as long as the machine is active. -/
def run (fuel : Nat) (m : Machine) : Ran := runFrom fuel [] m

/-- The record at the start of a run. -/
def startRecord (m : Machine) : Log :=
  record .debug ("Starting: " ++ Text.decimal m.program.size ++ " instructions, " ++
    Text.decimal m.program.globals ++ " globals, stack size " ++ Text.decimal m.options.stackSize)

/-- The record at the end of a run with a result. -/
def haltRecord (m : Machine) (result : Int) : Log :=
  record .debug ("Halted after " ++ Text.decimal m.steps ++ " steps: SP=" ++ Text.decimal m.sp ++
    " FP=" ++ Text.decimal m.fp ++ " PC=" ++ Text.decimal m.pc ++ " result=" ++
    Text.decimal result)

/-- How a program ends. -/
inductive Ending where
  | result (value : Int)
  | interrupted (i : Interruption)
  /-- The steps allowed did not suffice. -/
  | unfinished
deriving DecidableEq

/-- What a whole run comes to. -/
structure Execution where
  machine : Machine
  logs : List Log
  ending : Ending

/-- Loads a program and runs it to its end in at most `fuel` steps. -/
def executeProgram (fuel : Nat) (m : Machine) (program : Program) : Execution :=
  let loaded := m.loadLogged program
  match loaded.interruption with
  | some i => ⟨loaded.machine, loaded.logs, .interrupted i⟩
  | none =>
    let start := loaded.logs ++ [loaded.machine.startRecord]
    let ran := loaded.machine.run fuel
    match ran.interruption with
    | some i => ⟨ran.machine, start ++ ran.logs, .interrupted i⟩
    | none =>
      if ran.machine.isActive then ⟨ran.machine, start ++ ran.logs, .unfinished⟩
      else
        let halted := { ran.machine with running := false }
        match halted.result? with
        | some value => ⟨halted, start ++ ran.logs ++ [halted.haltRecord value], .result value⟩
        | none => ⟨halted, start ++ ran.logs, .interrupted (.stop .outside)⟩

end StackLang.Machine
