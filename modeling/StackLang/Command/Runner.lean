import StackLang.Command.Tool
import StackLang.Machine.Environment
import StackLang.Machine.Run

/-!
# The run command

Compiles a file and runs it. The options of the machine come from the environment, unless arguments
give them. A run that needs more steps than allowed comes to nothing.
-/

namespace StackLang.Command

/-- The run command. -/
def runner : Tool :=
  { name := "blvm"
    forms := [{ long := "--trace" }, { long := "--stack-size", kind := .count }] ++ commonForms }

/-- The end of the run command at a failure, after what was told before it. -/
def runnerFailure (fs : Files) (out err : List Line) (f : Failure) : Outcome :=
  ⟨f.exitCode, out, err ++ [.notice (f.told (some "Runtime"))], fs⟩

/-- Runs a compiled program. -/
def runCompiled (fuel : Nat) (fs : Files) (display : Display) (options : MachineOptions)
    (input : Path) (err : List Line) (c : Compiled) : Option Outcome :=
  let size := Text.decimal c.program.size
  let out : List Line :=
    if display.verbose then
      [.notice ("Running " ++ input.text ++ " (" ++ size ++ " instructions)")]
    else []
  let err := err ++ c.warnings.map .notice
  match Machine.make options with
  | .error s => some (runnerFailure fs out err (.ofShortage s))
  | .ok machine =>
    let e := machine.executeProgram fuel c.program
    let out := out ++ e.machine.output.toList.map .notice
    let err := err ++ display.lines e.logs
    match e.ending with
    | .result value =>
      some ⟨.success, out ++ [.notice ("Result: " ++ Text.decimal value)], err, fs⟩
    | .interrupted (.stop s) => some (runnerFailure fs out err (.ofStop s))
    | .interrupted (.shortage s) => some (runnerFailure fs out err (.ofShortage s))
    | .unfinished => none

/-- The run command. -/
def runRunner (fuel : Nat) (env : Environment) (fs : Files) (args : List String) : Option Outcome :=
  runner.carryOut fs args fun a c =>
    let (options, logs) := MachineOptions.ofEnvironment env
    let options : MachineOptions :=
      { stackSize := c.stackSize.getD options.stackSize, trace := options.trace || a.has "--trace" }
    let display : Display := { verbose := a.has "--verbose", trace := options.trace }
    let compilation := FileCompilation.ofPath {} fs c.input.text
    let err := logs.map (.record ·.message) ++ display.lines compilation.logs
    match compilation.result with
    | .error f => some (runnerFailure fs [] err f)
    | .ok compiled => runCompiled fuel fs display options c.input err compiled

end StackLang.Command
