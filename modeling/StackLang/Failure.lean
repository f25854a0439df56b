import StackLang.Compile
import StackLang.Machine

/-!
# Failures

Everything that can go wrong with a command, the text that tells it, and the exit code it leads to.
-/

namespace StackLang

/-- The classes of failures that come from outside the compiler and the machine. -/
inductive SystemClass where
  | general | fileNotFound | permission | isDirectory | notDirectory | system | value | encoding
  | runtime | argument | index | memory | overflow
deriving DecidableEq

/-- What can go wrong. -/
inductive Failure where
  /-- One diagnostic. -/
  | diagnostic (d : Diagnostic)
  /-- The report of several failures. -/
  | rejected (report : String) (errors : List Failure)
  /-- A fault of the machine. -/
  | fault (f : Fault)
  /-- Anything else. -/
  | system (category : SystemClass) (message : String)
deriving Inhabited

/-- The text of a breakdown. -/
def Breakdown.message : Breakdown → String
  | longNumeral digits =>
    "Exceeds the limit (" ++ Text.decimal Text.digitLimit ++
      " digits) for integer string conversion: value has " ++ Text.decimal digits ++
      " digits; use sys.set_int_max_str_digits() to increase the limit"
  | missingName => "a name is missing"

namespace Failure

/-- The text of a failure. -/
def message : Failure → String
  | diagnostic d => d.message
  | rejected report _ => report
  | fault f => f.message
  | system _ message => message

/-- The failure of a report. -/
def ofReport (r : Report Diagnostic) : Failure :=
  .rejected (r.text Diagnostic.message) (r.errors.map .diagnostic)

/-- The failure of a refused source text. -/
def ofRejection : Rejection → Failure
  | .diagnostic d => .diagnostic d
  | .report r => ofReport r
  | .breakdown b => .system .value b.message

/-- The failure to make room for a stack. -/
def ofShortage : Shortage → Failure
  | .noIndex => .system .overflow "cannot fit 'int' into an index-sized integer"
  | .noMemory => .system .memory ""

/-- The failure of a stopped machine. -/
def ofStop : Stop → Failure
  | .fault f => .fault f
  | .outside => .system .index "list index out of range"

end Failure

/-- The exit codes of the commands. -/
inductive ExitCode where
  | success | buildError | invalidArguments | internalError | runtimeFault
deriving DecidableEq

/-- The number of an exit code. -/
def ExitCode.number : ExitCode → Nat
  | success => 0
  | buildError => 1
  | invalidArguments => 2
  | internalError => 3
  | runtimeFault => 4

namespace Failure

/-- The exit code of a failure. -/
def exitCode : Failure → ExitCode
  | diagnostic ⟨.remark .located _ _, _, _⟩ => .internalError
  | diagnostic _ | rejected _ _ => .buildError
  | fault _ => .runtimeFault
  | system .fileNotFound _ | system .permission _ | system .isDirectory _ | system .argument _ =>
    .invalidArguments
  | system _ _ => .internalError

/-- The text by which a command tells a failure; `activity` names what faulted. -/
def told (activity : Option String) (f : Failure) : String :=
  match f.exitCode with
  | .success | .buildError => f.message
  | .runtimeFault =>
    (match Instruction.present activity with
      | some a => a ++ " fault: "
      | none => "Fault: ") ++ f.message
  | .invalidArguments => "Error: " ++ f.message
  | .internalError => "Internal error: " ++ f.message

end Failure

end StackLang
