import StackLang.Log
import StackLang.Machine
import StackLang.Text.Numeral

/-!
# Options from the environment

The stack size and the trace may be given by environment variables. A variable that is empty counts
as unset, a size that is not positive is ignored, and one that is no number leaves a warning.
-/

namespace StackLang

/-- The variables of an environment in the order in which they are set; the last one counts. -/
abbrev Environment := List (String × String)

/-- The text of a variable that is set and not empty. -/
def Environment.get? (env : Environment) (name : String) : Option String :=
  (env.reverse.lookup name).filter (!·.isEmpty)

namespace MachineOptions

/-- The variable that gives the stack size. -/
def stackSizeVariable : String := "BYTELANG_STACK_SIZE"

/-- The variable that switches the trace on. -/
def traceVariable : String := "BYTELANG_TRACE"

/-- The words that switch something on, in any case of letters and with blanks around them. -/
def isYes (s : String) : Bool :=
  let word := String.ofList ((Text.trim Text.isBlank s.toList).map Char.toLower)
  ["1", "true", "yes", "on"].contains word

/-- The options that an environment gives, and the records left. -/
def ofEnvironment (env : Environment) : MachineOptions × List Log :=
  let trace := ((env.get? traceVariable).map isYes).getD false
  match env.get? stackSizeVariable with
  | none => ({ trace }, [])
  | some text =>
    match Text.readInteger? text.toList with
    | none =>
      ({ trace }, [⟨.warning, .machine,
        "Ignoring invalid " ++ stackSizeVariable ++ "=" ++ Text.quoted text⟩])
    | some n => if 0 < n then ({ stackSize := n, trace }, []) else ({ trace }, [])

end MachineOptions

end StackLang
