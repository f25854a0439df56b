import StackLang.Command.Arguments
import StackLang.Files.Compile
import StackLang.Text.Escape

/-!
# What the commands share

A command takes its arguments and the files, and comes to an exit code, the lines of its two outputs
and the files as they are afterwards. The arguments are checked before anything else: first the
options in the order in which they are given, then the input file, then that nothing is left over.
-/

namespace StackLang.Command

/-- A line of output. -/
inductive Line where
  /-- A record, shown as it is. -/
  | record (text : String)
  /-- What the command itself has to say, shown without escape sequences. -/
  | notice (text : String)
deriving DecidableEq

namespace Line

/-- A line as it is shown. -/
def text : Line → String
  | record text => text
  | notice text => Text.withoutEscapes text

/-- The text of several lines. -/
def textAll (lines : List Line) : String := String.join (lines.map (·.text ++ "\n"))

end Line

/-- What a command comes to. -/
structure Outcome where
  exit : ExitCode
  out : List Line
  err : List Line
  files : Files

/-- Which records a command shows. -/
structure Display where
  verbose : Bool := false
  trace : Bool := false

namespace Display

/-- Whether a record is shown: warnings and errors always, the others if the command is verbose, and
those of the machine also if it traces. -/
def shows (d : Display) (r : Log) : Bool :=
  d.verbose || r.level ≠ .debug || (d.trace && r.origin = .machine)

/-- The lines of the records that are shown; a verbose command names their levels. -/
def lines (d : Display) (logs : List Log) : List Line :=
  (logs.filter d.shows).map fun r =>
    .record ((if d.verbose then r.level.name ++ ": " else "") ++ r.message)

end Display

/-- A command: its name and its options. -/
structure Tool where
  name : String
  forms : List OptionForm

/-- The options that every command has. -/
def commonForms : List OptionForm :=
  [{ long := "--verbose", short := some 'v' }, { long := "--version" }, { long := "--help" }]

/-- The name under which usage shows the input file. -/
def inputName : String := "INPUT_FILE"

namespace Tool

/-- The usage of a command. -/
def usage (t : Tool) : String := "Usage: " ++ t.name ++ " [OPTIONS] " ++ inputName

/-- The lines that tell a usage error. -/
def usageLines (t : Tool) (e : UsageError) : List Line :=
  (if e.showsUsage then
      [.notice t.usage, .notice ("Try '" ++ t.name ++ " --help' for help."), .notice ""]
    else []) ++
    [.notice ("Error: " ++ e.message)]

/-- The line that tells the version. -/
def versionLine (t : Tool) : Line := .notice (t.name ++ ", version 1.0.0")

/-- The end of a command at a usage error. -/
def refuse (t : Tool) (fs : Files) (e : UsageError) : Outcome :=
  if e.isTold then ⟨.invalidArguments, [], t.usageLines e, fs⟩ else ⟨.buildError, [], [], fs⟩

end Tool

/-- The values of the arguments, checked. -/
structure Checked where
  input : Path
  output : Option Path := none
  stackSize : Option Int := none

namespace Checked

/-- Checks the value of an option and adds it to those checked before. -/
def addOption (fs : Files) (a : Arguments) (c : Checked) (form : OptionForm) :
    Except UsageError Checked :=
  match form.kind, a.value? form with
  | .outputFile, some path =>
    if !Files.isPath path then .error .nullInPath
    else if fs.find? path = some .directory then .error (.isDirectory form.shown path)
    else .ok { c with output := some (.ofText path) }
  | .count, some text =>
    match Text.readInteger? text.toList with
    | none => .error (.noInteger form.shown text)
    | some n =>
      if n < 1 then .error (.outOfRange form.shown n) else .ok { c with stackSize := some n }
  | _, _ => .ok c

/-- Checks the arguments that are no options: one file. -/
def addInput (fs : Files) (a : Arguments) (c : Checked) : Except UsageError Checked :=
  match a.others with
  | [] => .error (.missingArgument inputName)
  | path :: extra =>
    if !Files.isPath path then .error .nullInPath
    else
      match fs.find? path with
      | none => .error (.absentFile ("'" ++ inputName ++ "'") path)
      | some .directory => .error (.isDirectory ("'" ++ inputName ++ "'") path)
      | some (.file _) =>
        if extra.isEmpty then .ok { c with input := .ofText path } else .error (.extra extra)

/-- Checks arguments. -/
def ofArguments (fs : Files) (a : Arguments) : Except UsageError Checked := do
  let c ← a.order.foldlM (addOption fs a) { input := .ofText "" }
  c.addInput fs a

end Checked

namespace Tool

/-- Carries out a command if its arguments are right and ask for more than its version or usage. -/
def carryOut (t : Tool) (fs : Files) (args : List String)
    (body : Arguments → Checked → Option Outcome) : Option Outcome :=
  match Arguments.sort t.forms args with
  | .error e => some (t.refuse fs e)
  | .ok a =>
    match (a.order.map (·.long)).find? fun long => long = "--version" || long = "--help" with
    | some "--version" => some ⟨.success, [t.versionLine], [], fs⟩
    | some _ => some ⟨.success, [.notice t.usage], [], fs⟩
    | none =>
      match Checked.ofArguments fs a with
      | .error e => some (t.refuse fs e)
      | .ok c => body a c

/-- The paths that the arguments of a command name, and the path to which it writes if none is
given. -/
def paths (t : Tool) (args : List String) : List String :=
  match Arguments.sort t.forms args with
  | .error _ => []
  | .ok a =>
    a.given.filterMap (·.value) ++ a.others ++
      a.others.map fun path => ((Path.ofText path).withSuffix ".lst").text

end Tool

end StackLang.Command
