import StackLang.Command.Compiler
import StackLang.Command.Runner

/-!
# The command line

The first argument chooses the command. The files on the ways of the named paths are read, the
command is carried out on them, and the files that it changed are written.
-/

namespace StackLang

/-- What stands at a place of the system. A directory is found by the error of reading it. -/
def readEntry (place : FilePlace) : IO (Option (FilePlace × Entry)) := do
  match ← (IO.FS.readBinFile (if place.isEmpty then "." else "/".intercalate place)).toBaseIO with
  | .ok bytes => return some (place, .file bytes.toList)
  | .error (.inappropriateType ..) => return some (place, .directory)
  | .error _ => return none

/-- The files on the ways of paths. -/
def readFiles (paths : List String) : IO Files := do
  let places := (paths.flatMap Files.placesOn).eraseDups
  return ⟨← places.filterMapM readEntry⟩

/-- The variables that the commands look at. -/
def readEnvironment : IO Environment :=
  [MachineOptions.stackSizeVariable, MachineOptions.traceVariable].filterMapM fun name => do
    return (← IO.getEnv name).map (name, ·)

/-- More steps than any run takes. -/
def stepLimit : Nat := 4000000000000000000

/-- Carries out what a command came to. -/
def perform (before : Files) (o : Command.Outcome) : IO UInt32 := do
  for (place, bytes) in before.changed o.files do
    IO.FS.writeBinFile ("/".intercalate place) ⟨bytes.toArray⟩
  (← IO.getStdout).putStr (Command.Line.textAll o.out)
  (← IO.getStderr).putStr (Command.Line.textAll o.err)
  return UInt32.ofNat o.exit.number

end StackLang

open StackLang in
/-- Carries out the command that the first argument names. -/
def main (args : List String) : IO UInt32 := do
  match args with
  | "blc" :: args =>
    let fs ← readFiles (Command.compiler.paths args)
    let some o := Command.runCompiler fs args | return 1
    perform fs o
  | "blvm" :: args =>
    let fs ← readFiles (Command.runner.paths args)
    let some o := Command.runRunner stepLimit (← readEnvironment) fs args | return 1
    perform fs o
  | _ =>
    IO.eprintln "The first argument has to be blc or blvm."
    return 2
