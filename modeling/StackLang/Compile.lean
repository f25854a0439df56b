import StackLang.Log
import StackLang.Report
import StackLang.Script.Finding
import StackLang.Script.OfTree
import StackLang.Source

/-!
# Compiling

From trees and source texts to programs. `generate` always comes to a program unless it breaks down,
and reports what it finds; `compile` refuses a source text in which something is found.
-/

namespace StackLang

/-- What to do while compiling. -/
structure CompileOptions where
  /-- The number of errors that a report lists. -/
  limit : Int := 100
  /-- Whether instructions get comments. -/
  comments : Bool := true
deriving DecidableEq

namespace Generation

/-- What happens while code is generated, in order. -/
inductive Event where
  | found (f : Finding)
  /-- A function is done: its name, its entry, and the numbers of its parameters and variables. -/
  | finished (name : String) (entry parameters locals : Nat)

/-- The events of functions whose code starts at an address. -/
def eventsFrom (σ : Scope) : Nat → List Fate → List Event
  | _, [] => []
  | address, fate :: fates =>
    (fate.findings σ).map .found ++
      match fate with
      | .defined d =>
        .finished d.name address d.written.parameters.length d.written.locals ::
          eventsFrom σ (address + (d.code σ).length) fates
      | _ => eventsFrom σ address fates

/-- The events of a script. -/
def events (s : Script) : List Event :=
  s.entryFindings.map .found ++ eventsFrom s.functionScope s.entryCode.length s.fates

/-- The breakdown that an event is. -/
def Event.breakdown? : Event → Option Breakdown
  | found (.breakdown b) => some b
  | _ => none

/-- The diagnostic that an event is. -/
def Event.diagnostic? (lines : List String) : Event → Option Diagnostic
  | found (.issue cause location) => some (.ofCause lines cause location)
  | _ => none

/-- The record that an event leaves. -/
def Event.log? (lines : List String) : Event → Option Log
  | found (.issue cause location) =>
    some ⟨.error, .generation, (Diagnostic.ofCause lines cause location).placed ""⟩
  | found (.breakdown _) => none
  | finished name entry parameters locals =>
    some ⟨.debug, .generation, "Function " ++ name ++ ": entry " ++ Text.decimal entry ++ ", " ++
      Text.decimal parameters ++ " params, " ++ Text.decimal locals ++ " locals"⟩

/-- The warning about a script without a first function. -/
def noEntry : String := "no '" ++ entryName ++ "' function; the entry call is left unresolved"

end Generation

/-- What generating code comes to: the records left, and a program with the report or a breakdown.
-/
structure Generation where
  logs : List Log
  result : Except Breakdown (Program × Report Diagnostic)

namespace Generation

/-- The last record of a generation. -/
def summary (p : Program) (report : Report Diagnostic) : Log :=
  ⟨.debug, .generation, "Generated " ++ Text.decimal p.size ++ " instructions, " ++
    Text.decimal p.functions.length ++ " functions, " ++ Text.decimal p.globals ++ " globals, " ++
    Text.decimal report.errorCount ++ " errors"⟩

/-- Generates the code of a script. -/
def ofScript (options : CompileOptions) (lines : List String) (s : Script) : Generation :=
  let events := events s
  let reached := events.takeWhile (·.breakdown?.isNone)
  let logs := reached.filterMap (Event.log? lines)
  match events.findSome? Event.breakdown? with
  | some b => ⟨logs, .error b⟩
  | none =>
    let program := s.program options.comments
    let report :=
      Report.addAll { limit := options.limit } (reached.filterMap (Event.diagnostic? lines))
    if (program.functions.lookup entryName).isSome then
      ⟨logs ++ [summary program report], .ok (program, report)⟩
    else
      let report := report.warn noEntry none
      ⟨logs ++ [⟨.warning, .generation, noEntry⟩, summary program report], .ok (program, report)⟩

/-- Generates the code of a tree. A tree that is no program gets none. -/
def ofTree (options : CompileOptions) (lines : List String) (t : Tree) : Generation :=
  match Script.ofTree? t with
  | some s => ofScript options lines s
  | none =>
    let d := Diagnostic.ofCause lines (.misuse (.notProgram t.kind)) t.location
    ⟨[⟨.error, .generation, d.placed ""⟩],
      .ok ({}, Report.add { limit := options.limit } d)⟩

end Generation

/-- Why a source text is refused. -/
inductive Rejection where
  /-- It leaves the grammar. -/
  | diagnostic (d : Diagnostic)
  /-- It means nothing in some places. -/
  | report (r : Report Diagnostic)
  /-- Compiling it breaks down. -/
  | breakdown (b : Breakdown)

/-- A compiled source text. -/
structure Compiled where
  file : String
  tokenCount : Nat
  program : Program
  warnings : List String

/-- What compiling comes to, and the records left. -/
structure Compilation where
  logs : List Log
  result : Except Rejection Compiled

namespace Compilation

/-- The last record of a compilation that is refused after all code was generated. -/
def refusal (file : String) (r : Report Diagnostic) : Log :=
  ⟨.debug, .compilation, file ++ ": " ++ Text.decimal r.errorCount ++ " errors, not runnable"⟩

/-- The last record of a compilation that succeeds. -/
def success (c : Compiled) : Log :=
  ⟨.debug, .compilation, c.file ++ ": compiled " ++ Text.decimal c.tokenCount ++ " tokens to " ++
    Text.decimal c.program.size ++ " instructions, " ++ Text.decimal c.warnings.length ++
    " warnings"⟩

/-- Compiles a source text. -/
def ofSource (options : CompileOptions) (file source : String) : Compilation :=
  match Source.tokens file source with
  | .error d => ⟨[], .error (.diagnostic d)⟩
  | .ok tokens =>
    match Source.treeOfTokens file (Source.lines source) tokens with
    | .error d => ⟨[], .error (.diagnostic d)⟩
    | .ok tree =>
      let generation := Generation.ofTree options (Source.lines source) tree
      match generation.result with
      | .error b => ⟨generation.logs, .error (.breakdown b)⟩
      | .ok (program, report) =>
        if report.hasErrors then ⟨generation.logs ++ [refusal file report], .error (.report report)⟩
        else
          let compiled : Compiled := ⟨file, tokens.length, program, report.warnings⟩
          ⟨generation.logs ++ [success compiled], .ok compiled⟩

end Compilation

end StackLang
