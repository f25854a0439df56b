import StackLang.Command.Tool
import StackLang.Tree.Printer

/-!
# The compiler command

Compiles a file and writes the listing, or shows the tokens or the tree.
-/

namespace StackLang.Command

/-- The compiler command. -/
def compiler : Tool :=
  { name := "blc"
    forms :=
      [{ long := "--output", short := some 'o', kind := .outputFile }, { long := "--tokens" },
        { long := "--ast" }, { long := "--no-comments" }] ++ commonForms }

/-- The end of the compiler command at a failure, after what was told before it. -/
def compilerFailure (fs : Files) (err : List Line) (f : Failure) : Outcome :=
  ⟨f.exitCode, [], err ++ [.notice (f.told (some "Compilation"))], fs⟩

/-- The lines that tell more about a compiled program. -/
def compiledLines (c : Compiled) : List Line :=
  let functions := c.program.functions.map (·.1)
  [.notice ("Tokenized: " ++ Text.decimal c.tokenCount ++ " tokens"),
    .notice ("Functions: " ++ if functions.isEmpty then "none" else ", ".intercalate functions),
    .notice ("Globals: " ++ Text.decimal c.program.globals)]

/-- Writes the listing of a compiled program. -/
def writeListing (fs : Files) (verbose : Bool) (err : List Line) (input output : Path)
    (c : Compiled) : Outcome :=
  let err := err ++ c.warnings.map .notice
  match fs.write output.text (c.program.listing ++ "\n").toUTF8.toList with
  | .error e => compilerFailure fs err (e.failure output.text)
  | .ok fs =>
    ⟨.success,
      (if verbose then compiledLines c else []) ++
        [.notice ("Compiled " ++ input.text ++ " -> " ++ output.text ++ " (" ++
          Text.decimal c.program.size ++ " instructions)")],
      err, fs⟩

/-- Carries out the compiler command on a source text. -/
def compileSource (fs : Files) (a : Arguments) (c : Checked) (source : String) : Outcome :=
  let file := c.input.text
  if a.has "--tokens" then
    match Source.tokens file source with
    | .error d => compilerFailure fs [] (.diagnostic d)
    | .ok ts => ⟨.success, ts.map (.notice ·.listed), [], fs⟩
  else if a.has "--ast" then
    match Source.tree file source with
    | .error d => compilerFailure fs [] (.diagnostic d)
    | .ok t => ⟨.success, [.notice t.pretty], [], fs⟩
  else
    let verbose := a.has "--verbose"
    let compilation := Compilation.ofSource { comments := !a.has "--no-comments" } file source
    let err := Display.lines { verbose } compilation.logs
    match compilation.result with
    | .error r => compilerFailure fs err (.ofRejection r)
    | .ok compiled =>
      writeListing fs verbose err c.input (c.output.getD (c.input.withSuffix ".lst")) compiled

/-- The compiler command. -/
def runCompiler (fs : Files) (args : List String) : Option Outcome :=
  compiler.carryOut fs args fun a c =>
    some <|
      match fs.readText c.input.text with
      | .error f => compilerFailure fs [] f
      | .ok source => compileSource fs a c source

end StackLang.Command
