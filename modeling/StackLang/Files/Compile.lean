import StackLang.Failure
import StackLang.Files

/-!
# Compiling files

Source texts in files are UTF-8, and any line end counts as a newline.
-/

namespace StackLang

/-- The failure to open a file. -/
def OpenError.failure (e : OpenError) (path : String) : Failure :=
  .system
    (match e with
      | absent => .fileNotFound
      | notDirectory => .notDirectory
      | isDirectory => .isDirectory
      | nameTooLong => .system)
    (e.message path)

/-- The text of the file that a path leads to. -/
def Files.readText (fs : Files) (path : String) : Except Failure String :=
  match fs.read path with
  | .error e => .error (e.failure path)
  | .ok bytes =>
    match Text.Utf8.decode bytes with
    | .error f => .error (.system .encoding f.message)
    | .ok cs => .ok (String.ofList (Text.unifyNewlines cs))

/-- What compiling a file comes to, and the records left. -/
structure FileCompilation where
  logs : List Log
  result : Except Failure Compiled

/-- Compiles the file that a path leads to; the file is named as it is given. -/
def FileCompilation.ofPath (options : CompileOptions) (fs : Files) (name : String) :
    FileCompilation :=
  let path := (Path.ofText name).text
  match fs.isPresent path with
  | .error e => ⟨[], .error (e.failure path)⟩
  | .ok false => ⟨[], .error (.system .fileNotFound ("Source file not found: " ++ name))⟩
  | .ok true =>
    match fs.readText path with
    | .error f => ⟨[], .error f⟩
    | .ok source =>
      let c := Compilation.ofSource options name source
      ⟨c.logs, c.result.mapError Failure.ofRejection⟩

end StackLang
