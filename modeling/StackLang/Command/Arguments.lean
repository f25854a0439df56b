import StackLang.Text.Quoted
import StackLang.Text.Similarity

/-!
# Arguments of a command

Options and other arguments may be mixed. An option has a long name and may have a short one; its
value is the next argument, or stands behind an equals sign or right behind the short name. Two
dashes end the options.
-/

namespace StackLang.Command

/-- What an option takes. -/
inductive OptionKind where
  | flag
  /-- The path of a file to be written. -/
  | outputFile
  /-- An integer that is at least one. -/
  | count
deriving DecidableEq

/-- An option of a command. -/
structure OptionForm where
  long : String
  short : Option Char := none
  kind : OptionKind := .flag
deriving DecidableEq

namespace OptionForm

/-- Whether an option takes a value. -/
def takesValue (form : OptionForm) : Bool := form.kind ≠ .flag

/-- The names of an option as a message shows them. -/
def shown (form : OptionForm) : String :=
  let long := "'" ++ form.long ++ "'"
  match form.short with
  | none => long
  | some c => "'-" ++ String.ofList [c] ++ "' / " ++ long

end OptionForm

/-- An option as it is given. -/
structure Given where
  form : OptionForm
  value : Option String := none
deriving DecidableEq

/-- The arguments of a command, sorted out. -/
structure Arguments where
  given : List Given := []
  others : List String := []
deriving DecidableEq

/-- Why arguments cannot be sorted out or used. -/
inductive UsageError where
  | noSuchOption (name : String) (similar : List String)
  | needsValue (name : String)
  | takesNoValue (name : String)
  | missingArgument (name : String)
  /-- A path with a null character, of which nothing can be asked. -/
  | nullInPath
  | absentFile (parameter path : String)
  | isDirectory (parameter path : String)
  | noInteger (parameter text : String)
  | outOfRange (parameter : String) (n : Int)
  | extra (arguments : List String)
deriving DecidableEq

namespace UsageError

/-- The text that says what is wrong with the value of a parameter. -/
def invalid (parameter reason : String) : String :=
  "Invalid value for " ++ parameter ++ ": " ++ reason

/-- The text of a usage error. -/
def message : UsageError → String
  | noSuchOption name similar =>
    "No such option: " ++ name ++
      match similar with
      | [] => ""
      | [one] => " Did you mean " ++ one ++ "?"
      | many =>
        let sorted := many.mergeSort fun a b => decide (a ≤ b)
        " (Possible options: " ++ ", ".intercalate sorted ++ ")"
  | needsValue name => "Option " ++ Text.quoted name ++ " requires an argument."
  | takesNoValue name => "Option " ++ Text.quoted name ++ " does not take a value."
  | missingArgument name => "Missing argument '" ++ name ++ "'."
  | nullInPath => "embedded null byte"
  | absentFile parameter path =>
    invalid parameter ("File " ++ Text.quoted path ++ " does not exist.")
  | isDirectory parameter path =>
    invalid parameter ("File " ++ Text.quoted path ++ " is a directory.")
  | noInteger parameter text =>
    invalid parameter (Text.quoted text ++ " is not a valid integer range.")
  | outOfRange parameter n => invalid parameter (Text.decimal n ++ " is not in the range x>=1.")
  | extra arguments =>
    "Got unexpected extra argument" ++ (if arguments.length = 1 then "" else "s") ++ " (" ++
      " ".intercalate arguments ++ ")"

/-- Whether a usage error is told; the command ends without a word at a path that is none. -/
def isTold : UsageError → Bool
  | nullInPath => false
  | _ => true

/-- Whether a usage error is told together with the usage of the command. -/
def showsUsage : UsageError → Bool
  | needsValue _ | takesNoValue _ => false
  | _ => true

end UsageError

/-- An option that takes a value, as it was typed, with the value if it stands in the same argument.
-/
structure Valued where
  form : OptionForm
  typed : String
  attached : Option String

/-- The options in one argument: flags, and at the end perhaps an option that takes a value. -/
structure Opened where
  flags : List OptionForm := []
  valued : Option Valued := none

/-- The options in a group of short names. -/
def openShort (forms : List OptionForm) : List Char → Except UsageError Opened
  | [] => .ok {}
  | c :: cs =>
    let typed := String.ofList ['-', c]
    match forms.find? (·.short = some c) with
    | none => .error (.noSuchOption typed [])
    | some form =>
      if form.takesValue then
        .ok { valued := some ⟨form, typed, if cs.isEmpty then none else some (String.ofList cs)⟩ }
      else
        (openShort forms cs).map fun o => { o with flags := form :: o.flags }

/-- An argument split at its first equals sign. -/
def splitValue (arg : String) : String × Option String :=
  let name := arg.toList.takeWhile (· != '=')
  match arg.toList.dropWhile (· != '=') with
  | _ :: value => (String.ofList name, some (String.ofList value))
  | [] => (arg, none)

/-- The options in an argument that starts with a dash. -/
def openOption (forms : List OptionForm) (arg : String) : Except UsageError Opened :=
  let (name, attached) := splitValue arg
  match forms.find? (·.long = name) with
  | some form =>
    if form.takesValue then .ok { valued := some ⟨form, name, attached⟩ }
    else if attached.isSome then .error (.takesNoValue name)
    else .ok { flags := [form] }
  | none =>
    match arg.toList with
    | '-' :: '-' :: _ =>
      .error (.noSuchOption name (Text.Similarity.closest name (forms.map (·.long))))
    | cs => openShort forms cs.tail

/-- Whether an argument is an option: a dash and more. -/
def isOption (arg : String) : Bool :=
  match arg.toList with
  | '-' :: _ :: _ => true
  | _ => false

namespace Arguments

/-- The arguments with flags in front. -/
def withFlags (flags : List OptionForm) (a : Arguments) : Arguments :=
  { a with given := flags.map (⟨·, none⟩) ++ a.given }

/-- The arguments with a valued option in front. -/
def withValue (form : OptionForm) (value : String) (a : Arguments) : Arguments :=
  { a with given := ⟨form, some value⟩ :: a.given }

/-- Sorts out arguments. -/
def sort (forms : List OptionForm) : List String → Except UsageError Arguments
  | [] => .ok {}
  | arg :: rest =>
    if arg = "--" then .ok { others := rest }
    else if isOption arg then
      match openOption forms arg with
      | .error e => .error e
      | .ok opened =>
        match opened.valued, rest with
        | none, rest => (sort forms rest).map (withFlags opened.flags)
        | some ⟨form, _, some value⟩, rest =>
          (sort forms rest).map fun a => (a.withValue form value).withFlags opened.flags
        | some ⟨form, _, none⟩, value :: rest =>
          (sort forms rest).map fun a => (a.withValue form value).withFlags opened.flags
        | some ⟨_, typed, none⟩, [] => .error (.needsValue typed)
    else (sort forms rest).map fun a => { a with others := arg :: a.others }

/-- Whether an option is given. -/
def has (a : Arguments) (long : String) : Bool := a.given.any (·.form.long = long)

/-- The last value given to an option. -/
def value? (a : Arguments) (form : OptionForm) : Option String :=
  (a.given.reverse.find? (·.form = form)).bind (·.value)

/-- The options in the order in which each was first given. -/
def order (a : Arguments) : List OptionForm := (a.given.map (·.form)).eraseDups

end Arguments

end StackLang.Command
