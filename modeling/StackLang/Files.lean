import StackLang.Files.Path
import StackLang.Text.Line
import StackLang.Text.Utf8

/-!
# Files

The files and directories below the directory in which a command runs, by their places: the names on
the way from that directory. All else is taken to be absent, the directories above apart.
-/

namespace StackLang

/-- What stands at a place. -/
inductive Entry where
  | file (bytes : List UInt8)
  | directory
deriving DecidableEq

/-- The names on the way from the directory of the command. -/
abbrev FilePlace := List String

/-- The files and directories. -/
structure Files where
  entries : List (FilePlace × Entry) := []
deriving DecidableEq

/-- Why a file cannot be opened. -/
inductive OpenError where
  | absent | notDirectory | isDirectory
  /-- A name or a path has more bytes than any may have. -/
  | nameTooLong
deriving DecidableEq

/-- The text of an error that concerns a path. -/
def OpenError.message (e : OpenError) (path : String) : String :=
  (match e with
    | absent => "[Errno 2] No such file or directory: "
    | notDirectory => "[Errno 20] Not a directory: "
    | isDirectory => "[Errno 21] Is a directory: "
    | nameTooLong => "[Errno 36] File name too long: ") ++ Text.quoted path

namespace Files

/-- What stands at a place. Whatever holds something is a directory, and so are the directories
above. -/
def entry? (fs : Files) (place : FilePlace) : Option Entry :=
  match fs.entries.lookup place with
  | some e => some e
  | none =>
    if place.all (· = "..") || place = ["/"] || fs.entries.any (fun e => place.isPrefixOf e.1) then
      some .directory
    else none

/-- The bytes of the file at a place. -/
def file? (fs : Files) (place : FilePlace) : Option (List UInt8) :=
  match fs.entry? place with
  | some (.file bytes) => some bytes
  | _ => none

/-- The place of the directory around a place. -/
def parent (place : FilePlace) : FilePlace :=
  if place = ["/"] then place
  else if place.all (· = "..") then place ++ [".."]
  else place.dropLast

/-- Where a name leads from a directory. -/
def enter (place : FilePlace) (name : String) : FilePlace :=
  if name.isEmpty || name = "." then place
  else if name = ".." then parent place
  else place ++ [name]

/-- The bytes that a name may have. -/
def nameLimit : Nat := 255

/-- The bytes that a path may have. -/
def pathLimit : Nat := 4095

/-- Follows names from a place on. Each name has to be looked up in a directory. -/
def follow (fs : Files) : FilePlace → List String → Except OpenError FilePlace
  | place, [] => .ok place
  | place, name :: names =>
    match fs.entry? place with
    | none => .error .absent
    | some (.file _) => .error .notDirectory
    | some .directory =>
      if nameLimit < name.utf8ByteSize then .error .nameTooLong
      else fs.follow (enter place name) names

/-- The place from which a typed path starts. -/
def start (path : String) : FilePlace := if path.toList.head? = some '/' then ["/"] else []

/-- Whether a text can be the path of something: the system takes no null character in a path. -/
def isPath (path : String) : Bool := !path.toList.contains '\x00'

/-- The place that a typed path leads to. -/
def place (fs : Files) (path : String) : Except OpenError FilePlace :=
  if path.isEmpty || !isPath path then .error .absent
  else if pathLimit < path.utf8ByteSize then .error .nameTooLong
  else fs.follow (start path) (rawParts path)

/-- The places on the way of names from a place on. -/
def placesFrom : FilePlace → List String → List FilePlace
  | place, [] => [place]
  | place, name :: names => place :: placesFrom (enter place name) names

/-- The places on the way of a typed path. -/
def placesOn (path : String) : List FilePlace := placesFrom (start path) (rawParts path)

/-- What a typed path leads to. -/
def find? (fs : Files) (path : String) : Option Entry :=
  match fs.place path with
  | .ok place => fs.entry? place
  | .error _ => none

/-- Whether a path leads to something. This cannot be told of a path that is too long. -/
def isPresent (fs : Files) (path : String) : Except OpenError Bool :=
  match fs.place path with
  | .ok place => .ok (fs.entry? place).isSome
  | .error .nameTooLong => .error .nameTooLong
  | .error _ => .ok false

/-- The bytes of the file that a path leads to. -/
def read (fs : Files) (path : String) : Except OpenError (List UInt8) := do
  match fs.entry? (← fs.place path) with
  | none => .error .absent
  | some .directory => .error .isDirectory
  | some (.file bytes) => .ok bytes

/-- The files with one of them set. -/
def set (fs : Files) (place : FilePlace) (bytes : List UInt8) : Files :=
  ⟨fs.entries.filter (·.1 ≠ place) ++ [(place, .file bytes)]⟩

theorem file?_eq_lookup (fs : Files) (place : FilePlace) :
    fs.file? place =
      match fs.entries.lookup place with
      | some (.file bytes) => some bytes
      | _ => none := by
  unfold file? entry?
  cases fs.entries.lookup place with
  | some e => rfl
  | none =>
    dsimp only
    generalize (_ || _ : Bool) = implied
    cases implied <;> rfl

theorem lookup_filter_self (entries : List (FilePlace × Entry)) (place : FilePlace) :
    (entries.filter (·.1 ≠ place)).lookup place = none := by
  induction entries with
  | nil => rfl
  | cons e es ih =>
    by_cases h : e.1 = place
    · rw [List.filter_cons_of_neg (by simp [h]), ih]
    · rw [List.filter_cons_of_pos (by simp [h]), List.lookup_cons, beq_false_of_ne (Ne.symm h), ih]

theorem lookup_filter_of_ne (entries : List (FilePlace × Entry)) {place other : FilePlace}
    (h : other ≠ place) : (entries.filter (·.1 ≠ place)).lookup other = entries.lookup other := by
  induction entries with
  | nil => rfl
  | cons e es ih =>
    by_cases he : e.1 = place
    · rw [List.filter_cons_of_neg (by simp [he]), ih, List.lookup_cons, he, beq_false_of_ne h]
    · rw [List.filter_cons_of_pos (by simp [he]), List.lookup_cons, List.lookup_cons, ih]

/-- A file that is set holds its bytes. -/
@[simp] theorem file?_set_self (fs : Files) (place : FilePlace) (bytes : List UInt8) :
    (fs.set place bytes).file? place = some bytes := by
  rw [file?_eq_lookup, set, List.lookup_append, lookup_filter_self, List.lookup_cons_self]
  rfl

/-- Setting a file leaves every other file as it is. -/
theorem file?_set_of_ne (fs : Files) {place other : FilePlace} (bytes : List UInt8)
    (h : other ≠ place) : (fs.set place bytes).file? other = fs.file? other := by
  rw [file?_eq_lookup, file?_eq_lookup, set, List.lookup_append, lookup_filter_of_ne _ h,
    List.lookup_cons, beq_false_of_ne h]
  simp

/-- Writes the file that a path leads to. -/
def write (fs : Files) (path : String) (bytes : List UInt8) : Except OpenError Files := do
  let place ← fs.place path
  match fs.entry? place with
  | some .directory => .error .isDirectory
  | _ => .ok (fs.set place bytes)

/-- Whether a place is below the directory of the command. -/
def isBelow (place : FilePlace) : Bool := place.head? ≠ some ".." && place.head? ≠ some "/"

/-- The files that are new or different from what they were. -/
def changed (before after : Files) : List (FilePlace × List UInt8) :=
  after.entries.filterMap fun
    | (place, .file bytes) => if before.file? place = some bytes then none else some (place, bytes)
    | _ => none

/-- The paths and bytes of the changed files below the directory of the command, ordered by their
paths. -/
def changedBelow (before after : Files) : List (String × List UInt8) :=
  let below := (before.changed after).filter (isBelow ·.1)
  let changed := below.map fun f => ("/".intercalate f.1, f.2)
  changed.mergeSort fun a b => decide (a.1 ≤ b.1)

end Files

end StackLang
