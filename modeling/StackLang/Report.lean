import StackLang.Location

/-!
# Reports of many errors

Errors are collected up to a limit and counted beyond it; warnings are all kept. A report lists them
and ends with the counts.
-/

namespace StackLang

/-- Collected errors of the type `ε` and warnings. -/
structure Report (ε : Type) where
  limit : Int := 100
  errors : List ε := []
  warnings : List String := []
  dropped : Nat := 0

namespace Report

variable {ε : Type}

/-- Whether no further error is kept. -/
def isFull (r : Report ε) : Bool := r.limit ≤ r.errors.length

/-- The report with one more error, kept or only counted. -/
def add (r : Report ε) (e : ε) : Report ε :=
  if r.isFull then { r with dropped := r.dropped + 1 } else { r with errors := r.errors ++ [e] }

/-- The report with several more errors. -/
def addAll (r : Report ε) (es : List ε) : Report ε := es.foldl add r

/-- The report with one more warning. -/
def warn (r : Report ε) (message : String) (location : Option Location) : Report ε :=
  let place := match location with
    | some l => l.text ++ ": "
    | none => ""
  { r with warnings := r.warnings ++ [place ++ "warning: " ++ message] }

/-- The empty report with the same limit. -/
def clear (r : Report ε) : Report ε := { limit := r.limit }

/-- Whether an error is kept. -/
def hasErrors (r : Report ε) : Bool := !r.errors.isEmpty

/-- The number of errors, kept or only counted. -/
def errorCount (r : Report ε) : Nat := r.errors.length + r.dropped

/-- A count and a noun that agrees with it. -/
def counted (n : Nat) (noun : String) : String :=
  Text.decimal n ++ " " ++ noun ++ (if n = 1 then "" else "s")

/-- The text of a report whose errors are written by `message`. -/
def text (message : ε → String) (r : Report ε) : String :=
  let dropped :=
    if r.dropped = 0 then [] else ["(" ++ Text.decimal r.dropped ++ " further errors not shown)"]
  let counts := counted r.errorCount "error" ++ ", " ++ counted r.warnings.length "warning"
  let errors := r.errors.flatMap fun e => [message e, ""]
  "\n".intercalate (errors ++ r.warnings ++ dropped ++ ["\n" ++ counts])

theorem errorCount_add (r : Report ε) (e : ε) : (r.add e).errorCount = r.errorCount + 1 := by
  unfold add errorCount
  split
  · simp [Nat.add_assoc]
  · simp only [List.length_append, List.length_singleton]
    omega

end Report

end StackLang
