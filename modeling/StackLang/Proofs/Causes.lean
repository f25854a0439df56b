import StackLang.Proofs.Places

/-!
# Causes of errors

What a generated program and its report owe to the script alone. The script fixes the breakdown, if
there is one, and the causes of all errors in their order; a report keeps as many of them from the
front as its limit allows and counts the rest. The classes in which errors are reported are coarser
than their causes.
-/

namespace StackLang

/-! ## What a report keeps -/

namespace Report

variable {ε : Type}

theorem isFull_iff (r : Report ε) : r.isFull = true ↔ r.limit ≤ r.errors.length :=
  decide_eq_true_iff

/-- A report keeps the first errors, as many as there is still room for. -/
theorem errors_addAll (r : Report ε) (es : List ε) :
    (r.addAll es).errors = r.errors ++ es.take (r.limit - r.errors.length).toNat := by
  induction es generalizing r with
  | nil => simp [addAll]
  | cons e es ih =>
    rw [addAll, List.foldl_cons, ← addAll, ih]
    by_cases hfull : r.isFull = true
    · have hroom : (r.limit - r.errors.length).toNat = 0 := by
        rw [isFull_iff] at hfull
        omega
      simp only [add, if_pos hfull, hroom, List.take_zero]
    · have hroom : (r.limit - r.errors.length).toNat =
          (r.limit - (r.errors ++ [e]).length).toNat + 1 := by
        rw [isFull_iff] at hfull
        rw [List.length_append, List.length_singleton]
        omega
      simp only [add, if_neg hfull]
      rw [hroom, List.take_succ_cons, List.append_assoc, List.singleton_append]

theorem hasErrors_iff (r : Report ε) : r.hasErrors = true ↔ r.errors ≠ [] := by
  simp [hasErrors]

end Report

/-! ## Classes of errors -/

namespace Cause

/-- The classes in which errors are reported. -/
inductive Category where
  | invalidCharacter | unexpectedToken | missingToken | undeclaredIdentifier | undefinedFunction
  | duplicateDeclaration | argumentCount
  | family (f : Family)
deriving DecidableEq

/-- The class of a cause; every misuse is an invalid statement. -/
def category : Cause → Category
  | invalidCharacter _ _ => .invalidCharacter
  | unexpectedToken _ _ => .unexpectedToken
  | missingToken _ _ => .missingToken
  | undeclaredIdentifier _ _ => .undeclaredIdentifier
  | undefinedFunction _ _ => .undefinedFunction
  | duplicateDeclaration _ _ => .duplicateDeclaration
  | argumentCount _ _ _ => .argumentCount
  | misuse _ => .family .statement
  | remark family _ _ => .family family

end Cause

/-! ## Causes and breakdowns -/

/-- The cause of an error that is found. -/
def Finding.cause? : Finding → Option Cause
  | .issue cause _ => some cause
  | .breakdown _ => none

/-- The breakdown that is found. -/
def Finding.breakdown? : Finding → Option Breakdown
  | .issue _ _ => none
  | .breakdown b => some b

namespace Script

/-- The causes of all errors in a script, in the order in which they are found. -/
def causes (s : Script) : List Cause := s.findings.filterMap Finding.cause?

/-- The breakdown of a script, if it has one. -/
def breakdown? (s : Script) : Option Breakdown := s.findings.findSome? Finding.breakdown?

theorem findings_unplaced (s : Script) : s.unplaced.findings = s.findings.map Finding.unplaced := by
  rw [findings, findings, entryFindings_unplaced, functionScope_unplaced, fates_unplaced,
    List.map_append, List.flatMap_map, List.map_flatMap]
  simp only [Fate.findings_unplaced]

theorem causes_unplaced (s : Script) : s.unplaced.causes = s.causes := by
  rw [causes, causes, findings_unplaced, List.filterMap_map]
  refine List.filterMap_congr fun f _ => ?_
  cases f <;> rfl

theorem breakdown?_unplaced (s : Script) : s.unplaced.breakdown? = s.breakdown? := by
  rw [breakdown?, breakdown?, findings_unplaced, List.findSome?_map]
  congr 1
  funext f
  cases f <;> rfl

end Script

namespace Generation

theorem Event.bind_cause? (e : Event) : e.finding?.bind Finding.cause? = e.cause? := by
  rcases e with (_ | _) | _ <;> rfl

theorem Event.bind_breakdown? (e : Event) :
    e.finding?.bind Finding.breakdown? = e.breakdown? := by
  rcases e with (_ | _) | _ <;> rfl

theorem filterMap_cause? (s : Script) : (events s).filterMap Event.cause? = s.causes := by
  rw [Script.causes, ← filterMap_events, List.filterMap_filterMap]
  exact List.filterMap_congr fun e _ => e.bind_cause?.symm

theorem findSome?_breakdown? (s : Script) :
    (events s).findSome? Event.breakdown? = s.breakdown? := by
  rw [Script.breakdown?, ← filterMap_events, ← List.head?_filterMap, ← List.head?_filterMap,
    List.filterMap_filterMap]
  congr 2
  funext e
  exact e.bind_breakdown?.symm

theorem result_ofScript_of_breakdown? {s : Script} {b : Breakdown} (h : s.breakdown? = some b)
    (options : CompileOptions) (lines : List String) :
    (ofScript options lines s).result = .error b := by
  rw [← findSome?_breakdown?] at h
  simp only [ofScript, h]

/-- The report keeps the first of these causes, counts all of them, and has errors exactly if it
keeps one. -/
structure Reports (limit : Int) (causes : List Cause) (report : Report Diagnostic) : Prop where
  kept : report.errors.map Diagnostic.cause = causes.take limit.toNat
  counted : report.errorCount = causes.length
  hasErrors : report.hasErrors = true ↔ causes.take limit.toNat ≠ []

theorem Reports.warn {limit : Int} {causes : List Cause} {report : Report Diagnostic}
    (h : Reports limit causes report) (message : String) (location : Option Location) :
    Reports limit causes (report.warn message location) :=
  ⟨h.kept, h.counted, h.hasErrors⟩

theorem reports_addAll (limit : Int) (ds : List Diagnostic) :
    Reports limit (ds.map Diagnostic.cause) (Report.addAll { limit } ds) := by
  have hkept : (Report.addAll { limit } ds).errors.map Diagnostic.cause =
      (ds.map Diagnostic.cause).take limit.toNat := by
    rw [Report.errors_addAll, List.map_append, List.map_take]
    simp
  refine ⟨hkept, ?_, ?_⟩
  · rw [Report.errorCount_addAll, List.length_map]
    exact Nat.zero_add _
  · rw [Report.hasErrors_iff, ← hkept, ne_eq, ne_eq, List.map_eq_nil_iff]

/-- Without a breakdown the program is that of the script, and the report tells its causes. -/
theorem exists_result_ofScript {s : Script} (h : s.breakdown? = none) (options : CompileOptions)
    (lines : List String) :
    ∃ report, (ofScript options lines s).result = .ok (s.program options.comments, report) ∧
      Reports options.limit s.causes report := by
  have hnone := (findSome?_breakdown? s).trans h
  have hcauses : ((events s).filterMap (Event.diagnostic? lines)).map Diagnostic.cause =
      s.causes := by
    rw [← filterMap_cause?, List.map_filterMap]
    exact List.filterMap_congr fun e _ => e.cause_diagnostic? lines
  have hreports := reports_addAll options.limit ((events s).filterMap (Event.diagnostic? lines))
  rw [hcauses] at hreports
  simp only [ofScript, hnone, takeWhile_eq_self_of_findSome? hnone]
  split
  · exact ⟨_, rfl, hreports⟩
  · exact ⟨_, rfl, hreports.warn _ _⟩

/-- A tree that is no program is reported as such. -/
theorem exists_result_ofTree {t : Tree} (h : Script.ofTree? t = none) (options : CompileOptions)
    (lines : List String) :
    ∃ report, (ofTree options lines t).result = .ok ({}, report) ∧
      Reports options.limit [.misuse (.notProgram t.kind)] report := by
  simp only [ofTree, h]
  exact ⟨_, rfl, reports_addAll options.limit
    [Diagnostic.ofCause lines (.misuse (.notProgram t.kind)) t.location]⟩

end Generation

end StackLang
