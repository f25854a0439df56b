import StackLang.Proofs.Causes

/-!
# What a generation reports

The result of a generation without a breakdown: the program of the script, and a report made of
nothing but what is found in the script and whether there is a first function.
-/

namespace StackLang

/-- The diagnostic of what is found, unless it is a breakdown. -/
def Finding.diagnostic? (lines : List String) : Finding → Option Diagnostic
  | .issue cause location => some (.ofCause lines cause location)
  | .breakdown _ => none

namespace Generation

theorem Event.bind_diagnostic? (lines : List String) (e : Event) :
    e.finding?.bind (Finding.diagnostic? lines) = e.diagnostic? lines := by
  rcases e with (_ | _) | _ <;> rfl

theorem filterMap_diagnostic? (lines : List String) (s : Script) :
    (events s).filterMap (Event.diagnostic? lines) =
      s.findings.filterMap (Finding.diagnostic? lines) := by
  rw [← filterMap_events, List.filterMap_filterMap]
  exact List.filterMap_congr fun e _ => (e.bind_diagnostic? lines).symm

/-- The report about these findings in a script with or without a first function. -/
def reportOn (limit : Int) (lines : List String) (findings : List Finding) (hasEntry : Bool) :
    Report Diagnostic :=
  let report := Report.addAll { limit } (findings.filterMap (Finding.diagnostic? lines))
  if hasEntry then report else report.warn noEntry none

theorem result_ofScript {s : Script} (h : s.breakdown? = none) (options : CompileOptions)
    (lines : List String) :
    (ofScript options lines s).result = .ok (s.program options.comments,
      reportOn options.limit lines s.findings (s.entries.lookup entryName).isSome) := by
  have hnone := (findSome?_breakdown? s).trans h
  have hfunctions : (s.program options.comments).functions = s.entries := rfl
  simp only [ofScript, hnone, takeWhile_eq_self_of_findSome? hnone, filterMap_diagnostic?,
    reportOn, hfunctions]
  split <;> rfl

/-- Every error of the report is about something found. -/
theorem exists_finding_of_mem_errors {limit : Int} {lines : List String}
    {findings : List Finding} {hasEntry : Bool} {d : Diagnostic}
    (h : d ∈ (reportOn limit lines findings hasEntry).errors) :
    ∃ cause location, .issue cause location ∈ findings ∧ d = .ofCause lines cause location := by
  have herrors : (reportOn limit lines findings hasEntry).errors =
      (findings.filterMap (Finding.diagnostic? lines)).take limit.toNat := by
    have hkept := Report.errors_addAll { limit } (findings.filterMap (Finding.diagnostic? lines))
    rw [reportOn]
    cases hasEntry <;> simpa [Report.warn] using hkept
  rw [herrors] at h
  obtain ⟨f, hf, hd⟩ := List.mem_filterMap.mp (List.mem_of_mem_take h)
  cases f with
  | issue cause location => exact ⟨cause, location, hf, (Option.some.inj hd).symm⟩
  | breakdown b => cases hd

end Generation

end StackLang
