import Mathlib.Data.List.TakeWhile
import StackLang.Compile
import StackLang.Proofs.Functions

/-!
# Accepted source texts

Compiling comes to a program without an error exactly if nothing is found in the script, and the
program is then that of the script. A report that keeps at least one error tells by its kept errors
alone whether something was found.
-/

namespace StackLang

open Grammar (plainNode)
open StackLang.Tree (Parts)

/-! ## Reports -/

namespace Report

variable {ε : Type}

theorem errorCount_addAll (r : Report ε) (es : List ε) :
    (r.addAll es).errorCount = r.errorCount + es.length := by
  induction es generalizing r with
  | nil => rfl
  | cons e es ih =>
    have hcount := ih (r.add e)
    rw [errorCount_add] at hcount
    rw [List.length_cons, addAll, List.foldl_cons]
    exact hcount.trans (by omega)

theorem hasErrors_add {r : Report ε} (h : r.hasErrors = true) (e : ε) :
    (r.add e).hasErrors = true := by
  unfold add
  split
  · exact h
  · simp [hasErrors]

theorem hasErrors_addAll_of_hasErrors {r : Report ε} (h : r.hasErrors = true) (es : List ε) :
    (r.addAll es).hasErrors = true := by
  induction es generalizing r with
  | nil => exact h
  | cons e es ih => exact ih (hasErrors_add h e)

/-- A report that is not full keeps the first error. -/
theorem hasErrors_addAll {r : Report ε} (hlimit : 1 ≤ r.limit) (es : List ε) :
    (r.addAll es).hasErrors = (r.hasErrors || !es.isEmpty) := by
  cases es with
  | nil => simp [addAll]
  | cons e es =>
    have hfirst : (r.add e).hasErrors = true := by
      unfold add
      split
      · rename_i hfull
        have hlength : r.limit ≤ r.errors.length := by simpa [isFull] using hfull
        have hne : r.errors ≠ [] := by
          intro hempty
          rw [hempty, List.length_nil] at hlength
          omega
        simpa [hasErrors] using hne
      · simp [hasErrors]
    have hrest : (r.addAll (e :: es)).hasErrors = true := hasErrors_addAll_of_hasErrors hfirst es
    rw [hrest]
    simp

end Report

/-! ## Events -/

namespace Generation

/-- What is found at an event. -/
def Event.finding? : Event → Option Finding
  | found f => some f
  | finished _ _ _ _ => none

theorem filterMap_found (fs : List Finding) :
    (fs.map Event.found).filterMap Event.finding? = fs := by
  rw [List.filterMap_map]
  exact List.filterMap_some

theorem filterMap_eventsFrom (σ : Scope) (address : Nat) (fates : List Fate) :
    (eventsFrom σ address fates).filterMap Event.finding? = fates.flatMap (Fate.findings σ) := by
  induction fates generalizing address with
  | nil => rfl
  | cons fate fates ih =>
    cases fate with
    | defined d =>
      rw [eventsFrom, List.filterMap_append, filterMap_found, List.flatMap_cons]
      exact congrArg _ (ih _)
    | incomplete location => exact congrArg _ (ih address)
    | repeated name location => exact congrArg _ (ih address)

/-- What is found at the events of a script is what is found in it. -/
theorem filterMap_events (s : Script) : (events s).filterMap Event.finding? = s.findings := by
  rw [events, List.filterMap_append, filterMap_found, filterMap_eventsFrom, Script.findings]

theorem takeWhile_eq_self_of_findSome? {es : List Event}
    (h : es.findSome? Event.breakdown? = none) :
    es.takeWhile (·.breakdown?.isNone) = es := by
  rw [List.findSome?_eq_none_iff] at h
  rw [List.takeWhile_eq_self_iff]
  intro e he
  simp [h e he]

/-- Without a breakdown every finding is a diagnostic. -/
theorem length_diagnostics {es : List Event} (lines : List String)
    (h : es.findSome? Event.breakdown? = none) :
    (es.filterMap (Event.diagnostic? lines)).length = (es.filterMap Event.finding?).length := by
  induction es with
  | nil => rfl
  | cons e es ih =>
    rw [List.findSome?_cons] at h
    cases e with
    | finished name entry parameters locals =>
      rw [List.filterMap_cons_none rfl, List.filterMap_cons_none rfl]
      exact ih h
    | found f =>
      cases f with
      | issue cause location =>
        exact congrArg Nat.succ (ih h)
      | breakdown b => cases h

/-- A generated program is that of the script, and its report counts what was found. -/
theorem ofScript_eq_ok {options : CompileOptions} {lines : List String} {s : Script}
    {program : Program} {report : Report Diagnostic}
    (h : (ofScript options lines s).result = .ok (program, report)) :
    program = s.program options.comments ∧ report.errorCount = s.findings.length ∧
      (1 ≤ options.limit → report.hasErrors = !s.findings.isEmpty) := by
  unfold ofScript at h
  simp only at h
  split at h
  · cases h
  · rename_i hnone
    rw [takeWhile_eq_self_of_findSome? hnone] at h
    have hlength := length_diagnostics lines hnone
    rw [filterMap_events] at hlength
    have hcount := Report.errorCount_addAll { limit := options.limit }
      ((events s).filterMap (Event.diagnostic? lines))
    have hkept (hlimit : 1 ≤ options.limit) :=
      Report.hasErrors_addAll (r := { limit := options.limit }) hlimit
        ((events s).filterMap (Event.diagnostic? lines))
    have hempty :
        ((events s).filterMap (Event.diagnostic? lines)).isEmpty = s.findings.isEmpty := by
      rw [Bool.eq_iff_iff, List.isEmpty_iff_length_eq_zero, List.isEmpty_iff_length_eq_zero,
        hlength]
    rw [hlength] at hcount
    rw [hempty] at hkept
    split at h
    · obtain ⟨rfl, rfl⟩ := Prod.mk.inj (Except.ok.inj h)
      exact ⟨rfl, hcount.trans (Nat.zero_add _), hkept⟩
    · obtain ⟨rfl, rfl⟩ := Prod.mk.inj (Except.ok.inj h)
      exact ⟨rfl, hcount.trans (Nat.zero_add _), hkept⟩

/-- A script in which nothing is found gets its program. -/
theorem exists_ofScript_eq_ok (options : CompileOptions) (lines : List String) {s : Script}
    (h : s.findings = []) :
    ∃ report, (ofScript options lines s).result = .ok (s.program options.comments, report) ∧
      report.hasErrors = false := by
  have hevents := filterMap_events s
  rw [h, List.filterMap_eq_nil_iff] at hevents
  have hbreakdown : (events s).findSome? Event.breakdown? = none := by
    rw [List.findSome?_eq_none_iff]
    intro e he
    cases e with
    | found f => cases hevents _ he
    | finished name entry parameters locals => rfl
  have hdiagnostics : (events s).filterMap (Event.diagnostic? lines) = [] := by
    rw [List.filterMap_eq_nil_iff]
    intro e he
    cases e with
    | found f => cases hevents _ he
    | finished name entry parameters locals => rfl
  unfold ofScript
  simp only [hbreakdown, takeWhile_eq_self_of_findSome? hbreakdown, hdiagnostics]
  split
  · exact ⟨_, rfl, rfl⟩
  · exact ⟨_, rfl, rfl⟩

end Generation

/-! ## Source texts -/

/-- Compiling a source text succeeds and reports no error. -/
structure Accepted (options : CompileOptions) (file source : String) (tree : Tree)
    (compiled : Compiled) : Prop where
  parsed : Source.tree file source = .ok tree
  result : (Compilation.ofSource options file source).result = .ok compiled
  silent : ∃ report, (Generation.ofTree options (Source.lines source) tree).result =
    .ok (compiled.program, report) ∧ report.errorCount = 0

variable {options : CompileOptions} {file source : String} {tree : Tree}

/-- Nothing is found in an accepted source text, and its program is that of its script. -/
theorem Accepted.exists_reading {compiled : Compiled}
    (h : Accepted options file source tree compiled) :
    ∃ statements fs s, Script.Reading tree statements fs s ∧ s.findings = [] ∧
      compiled.program = s.program options.comments := by
  obtain ⟨statements, fs, s, hreading⟩ := Source.exists_reading h.parsed
  obtain ⟨report, hgenerated, hcount⟩ := h.silent
  rw [Generation.ofTree, hreading.script] at hgenerated
  obtain ⟨hprogram, hlength, -⟩ := Generation.ofScript_eq_ok hgenerated
  rw [hcount] at hlength
  exact ⟨statements, fs, s, hreading, List.length_eq_zero_iff.mp hlength.symm, hprogram⟩

/-- A source text that compiles is accepted if the report keeps at least one error. -/
theorem Accepted.exists_of_result {compiled : Compiled} (hlimit : 1 ≤ options.limit)
    (h : (Compilation.ofSource options file source).result = .ok compiled) :
    ∃ tree, Accepted options file source tree compiled := by
  have hresult := h
  unfold Compilation.ofSource at h
  split at h
  · cases h
  · rename_i tokens htokens
    split at h
    · cases h
    · rename_i tree htree
      have hparsed : Source.tree file source = .ok tree := by
        simp only [Source.tree, htokens, bind, Except.bind, htree]
      simp only at h
      split at h
      · cases h
      · rename_i program report hgenerated
        split at h
        · cases h
        · rename_i herrors
          obtain rfl := Except.ok.inj h
          refine ⟨tree, hparsed, hresult, report, hgenerated, ?_⟩
          obtain ⟨statements, fs, s, hreading⟩ := Source.exists_reading hparsed
          rw [Generation.ofTree, hreading.script] at hgenerated
          obtain ⟨-, hlength, hkept⟩ := Generation.ofScript_eq_ok hgenerated
          rw [hkept hlimit] at herrors
          have hempty : s.findings = [] := by simpa using herrors
          rw [hlength, hempty, List.length_nil]

/-- A source text is accepted if nothing is found in its script. -/
theorem Accepted.exists_of_findings (options : CompileOptions)
    (hparsed : Source.tree file source = .ok tree) {s : Script}
    (hscript : Script.ofTree? tree = some s) (h : s.findings = []) :
    ∃ compiled, Accepted options file source tree compiled := by
  obtain ⟨report, hresult, herrors⟩ :=
    Generation.exists_ofScript_eq_ok options (Source.lines source) h
  have hgenerated : (Generation.ofTree options (Source.lines source) tree).result =
      .ok (s.program options.comments, report) := by
    rw [Generation.ofTree, hscript]
    exact hresult
  have hcount : report.errorCount = 0 := by
    rw [(Generation.ofScript_eq_ok hresult).2.1, h, List.length_nil]
  cases htokens : Source.tokens file source with
  | error d => simp [Source.tree, htokens, bind, Except.bind] at hparsed
  | ok tokens =>
    have htree : Source.treeOfTokens file (Source.lines source) tokens = .ok tree := by
      simpa only [Source.tree, htokens, bind, Except.bind] using hparsed
    refine ⟨⟨file, tokens.length, s.program options.comments, report.warnings⟩, hparsed, ?_,
      report, hgenerated, hcount⟩
    simp only [Compilation.ofSource, htokens, htree, hgenerated, herrors, Bool.false_eq_true,
      if_false]

theorem Accepted.exists_of_toBool (options : CompileOptions) (file source : String)
    (hlimit : 1 ≤ options.limit)
    (hresult : (Compilation.ofSource options file source).result.toBool = true) :
    ∃ tree compiled, Accepted options file source tree compiled := by
  cases hcompiled : (Compilation.ofSource options file source).result with
  | error r =>
    rw [hcompiled] at hresult
    cases hresult
  | ok compiled =>
    obtain ⟨tree, haccepted⟩ := Accepted.exists_of_result hlimit hcompiled
    exact ⟨tree, compiled, haccepted⟩

/-- A source text that compiles and whose first function has no parameters. -/
theorem Accepted.exists_main (options : CompileOptions) (file source : String)
    (hlimit : 1 ≤ options.limit)
    (hresult : (Compilation.ofSource options file source).result.toBool = true)
    (hmain : ((Source.tree file source).toOption.bind fun t =>
      (Meaning.functionNamed? t "main").map Meaning.parameterNames) = some []) :
    ∃ tree compiled g, Accepted options file source tree compiled ∧
      Meaning.functionNamed? tree "main" = some g ∧ Meaning.parameterNames g = [] := by
  obtain ⟨tree, compiled, haccepted⟩ := Accepted.exists_of_toBool options file source hlimit hresult
  rw [haccepted.parsed] at hmain
  obtain ⟨g, hg, hparameters⟩ := Option.map_eq_some_iff.mp hmain
  exact ⟨tree, compiled, g, haccepted, hg, hparameters⟩

end StackLang
