import StackLang.Proofs.Renaming.Scripts

/-!
# The code of renamed statements

A renamed scope knows the renamed names, at the same places. So the code of a renamed statement is
that of the statement with its functions renamed, and the same kinds of things are found in it.
-/

namespace StackLang

variable (ρ : Renaming)

/-! ## Scopes -/

/-- A signature with its function renamed. -/
def Signature.renamed (f : Signature) : Signature := { f with name := ρ.ofFunction f.name }

/-- A scope with its variables and functions renamed. -/
def Scope.renamed (σ : Scope) : Scope :=
  { signatures := σ.signatures.map (Signature.renamed ρ)
    globals := σ.globals.map ρ.ofVariable
    locals := σ.locals.map fun l => (l.1.map ρ.ofVariable, l.2)
    frameSize := σ.frameSize
    inside := σ.inside.map (Signature.renamed ρ) }

namespace Scope

variable (σ : Scope)

theorem signature?_renamed (name : Option String) :
    (σ.renamed ρ).signature? (name.map ρ.ofFunction) =
      (σ.signature? name).map (Signature.renamed ρ) := by
  rw [signature?, signature?, renamed, List.find?_map]
  congr 2
  funext f
  have hname : some (ρ.ofFunction f.name) = name.map ρ.ofFunction ↔ some f.name = name :=
    ρ.map_ofFunction_injective.eq_iff (a := some f.name)
  simp only [Function.comp_apply, Signature.renamed, hname]

theorem resolve?_renamed (name : Option String) :
    (σ.renamed ρ).resolve? (name.map ρ.ofVariable) = σ.resolve? name := by
  rw [resolve?, resolve?, renamed, lookup_map_of_injective ρ.map_ofVariable_injective]
  cases σ.locals.lookup name with
  | some offset => rfl
  | none =>
    cases name with
    | none => rfl
    | some n =>
      simp only [Option.map_some, Option.bind_some,
        idxOf?_map_of_injective ρ.ofVariable_injective]

theorem prints_renamed (callee : Option String) :
    (σ.renamed ρ).prints (callee.map ρ.ofFunction) = σ.prints callee := by
  have hprint : callee.map ρ.ofFunction = some printName ↔ callee = some printName := by
    have hfixed : (some printName).map ρ.ofFunction = some printName := congrArg some ρ.print_fixed
    rw [← ρ.map_ofFunction_injective.eq_iff (a := callee), hfixed]
  rw [prints, prints, signature?_renamed, Option.isNone_map]
  simp only [hprint]

theorem placeOf_renamed (name : String) :
    (σ.renamed ρ).placeOf (ρ.ofVariable name) = σ.placeOf name := by
  rw [placeOf, placeOf]
  cases hinside : σ.inside with
  | none =>
    simp [renamed, hinside, idxOf?_map_of_injective ρ.ofVariable_injective]
  | some f => simp [renamed, hinside]

theorem declare_renamed (name : String) :
    (σ.renamed ρ).declare (ρ.ofVariable name) = (σ.declare name).renamed ρ := by
  rw [declare, declare]
  cases hinside : σ.inside with
  | none =>
    simp only [renamed, hinside, Option.map_none,
      contains_map_of_injective ρ.ofVariable_injective]
    split <;> simp [hinside]
  | some f => simp [renamed, hinside]

theorem enter_renamed (f : Signature) (ps : List Parameter) :
    (σ.renamed ρ).enter (f.renamed ρ) (ps.map (Parameter.renamed ρ)) =
      (σ.enter f ps).renamed ρ := by
  simp only [enter, renamed, List.zipIdx_map, List.foldl_map, List.length_map, Prod.map, id,
    Scope.mk.injEq, Option.map_some, true_and, and_true]
  -- Each step binds the renamed name exactly if the name itself is not bound yet.
  change List.foldl _ (List.map (fun l : Option String × Int => (l.1.map ρ.ofVariable, l.2)) []) _ =
    _
  refine List.foldl_hom _ fun locals p => ?_
  rw [Parameter.renamed, lookup_map_of_injective ρ.map_ofVariable_injective]
  split <;> rfl

theorem known_renamed : (σ.renamed ρ).known = σ.known.map (Option.map ρ.ofVariable) := by
  rw [known, known, renamed, List.map_append, List.map_map, List.map_map,
    ← eraseDups_map_of_injective ρ.map_ofVariable_injective, List.map_map, List.map_map]
  rfl

end Scope

theorem Stmt.scopeAfter_renamed (σ : Scope) (s : Stmt) :
    (s.renamed ρ).scopeAfter (σ.renamed ρ) = (s.scopeAfter σ).renamed ρ := by
  induction s generalizing σ with
  | seq first second ih₁ ih₂ =>
    rw [Stmt.renamed, Stmt.scopeAfter, Stmt.scopeAfter, ih₁, ih₂]
  | declare name value => exact σ.declare_renamed ρ name
  | branch chained condition yes no ih₁ ih₂ =>
    rw [Stmt.renamed, Stmt.scopeAfter, Stmt.scopeAfter, ih₁, ih₂]
  | loop condition body ih => exact ih σ
  | _ => rfl

/-! ## Code -/

namespace Draft

/-- An action with its function renamed. -/
def Action.renamed : Action → Action
  | .call callee missing => .call (ρ.ofFunction callee) missing
  | action => action

/-- A draft with its functions renamed and without its comment. -/
def renamed (d : Draft) : Draft :=
  { action := d.action.renamed ρ, label := d.label.map ρ.ofFunction }

/-- The second code is the first one with its functions renamed, comments apart. -/
def Renames (ds es : List Draft) : Prop := es.map Draft.uncommented = ds.map (Draft.renamed ρ)

namespace Renames

variable {ρ} {ds es ds' es' : List Draft}

theorem length_eq (h : Renames ρ ds es) : es.length = ds.length := by
  simpa using congrArg List.length h

theorem append (h : Renames ρ ds es) (h' : Renames ρ ds' es') :
    Renames ρ (ds ++ ds') (es ++ es') := by
  rw [Renames, List.map_append, List.map_append, h, h']

end Renames

theorem renames_load (place : Place) (comment comment' : String) :
    Renames ρ [load place comment] [load place comment'] := by
  cases place <;> rfl

theorem renames_store (place : Place) (comment comment' : String) :
    Renames ρ [store place comment] [store place comment'] := by
  cases place <;> rfl

end Draft

open Draft (Renames)

theorem Scope.renames_callDraft (σ : Scope) (callee : Option String) :
    Renames ρ [σ.callDraft callee] [(σ.renamed ρ).callDraft (callee.map ρ.ofFunction)] := by
  cases callee with
  | none => rfl
  | some name =>
    have hsignature := σ.signature?_renamed ρ (some name)
    rw [Option.map_some] at hsignature
    simp only [Scope.callDraft, Option.map_some, hsignature]
    cases σ.signature? (some name) <;> rfl

mutual

theorem Expr.renames_code (σ : Scope) (e : Expr) :
    Renames ρ (e.code σ) ((e.renamed ρ).code (σ.renamed ρ)) := by
  cases e with
  | number digits => rfl
  | «variable» name location =>
    rw [Expr.renamed, Expr.code, Expr.code, σ.resolve?_renamed ρ]
    cases σ.resolve? name with
    | none => rfl
    | some place => exact Draft.renames_load ρ place _ _
  | binary op left right =>
    rw [Expr.renamed, Expr.code, Expr.code]
    exact ((Expr.renames_code σ left).append (Expr.renames_code σ right)).append rfl
  | unknown operator left right location =>
    rw [Expr.renamed, Expr.code, Expr.code]
    exact ((Expr.renames_code σ left).append (Expr.renames_code σ right)).append rfl
  | negate operand =>
    rw [Expr.renamed, Expr.code, Expr.code]
    exact (Expr.renames_code σ operand).append rfl
  | call callee arguments location =>
    have hlength : (Expr.renamedAll ρ arguments).length = arguments.length := by
      rw [Expr.renamedAll_eq_map, List.length_map]
    rw [Expr.renamed, Expr.code, Expr.code, σ.prints_renamed ρ, hlength]
    split
    · split
      · exact (Expr.renames_codeAll σ arguments).append rfl
      · exact (Expr.renames_codeDiscarded σ arguments).append rfl
    · exact (Expr.renames_codeAll σ arguments).append (σ.renames_callDraft ρ callee)
  | hole m location => rfl

theorem Expr.renames_codeAll (σ : Scope) (es : List Expr) :
    Renames ρ (Expr.codeAll σ es) (Expr.codeAll (σ.renamed ρ) (Expr.renamedAll ρ es)) := by
  cases es with
  | nil => rfl
  | cons e es =>
    rw [Expr.renamedAll, Expr.codeAll, Expr.codeAll]
    exact (Expr.renames_code σ e).append (Expr.renames_codeAll σ es)

theorem Expr.renames_codeDiscarded (σ : Scope) (es : List Expr) :
    Renames ρ (Expr.codeDiscarded σ es)
      (Expr.codeDiscarded (σ.renamed ρ) (Expr.renamedAll ρ es)) := by
  cases es with
  | nil => rfl
  | cons e es =>
    rw [Expr.renamedAll, Expr.codeDiscarded, Expr.codeDiscarded]
    exact .append (.append (Expr.renames_code σ e) rfl) (Expr.renames_codeDiscarded σ es)

end

variable {ρ} in
theorem Draft.Renames.branchCode {condition condition' yes yes' no no' : List Draft}
    (chained : Bool) (hcondition : Renames ρ condition condition') (hyes : Renames ρ yes yes')
    (hno : Renames ρ no no') :
    Renames ρ (branchCode chained condition yes no) (branchCode chained condition' yes' no') := by
  rw [StackLang.branchCode, StackLang.branchCode, hyes.length_eq, hno.length_eq]
  exact .append (.append (.append (.append hcondition rfl) hyes) rfl) hno

variable {ρ} in
theorem Draft.Renames.loopCode {condition condition' body body' : List Draft}
    (hcondition : Renames ρ condition condition') (hbody : Renames ρ body body') :
    Renames ρ (loopCode condition body) (loopCode condition' body') := by
  rw [StackLang.loopCode, StackLang.loopCode, hbody.length_eq, hcondition.length_eq]
  exact .append (.append (.append hcondition rfl) hbody) rfl

theorem Stmt.renames_code (σ : Scope) (s : Stmt) :
    Renames ρ (s.code σ) ((s.renamed ρ).code (σ.renamed ρ)) := by
  induction s generalizing σ with
  | skip => rfl
  | seq first second ih₁ ih₂ =>
    rw [Stmt.renamed, Stmt.code, Stmt.code, Stmt.scopeAfter_renamed]
    exact (ih₁ σ).append (ih₂ _)
  | declare name value =>
    simp only [Stmt.renamed, Stmt.code, σ.declare_renamed ρ, σ.placeOf_renamed ρ]
    refine Renames.append ?_ (Draft.renames_store ρ _ _ _)
    cases value with
    | none => rfl
    | some e => exact e.renames_code ρ _
  | assign name value location =>
    rw [Stmt.renamed, Stmt.code, Stmt.code, σ.resolve?_renamed ρ]
    refine (value.renames_code ρ σ).append ?_
    cases σ.resolve? name with
    | none => rfl
    | some place => exact Draft.renames_store ρ place _ _
  | discard value =>
    rw [Stmt.renamed, Stmt.code, Stmt.code]
    exact (value.renames_code ρ σ).append rfl
  | branch chained condition yes no ih₁ ih₂ =>
    rw [Stmt.renamed, Stmt.code, Stmt.code, Stmt.scopeAfter_renamed]
    exact (condition.renames_code ρ σ).branchCode chained (ih₁ σ) (ih₂ _)
  | loop condition body ih =>
    rw [Stmt.renamed, Stmt.code, Stmt.code]
    exact (condition.renames_code ρ σ).loopCode (ih σ)
  | giveBack value location =>
    cases hinside : σ.inside with
    | none => simp [Stmt.renamed, Stmt.code, Scope.renamed, hinside, Renames]
    | some f =>
      have hrenamed : (σ.renamed ρ).inside = some (f.renamed ρ) := by
        rw [Scope.renamed, hinside]
        rfl
      simp only [Stmt.renamed, Stmt.code, hinside, hrenamed]
      refine Renames.append ?_ rfl
      cases value with
      | none => rfl
      | some e => exact e.renames_code ρ σ
  | misuse m location => rfl

/-! ## Findings -/

/-- The class of what is found. -/
def Finding.category : Finding → Breakdown ⊕ Cause.Category
  | .issue cause _ => .inr cause.category
  | .breakdown b => .inl b

theorem Finding.category_unknownName {cause : String → List String → Cause} {f : String → String}
    (hcause : ∀ n n' similar similar',
      (cause n similar).category = (cause n' similar').category)
    (name : Option String) (candidates : List (Option String)) (location : Option Location) :
    (Finding.unknownName cause (name.map f) (candidates.map (Option.map f)) location).category =
      (Finding.unknownName cause name candidates location).category := by
  have hnone : (candidates.map (Option.map f)).contains none = candidates.contains none := by
    rw [Bool.eq_iff_iff, List.contains_iff_mem, List.contains_iff_mem, List.mem_map]
    constructor
    · rintro ⟨name, hmem, hname⟩
      rwa [Option.map_eq_none_iff.mp hname] at hmem
    · exact fun hmem => ⟨none, hmem, rfl⟩
  cases name with
  | none => rfl
  | some n =>
    simp only [Finding.unknownName, Option.map_some, hnone]
    split
    · rfl
    · exact congrArg Sum.inr (hcause _ _ _ _)

/-- The same classes of findings in the same order. -/
def Finding.Alike (fs gs : List Finding) : Prop :=
  gs.map Finding.category = fs.map Finding.category

theorem Finding.Alike.append {fs gs fs' gs' : List Finding} (h : Finding.Alike fs gs)
    (h' : Finding.Alike fs' gs') : Finding.Alike (fs ++ fs') (gs ++ gs') := by
  rw [Finding.Alike, List.map_append, List.map_append, h, h']

namespace Scope

theorem alike_variableFindings (σ : Scope) (name : Option String) (location : Option Location) :
    Finding.Alike (σ.variableFindings name location)
      ((σ.renamed ρ).variableFindings (name.map ρ.ofVariable) location) := by
  rw [variableFindings, variableFindings, resolve?_renamed, known_renamed]
  cases σ.resolve? name with
  | some place => rfl
  | none =>
    exact congrArg ([·]) (Finding.category_unknownName (fun _ _ _ _ => rfl) name σ.known location)

theorem alike_callFindings (σ : Scope) (callee : Option String) (count : Nat)
    (location : Option Location) :
    Finding.Alike (σ.callFindings callee count location)
      ((σ.renamed ρ).callFindings (callee.map ρ.ofFunction) count location) := by
  have hnames : (σ.renamed ρ).signatures.map (some ·.name) =
      (σ.signatures.map (some ·.name)).map (Option.map ρ.ofFunction) := by
    rw [renamed, List.map_map, List.map_map]
    rfl
  rw [callFindings, callFindings, signature?_renamed, hnames]
  cases σ.signature? callee with
  | none =>
    exact congrArg ([·]) (Finding.category_unknownName (fun _ _ _ _ => rfl) callee _ location)
  | some f =>
    simp only [Option.map_some, Signature.renamed]
    split <;> rfl

end Scope

mutual

theorem Expr.alike_findings (σ : Scope) (e : Expr) :
    Finding.Alike (e.findings σ) ((e.renamed ρ).findings (σ.renamed ρ)) := by
  cases e with
  | number digits => rfl
  | «variable» name location => exact σ.alike_variableFindings ρ name location
  | binary op left right =>
    rw [Expr.renamed, Expr.findings, Expr.findings]
    exact (Expr.alike_findings σ left).append (Expr.alike_findings σ right)
  | unknown operator left right location =>
    rw [Expr.renamed, Expr.findings, Expr.findings]
    exact ((Expr.alike_findings σ left).append (Expr.alike_findings σ right)).append rfl
  | negate operand => exact Expr.alike_findings σ operand
  | call callee arguments location =>
    have hlength : (Expr.renamedAll ρ arguments).length = arguments.length := by
      rw [Expr.renamedAll_eq_map, List.length_map]
    rw [Expr.renamed, Expr.findings, Expr.findings, σ.prints_renamed ρ, hlength]
    split
    · exact .append rfl (Expr.alike_findingsAll σ arguments)
    · exact (Expr.alike_findingsAll σ arguments).append (σ.alike_callFindings ρ callee _ _)
  | hole m location => rfl

theorem Expr.alike_findingsAll (σ : Scope) (es : List Expr) :
    Finding.Alike (Expr.findingsAll σ es)
      (Expr.findingsAll (σ.renamed ρ) (Expr.renamedAll ρ es)) := by
  cases es with
  | nil => rfl
  | cons e es =>
    rw [Expr.renamedAll, Expr.findingsAll, Expr.findingsAll]
    exact (Expr.alike_findings σ e).append (Expr.alike_findingsAll σ es)

end

theorem Expr.alike_findings? (σ : Scope) (e : Option Expr) :
    Finding.Alike (Expr.findings? σ e)
      (Expr.findings? (σ.renamed ρ) (e.map (Expr.renamed ρ))) := by
  cases e with
  | none => rfl
  | some e => exact e.alike_findings ρ σ

theorem Stmt.alike_findings (σ : Scope) (s : Stmt) :
    Finding.Alike (s.findings σ) ((s.renamed ρ).findings (σ.renamed ρ)) := by
  induction s generalizing σ with
  | skip => rfl
  | seq first second ih₁ ih₂ =>
    rw [Stmt.renamed, Stmt.findings, Stmt.findings, Stmt.scopeAfter_renamed]
    exact (ih₁ σ).append (ih₂ _)
  | declare name value =>
    rw [Stmt.renamed, Stmt.findings, Stmt.findings, Scope.declare_renamed]
    exact Expr.alike_findings? ρ _ value
  | assign name value location =>
    exact (value.alike_findings ρ σ).append (σ.alike_variableFindings ρ name location)
  | discard value => exact value.alike_findings ρ σ
  | branch chained condition yes no ih₁ ih₂ =>
    rw [Stmt.renamed, Stmt.findings, Stmt.findings, Stmt.scopeAfter_renamed]
    exact ((condition.alike_findings ρ σ).append (ih₁ σ)).append (ih₂ _)
  | loop condition body ih => exact (condition.alike_findings ρ σ).append (ih σ)
  | giveBack value location =>
    have hinside : (σ.renamed ρ).inside = σ.inside.map (Signature.renamed ρ) := rfl
    rw [Stmt.renamed, Stmt.findings, Stmt.findings, hinside]
    cases σ.inside with
    | none => rfl
    | some f => exact Expr.alike_findings? ρ σ value
  | misuse m location => rfl

end StackLang
