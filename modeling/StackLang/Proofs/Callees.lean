import StackLang.Proofs.Layout

/-!
# Callees

What the statements of a script call, and what the code of a statement has of it: the calls in the
code are those in the statement, in the same order, and each goes to the entry of its callee. The
code of a statement enters no function, and its conditional jumps go forward. This holds of every
script, whether or not anything is found in it.
-/

namespace StackLang

mutual

/-- The callees in an expression, in the order in which they are called. -/
def Expr.callees : Expr → List (Option String)
  | .number _ | .variable _ _ | .hole _ _ => []
  | .binary _ left right => left.callees ++ right.callees
  | .unknown _ left right _ => left.callees ++ right.callees
  | .negate operand => operand.callees
  | .call callee arguments _ => Expr.calleesAll arguments ++ [callee]

/-- The callees in several expressions. -/
def Expr.calleesAll : List Expr → List (Option String)
  | [] => []
  | e :: es => e.callees ++ Expr.calleesAll es

end

/-- The callees in an expression that may be absent. -/
def Expr.callees? (e : Option Expr) : List (Option String) := (e.map Expr.callees).getD []

/-- The callees in a statement. Outside functions a return has no code. -/
def Stmt.callees (inFunction : Bool) : Stmt → List (Option String)
  | .skip | .misuse _ _ => []
  | .seq first second => first.callees inFunction ++ second.callees inFunction
  | .declare _ value => Expr.callees? value
  | .assign _ value _ => value.callees
  | .discard value => value.callees
  | .branch _ condition yes no =>
    condition.callees ++ yes.callees inFunction ++ no.callees inFunction
  | .loop condition body => condition.callees ++ body.callees inFunction
  | .giveBack value _ => if inFunction then Expr.callees? value else []

/-! ## The code of statements -/

namespace Draft

/-- An action inside a function: it does not enter one, and on a condition it only goes forward. -/
def Action.IsInner : Action → Prop
  | .fixed (.enter _) => False
  | .jumpIfZero distance => 0 < distance
  | _ => True

/-- All drafts are inside a function. -/
def AreInner (ds : List Draft) : Prop := ∀ d ∈ ds, d.action.IsInner

variable {d : Draft} {ds es condition yes no body : List Draft}

theorem inner_nil : AreInner [] := List.forall_mem_nil _

theorem AreInner.append (hds : AreInner ds) (hes : AreInner es) : AreInner (ds ++ es) :=
  List.forall_mem_append.mpr ⟨hds, hes⟩

theorem inner_singleton (h : d.action.IsInner) : AreInner [d] := List.forall_mem_singleton.mpr h

theorem inner_load (place : Place) (comment : String) : AreInner [Draft.load place comment] := by
  cases place <;> exact inner_singleton trivial

theorem inner_store (place : Place) (comment : String) : AreInner [Draft.store place comment] := by
  cases place <;> exact inner_singleton trivial

theorem AreInner.branchCode (chained : Bool) (hcondition : AreInner condition) (hyes : AreInner yes)
    (hno : AreInner no) : AreInner (branchCode chained condition yes no) := by
  have hforward : (0 : Int) < yes.length + 2 := by omega
  refine (((hcondition.append ?_).append hyes).append ?_).append hno
  · exact inner_singleton hforward
  · exact inner_singleton trivial

theorem AreInner.loopCode (hcondition : AreInner condition) (hbody : AreInner body) :
    AreInner (loopCode condition body) := by
  have hforward : (0 : Int) < body.length + 2 := by omega
  refine ((hcondition.append ?_).append hbody).append ?_
  · exact inner_singleton hforward
  · exact inner_singleton trivial

end Draft

open Draft (AreInner inner_nil inner_singleton inner_load inner_store)

theorem Scope.isInner_callDraft (σ : Scope) (callee : Option String) :
    (σ.callDraft callee).action.IsInner := by
  unfold Scope.callDraft
  split <;> trivial

mutual

theorem Expr.inner_code (σ : Scope) (e : Expr) : AreInner (e.code σ) := by
  cases e with
  | number digits => exact inner_singleton trivial
  | «variable» name location =>
    rw [Expr.code]
    split
    · exact inner_load _ _
    · exact inner_singleton trivial
  | binary op left right =>
    exact ((Expr.inner_code σ left).append (Expr.inner_code σ right)).append
      (inner_singleton trivial)
  | unknown operator left right location =>
    refine ((Expr.inner_code σ left).append (Expr.inner_code σ right)).append ?_
    simp only [AreInner, List.forall_mem_cons]
    exact ⟨trivial, trivial, trivial, inner_nil⟩
  | negate operand => exact (Expr.inner_code σ operand).append (inner_singleton trivial)
  | call callee arguments location =>
    rw [Expr.code]
    split
    · split
      · exact (Expr.inner_codeAll σ arguments).append (inner_singleton trivial)
      · exact (Expr.inner_codeDiscarded σ arguments).append (inner_singleton trivial)
    · exact (Expr.inner_codeAll σ arguments).append (inner_singleton (σ.isInner_callDraft callee))
  | hole m location => exact inner_singleton trivial

theorem Expr.inner_codeAll (σ : Scope) (es : List Expr) : AreInner (Expr.codeAll σ es) := by
  cases es with
  | nil => exact inner_nil
  | cons e es => exact (Expr.inner_code σ e).append (Expr.inner_codeAll σ es)

theorem Expr.inner_codeDiscarded (σ : Scope) (es : List Expr) :
    AreInner (Expr.codeDiscarded σ es) := by
  cases es with
  | nil => exact inner_nil
  | cons e es =>
    refine ((Expr.inner_code σ e).append ?_).append (Expr.inner_codeDiscarded σ es)
    exact inner_singleton trivial

end

/-- A statement enters no function, and its conditional jumps go forward. -/
theorem Stmt.inner_code (σ : Scope) (s : Stmt) : AreInner (s.code σ) := by
  induction s generalizing σ with
  | skip => exact inner_nil
  | seq first second ih₁ ih₂ => exact (ih₁ σ).append (ih₂ _)
  | declare name value =>
    cases value with
    | none => exact AreInner.append (inner_singleton trivial) (inner_store _ _)
    | some e => exact (Expr.inner_code _ e).append (inner_store _ _)
  | assign name value location =>
    refine (Expr.inner_code σ value).append ?_
    split
    · exact inner_store _ _
    · exact inner_singleton trivial
  | discard value => exact (Expr.inner_code σ value).append (inner_singleton trivial)
  | branch chained condition yes no ih₁ ih₂ =>
    exact .branchCode chained (Expr.inner_code σ condition) (ih₁ σ) (ih₂ _)
  | loop condition body ih => exact .loopCode (Expr.inner_code σ condition) (ih σ)
  | giveBack value location =>
    cases hinside : σ.inside with
    | none =>
      simp only [Stmt.code, hinside]
      exact inner_nil
    | some f =>
      simp only [Stmt.code, hinside]
      cases value with
      | none => exact AreInner.append (inner_singleton trivial) (inner_singleton trivial)
      | some e => exact (Expr.inner_code σ e).append (inner_singleton trivial)
  | misuse m location => exact inner_nil

theorem Script.inner_entryCode (s : Script) : AreInner s.entryCode := by
  refine (Stmt.inner_code _ _).append ?_
  simp only [AreInner, List.forall_mem_cons]
  exact ⟨trivial, trivial, inner_nil⟩

/-- In a function only the first draft enters it. -/
theorem Definition.inner_tail (σ : Scope) (d : Definition) : AreInner (d.code σ).tail := by
  refine (Stmt.inner_code _ _).append ?_
  simp only [AreInner, List.forall_mem_cons]
  exact ⟨trivial, trivial, inner_nil⟩

/-! ## The calls of statements -/

/-- The target of a call. -/
def Operation.callTarget? : Operation → Option Int
  | .call target => some target
  | _ => none

/-- The target of a drafted call, given the entries of the functions. -/
def Draft.callTarget? (entries : List (String × Nat)) (d : Draft) : Option Int :=
  (d.action.operation entries 0).callTarget?

/-- The targets of the calls in drafted code. -/
def Draft.calls (entries : List (String × Nat)) (ds : List Draft) : List Int :=
  ds.filterMap (Draft.callTarget? entries)

/-- The targets of calls by name in a scope. Calls that print have none. -/
def Scope.calls (σ : Scope) (entries : List (String × Nat)) (callees : List (Option String)) :
    List Int :=
  (callees.filter (!σ.prints ·)).map fun callee =>
    ((callee.bind fun name => entries.lookup name).map Int.ofNat).getD 0

/-- What has an entry has a signature. -/
def Scope.Lists (σ : Scope) (entries : List (String × Nat)) : Prop :=
  ∀ name, σ.signature? (some name) = none → entries.lookup name = none

section Calls

variable {σ τ : Scope} {entries : List (String × Nat)} {ds es : List Draft}
  {callees callees' : List (Option String)}

/-- Where a call goes does not depend on where it stands. -/
theorem Draft.callTarget?_operation (entries : List (String × Nat)) (address : Nat) (d : Draft) :
    (d.action.operation entries address).callTarget? = d.callTarget? entries := by
  unfold Draft.callTarget?
  cases d.action <;> rfl

/-- The calls of linked code go where the drafted ones go. -/
theorem Draft.filterMap_link (comments : Bool) (entries : List (String × Nat)) (address : Nat)
    (ds : List Draft) :
    (Draft.link comments entries address ds).filterMap (·.operation.callTarget?) =
      Draft.calls entries ds := by
  induction ds generalizing address with
  | nil => rfl
  | cons d ds ih =>
    rw [Draft.link, Draft.calls, List.filterMap_cons, List.filterMap_cons,
      Draft.callTarget?_operation, ih, Draft.calls]

@[simp] theorem Draft.calls_append :
    Draft.calls entries (ds ++ es) = Draft.calls entries ds ++ Draft.calls entries es :=
  List.filterMap_append

@[simp] theorem Draft.calls_load (place : Place) (comment : String) :
    Draft.calls entries [Draft.load place comment] = [] := by
  cases place <;> rfl

@[simp] theorem Draft.calls_store (place : Place) (comment : String) :
    Draft.calls entries [Draft.store place comment] = [] := by
  cases place <;> rfl

@[simp] theorem Scope.calls_nil : σ.calls entries [] = [] := rfl

@[simp] theorem Scope.calls_append :
    σ.calls entries (callees ++ callees') =
      σ.calls entries callees ++ σ.calls entries callees' := by
  simp [Scope.calls]

theorem Scope.signature?_congr (h : τ.signatures = σ.signatures) (callee : Option String) :
    τ.signature? callee = σ.signature? callee := by
  rw [Scope.signature?, h, Scope.signature?]

theorem Scope.calls_congr (h : τ.signatures = σ.signatures) :
    τ.calls entries callees = σ.calls entries callees := by
  have hprints (callee : Option String) : τ.prints callee = σ.prints callee := by
    rw [Scope.prints, Scope.signature?_congr h, Scope.prints]
  simp only [Scope.calls, hprints]

theorem Scope.Lists.congr (hσ : σ.Lists entries) (h : τ.signatures = σ.signatures) :
    τ.Lists entries := by
  intro name hname
  rw [Scope.signature?_congr h] at hname
  exact hσ name hname

/-- A call by name goes to the entry of its callee. -/
theorem Scope.calls_callDraft (hσ : σ.Lists entries) {callee : Option String}
    (hprints : σ.prints callee = false) :
    Draft.calls entries [σ.callDraft callee] = σ.calls entries [callee] := by
  simp only [Scope.calls, List.filter_cons, hprints, Bool.not_false, if_true, List.filter_nil,
    List.map_cons, List.map_nil]
  cases callee with
  | none => rfl
  | some name =>
    cases hsignature : σ.signature? (some name) with
    | none =>
      simp only [Scope.callDraft, hsignature, Option.bind_some, hσ name hsignature]
      rfl
    | some f =>
      simp only [Scope.callDraft, hsignature, Option.bind_some]
      rfl

mutual

theorem Expr.calls_code (hσ : σ.Lists entries) (e : Expr) :
    Draft.calls entries (e.code σ) = σ.calls entries e.callees := by
  cases e with
  | number digits => rfl
  | «variable» name location =>
    rw [Expr.code]
    split
    · exact Draft.calls_load _ _
    · rfl
  | binary op left right =>
    rw [Expr.code, Draft.calls_append, Draft.calls_append, Expr.calls_code hσ left,
      Expr.calls_code hσ right, Expr.callees, Scope.calls_append]
    exact List.append_nil _
  | unknown operator left right location =>
    rw [Expr.code, Draft.calls_append, Draft.calls_append, Expr.calls_code hσ left,
      Expr.calls_code hσ right, Expr.callees, Scope.calls_append]
    exact List.append_nil _
  | negate operand =>
    rw [Expr.code, Draft.calls_append, Expr.calls_code hσ operand, Expr.callees]
    exact List.append_nil _
  | call callee arguments location =>
    rw [Expr.code, Expr.callees, Scope.calls_append]
    cases hprints : σ.prints callee with
    | true =>
      have hnone : σ.calls entries [callee] = [] := by simp [Scope.calls, hprints]
      rw [if_pos rfl, hnone, List.append_nil]
      split
      · rw [Draft.calls_append, Expr.calls_codeAll hσ arguments]
        exact List.append_nil _
      · rw [Draft.calls_append, Expr.calls_codeDiscarded hσ arguments]
        exact List.append_nil _
    | false =>
      rw [if_neg Bool.false_ne_true, Draft.calls_append, Expr.calls_codeAll hσ arguments,
        Scope.calls_callDraft hσ hprints]
  | hole m location => rfl

theorem Expr.calls_codeAll (hσ : σ.Lists entries) (es : List Expr) :
    Draft.calls entries (Expr.codeAll σ es) = σ.calls entries (Expr.calleesAll es) := by
  cases es with
  | nil => rfl
  | cons e es =>
    rw [Expr.codeAll, Draft.calls_append, Expr.calls_code hσ e, Expr.calls_codeAll hσ es,
      Expr.calleesAll, Scope.calls_append]

theorem Expr.calls_codeDiscarded (hσ : σ.Lists entries) (es : List Expr) :
    Draft.calls entries (Expr.codeDiscarded σ es) = σ.calls entries (Expr.calleesAll es) := by
  cases es with
  | nil => rfl
  | cons e es =>
    have hpop : Draft.calls entries [.bare .pop] = [] := rfl
    rw [Expr.codeDiscarded, Draft.calls_append, Draft.calls_append, Expr.calls_code hσ e, hpop,
      List.append_nil, Expr.calls_codeDiscarded hσ es, Expr.calleesAll, Scope.calls_append]

end

theorem Stmt.inside_scopeAfter (σ : Scope) (s : Stmt) : (s.scopeAfter σ).inside = σ.inside := by
  induction s generalizing σ with
  | seq first second ih₁ ih₂ => exact (ih₂ _).trans (ih₁ σ)
  | declare name value => exact Discipline.inside_declare σ name
  | branch chained condition yes no ih₁ ih₂ => exact (ih₂ _).trans (ih₁ σ)
  | loop condition body ih => exact ih σ
  | _ => rfl

/-- The calls in the code of a statement are those in the statement, in the same order. -/
theorem Stmt.calls_code (hσ : σ.Lists entries) (s : Stmt) :
    Draft.calls entries (s.code σ) = σ.calls entries (s.callees σ.inside.isSome) := by
  have hafter {σ : Scope} (s : Stmt) : (s.scopeAfter σ).signatures = σ.signatures :=
    (Simulation.grows_scopeAfter σ s).signatures
  induction s generalizing σ with
  | skip => rfl
  | seq first second ih₁ ih₂ =>
    rw [Stmt.code, Draft.calls_append, ih₁ hσ, ih₂ (hσ.congr (hafter first)),
      Scope.calls_congr (hafter first), inside_scopeAfter, Stmt.callees, Scope.calls_append]
  | declare name value =>
    have hdeclare := (Simulation.grows_declare σ name).signatures
    cases value with
    | none =>
      rw [Stmt.code, Draft.calls_append, Draft.calls_store]
      rfl
    | some e =>
      rw [Stmt.code, Draft.calls_append, Draft.calls_store, List.append_nil,
        Expr.calls_code (hσ.congr hdeclare), Scope.calls_congr hdeclare]
      rfl
  | assign name value location =>
    rw [Stmt.code, Draft.calls_append, Expr.calls_code hσ]
    split
    · rw [Draft.calls_store, List.append_nil]
      rfl
    · exact List.append_nil _
  | discard value =>
    rw [Stmt.code, Draft.calls_append, Expr.calls_code hσ]
    exact List.append_nil _
  | branch chained condition yes no ih₁ ih₂ =>
    rw [Stmt.code, branchCode]
    simp only [Draft.calls_append, Expr.calls_code hσ, ih₁ hσ, ih₂ (hσ.congr (hafter yes)),
      Scope.calls_congr (hafter yes), inside_scopeAfter, Stmt.callees, Scope.calls_append]
    simp [Draft.calls, Draft.callTarget?, Draft.Action.operation, Operation.callTarget?]
  | loop condition body ih =>
    rw [Stmt.code, loopCode]
    simp only [Draft.calls_append, Expr.calls_code hσ, ih hσ, Stmt.callees, Scope.calls_append]
    simp [Draft.calls, Draft.callTarget?, Draft.Action.operation, Operation.callTarget?]
  | giveBack value location =>
    cases hinside : σ.inside with
    | none => simp only [Stmt.code, hinside]; rfl
    | some f =>
      simp only [Stmt.code, hinside, Draft.calls_append]
      cases value with
      | none => rfl
      | some e =>
        rw [Expr.calls_code hσ]
        exact List.append_nil _
  | misuse m location => rfl

end Calls

end StackLang
