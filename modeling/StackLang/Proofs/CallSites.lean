import StackLang.Proofs.Simulation.Program

/-!
# Call sites

The places at which the code of a script calls its functions: one for each call in the source, with
its address, what it calls and the number of its arguments. In a script in which nothing is found
there is a call instruction at each of them, and the arguments are as many as the parameters.
-/

namespace StackLang

/-- A call of a function in the code of a script. -/
structure CallSite where
  address : Nat
  callee : String
  arguments : Nat
deriving DecidableEq

/-- The call at an address, unless it prints. -/
def Scope.callSite (σ : Scope) (address : Nat) (callee : Option String) (count : Nat) :
    List CallSite :=
  match callee with
  | some name => if σ.prints callee then [] else [⟨address, name, count⟩]
  | none => []

mutual

/-- The calls in an expression whose code stands at an address. -/
def Expr.callSites (σ : Scope) (address : Nat) : Expr → List CallSite
  | .number _ | .variable _ _ | .hole _ _ => []
  | .binary _ left right =>
    left.callSites σ address ++ right.callSites σ (address + (left.code σ).length)
  | .unknown _ left right _ =>
    left.callSites σ address ++ right.callSites σ (address + (left.code σ).length)
  | .negate operand => operand.callSites σ address
  | .call callee arguments _ =>
    Expr.callSitesAll σ address arguments ++
      σ.callSite (address + (Expr.codeAll σ arguments).length) callee arguments.length

/-- The calls in several expressions. -/
def Expr.callSitesAll (σ : Scope) (address : Nat) : List Expr → List CallSite
  | [] => []
  | e :: es => e.callSites σ address ++ Expr.callSitesAll σ (address + (e.code σ).length) es

end

/-- The calls in an expression that may be absent. -/
def Expr.callSites? (σ : Scope) (address : Nat) (e : Option Expr) : List CallSite :=
  (e.map (Expr.callSites σ address)).getD []

/-- The calls in a statement whose code stands at an address. -/
def Stmt.callSites (σ : Scope) (address : Nat) : Stmt → List CallSite
  | .skip | .misuse _ _ => []
  | .seq first second =>
    first.callSites σ address ++
      second.callSites (first.scopeAfter σ) (address + (first.code σ).length)
  | .declare name value => Expr.callSites? (σ.declare name) address value
  | .assign _ value _ => value.callSites σ address
  | .discard value => value.callSites σ address
  | .branch _ condition yes no =>
    condition.callSites σ address ++
      yes.callSites σ (address + (condition.code σ).length + 1) ++
      no.callSites (yes.scopeAfter σ)
        (address + (condition.code σ).length + 1 + (yes.code σ).length + 1)
  | .loop condition body =>
    condition.callSites σ address ++
      body.callSites σ (address + (condition.code σ).length + 1)
  | .giveBack value _ => Expr.callSites? σ address value

/-- The calls in functions whose code stands one after the other from an address on. -/
def Script.callSitesFrom (σ : Scope) : Nat → List Definition → List CallSite
  | _, [] => []
  | address, d :: ds =>
    d.body.callSites (d.scope σ) (address + 1) ++
      Script.callSitesFrom σ (address + (d.code σ).length) ds

/-- The calls in a script. -/
def Script.callSites (s : Script) : List CallSite :=
  s.entry.callSites s.startScope 0 ++
    Script.callSitesFrom s.functionScope s.entryCode.length s.definitions

/-! ## The instructions at call sites -/

/-- Drafted code that stands at an address has the call instruction of a call site, which has as
many arguments as one of the signatures asks for. -/
def CallSite.InCode (signatures : List Signature) (address : Nat) (ds : List Draft)
    (c : CallSite) : Prop :=
  (∃ k d, c.address = address + k ∧ ds[k]? = some d ∧ d.action = .call c.callee 0) ∧
    ∃ f, signatures.find? (fun f => some f.name = some c.callee) = some f ∧
      c.arguments = f.arity

namespace CallSite.InCode

variable {signatures : List Signature} {address : Nat} {ds es : List Draft} {c : CallSite}

theorem left (h : c.InCode signatures address ds) (es : List Draft) :
    c.InCode signatures address (ds ++ es) := by
  obtain ⟨⟨k, d, haddress, hd, haction⟩, hcount⟩ := h
  have hlt := (List.getElem?_eq_some_iff.mp hd).1
  exact ⟨⟨k, d, haddress, by rw [List.getElem?_append_left hlt, hd], haction⟩, hcount⟩

theorem right (h : c.InCode signatures (address + ds.length) es) :
    c.InCode signatures address (ds ++ es) := by
  obtain ⟨⟨k, d, haddress, hd, haction⟩, hcount⟩ := h
  refine ⟨⟨ds.length + k, d, by omega, ?_, haction⟩, hcount⟩
  rw [List.getElem?_append_right (Nat.le_add_right _ _), Nat.add_sub_cancel_left, hd]

end CallSite.InCode

variable {σ : Scope}

mutual

/-- The calls of an expression in which nothing is found are in its code. -/
theorem Expr.inCode_of_mem_callSites {address : Nat} {c : CallSite} (e : Expr)
    (he : e.findings σ = []) (hc : c ∈ e.callSites σ address) :
    c.InCode σ.signatures address (e.code σ) := by
  cases e with
  | binary op left right =>
    rw [Expr.findings, List.append_eq_nil_iff] at he
    rw [Expr.callSites, List.mem_append] at hc
    refine CallSite.InCode.left ?_ _
    rcases hc with hc | hc
    · exact (Expr.inCode_of_mem_callSites left he.1 hc).left _
    · exact (Expr.inCode_of_mem_callSites right he.2 hc).right
  | unknown operator left right location => simp [Expr.findings] at he
  | negate operand =>
    rw [Expr.findings] at he
    rw [Expr.callSites] at hc
    exact (Expr.inCode_of_mem_callSites operand he hc).left _
  | call callee arguments location =>
    rw [Expr.findings] at he
    rw [Expr.callSites, List.mem_append] at hc
    rw [Expr.code]
    split at he
    · rename_i hprints
      rw [List.append_eq_nil_iff] at he
      have hone : arguments.length = 1 := by
        by_contra hne
        simp [hne] at he
      rw [if_pos hprints, if_pos hone]
      rcases hc with hc | hc
      · exact (Expr.inCode_of_mem_callSitesAll arguments he.2 hc).left _
      · cases callee <;> simp [Scope.callSite, hprints] at hc
    · rename_i hprints
      rw [List.append_eq_nil_iff, Scope.callFindings_eq_nil] at he
      obtain ⟨hfound, f, hf, hcount⟩ := he
      rw [if_neg hprints]
      rcases hc with hc | hc
      · exact (Expr.inCode_of_mem_callSitesAll arguments hfound hc).left _
      · cases callee with
        | none => cases hc
        | some name =>
          rw [Scope.callSite, if_neg hprints] at hc
          obtain rfl := List.mem_singleton.mp hc
          refine ⟨⟨_, σ.callDraft (some name), rfl, List.getElem?_concat_length, ?_⟩, f, hf, hcount⟩
          simp only [Scope.callDraft, hf]
  | number digits => cases hc
  | «variable» name location => cases hc
  | hole m location => cases hc

/-- The calls of several expressions are in their code. -/
theorem Expr.inCode_of_mem_callSitesAll {address : Nat} {c : CallSite} (es : List Expr)
    (hes : Expr.findingsAll σ es = []) (hc : c ∈ Expr.callSitesAll σ address es) :
    c.InCode σ.signatures address (Expr.codeAll σ es) := by
  cases es with
  | nil => cases hc
  | cons e es =>
    rw [Expr.findingsAll, List.append_eq_nil_iff] at hes
    rw [Expr.callSitesAll, List.mem_append] at hc
    rcases hc with hc | hc
    · exact (Expr.inCode_of_mem_callSites e hes.1 hc).left _
    · exact (Expr.inCode_of_mem_callSitesAll es hes.2 hc).right

end

theorem Expr.inCode_of_mem_callSites? {address : Nat} {c : CallSite} {e : Option Expr}
    (he : Expr.findings? σ e = []) (hc : c ∈ Expr.callSites? σ address e) :
    ∃ e', e = some e' ∧ c.InCode σ.signatures address (e'.code σ) := by
  cases e with
  | none => cases hc
  | some e => exact ⟨e, rfl, e.inCode_of_mem_callSites he hc⟩

/-- The calls of a statement in which nothing is found are in its code. -/
theorem Stmt.inCode_of_mem_callSites {address : Nat} {c : CallSite} {s : Stmt}
    (hs : s.findings σ = []) (hc : c ∈ s.callSites σ address) :
    c.InCode σ.signatures address (s.code σ) := by
  induction s generalizing σ address with
  | skip => cases hc
  | seq first second ih₁ ih₂ =>
    rw [Stmt.findings, List.append_eq_nil_iff] at hs
    rw [Stmt.callSites, List.mem_append] at hc
    rcases hc with hc | hc
    · exact (ih₁ hs.1 hc).left _
    · have hsecond := ih₂ hs.2 hc
      rw [(Simulation.grows_scopeAfter σ first).signatures] at hsecond
      exact hsecond.right
  | declare name value =>
    obtain ⟨e, rfl, he⟩ := Expr.inCode_of_mem_callSites? hs hc
    rw [(Simulation.grows_declare σ name).signatures] at he
    exact he.left _
  | assign name value location =>
    rw [Stmt.findings, List.append_eq_nil_iff] at hs
    exact (value.inCode_of_mem_callSites hs.1 hc).left _
  | discard value => exact (value.inCode_of_mem_callSites hs hc).left _
  | branch chained condition yes no ih₁ ih₂ =>
    rw [Stmt.findings, List.append_eq_nil_iff, List.append_eq_nil_iff] at hs
    rw [Stmt.callSites, List.mem_append, List.mem_append] at hc
    rw [Stmt.code, branchCode]
    rcases hc with (hc | hc) | hc
    · exact ((((condition.inCode_of_mem_callSites hs.1.1 hc).left _).left _).left _).left _
    · refine ((CallSite.InCode.right ?_).left _).left _
      rw [List.length_append, List.length_singleton, ← Nat.add_assoc]
      exact ih₁ hs.1.2 hc
    · have hno := ih₂ hs.2 hc
      rw [(Simulation.grows_scopeAfter σ yes).signatures] at hno
      refine CallSite.InCode.right ?_
      simp only [List.length_append, List.length_singleton, ← Nat.add_assoc]
      exact hno
  | loop condition body ih =>
    rw [Stmt.findings, List.append_eq_nil_iff] at hs
    rw [Stmt.callSites, List.mem_append] at hc
    rw [Stmt.code, loopCode]
    rcases hc with hc | hc
    · exact (((condition.inCode_of_mem_callSites hs.1 hc).left _).left _).left _
    · refine (CallSite.InCode.right ?_).left _
      rw [List.length_append, List.length_singleton, ← Nat.add_assoc]
      exact ih hs.2 hc
  | giveBack value location =>
    rw [Stmt.findings] at hs
    cases hinside : σ.inside with
    | none => simp [hinside] at hs
    | some f =>
      simp only [hinside] at hs
      obtain ⟨e, rfl, he⟩ := Expr.inCode_of_mem_callSites? hs hc
      simp only [Stmt.code, hinside]
      exact he.left _
  | misuse m location => cases hc

/-- The calls of functions in which nothing is found are in their code. -/
theorem Script.inCode_of_mem_callSitesFrom {address : Nat} {c : CallSite} {ds : List Definition}
    (hds : ∀ d ∈ ds, d.body.findings (d.scope σ) = [])
    (hc : c ∈ Script.callSitesFrom σ address ds) :
    c.InCode σ.signatures address (ds.flatMap (Definition.code σ)) := by
  induction ds generalizing address with
  | nil => cases hc
  | cons d ds ih =>
    rw [Script.callSitesFrom, List.mem_append] at hc
    rw [List.flatMap_cons]
    rcases hc with hc | hc
    · refine CallSite.InCode.left ?_ _
      rw [Definition.code, ← List.singleton_append]
      have hbody := Stmt.inCode_of_mem_callSites (hds d List.mem_cons_self) hc
      exact (hbody.left _).right
    · exact (ih (fun e he => hds e (List.mem_cons_of_mem _ he)) hc).right

open Simulation (Clean)

/-- The calls of a script in which nothing is found are in its code, and none is the first call. -/
theorem Script.inCode_of_mem_callSites {tree : Tree} {statements : List Tree}
    {fs : List Tree.Parts} {s : Script} (h : Clean tree statements fs s) {c : CallSite}
    (hc : c ∈ s.callSites) :
    c.InCode s.signatures 0 s.code ∧ c.address ≠ (s.entry.code s.startScope).length := by
  rw [Script.callSites, List.mem_append] at hc
  rw [Script.code]
  rcases hc with hc | hc
  · have hentry := Stmt.inCode_of_mem_callSites
      ((Script.findings_eq_nil h.functions).mp h.findings).2.2.2.1 hc
    obtain ⟨k, d, haddress, hd, -⟩ := hentry.1
    have hlt := (List.getElem?_eq_some_iff.mp hd).1
    exact ⟨(hentry.left _).left _, by omega⟩
  · have hbodies : ∀ d ∈ s.definitions, d.body.findings (d.scope s.functionScope) = [] := by
      rw [Script.definitions_eq h.functions h.nodup_names]
      exact List.forall_mem_map.mpr fun f hf => h.checked_body hf
    have hfunctions := Script.inCode_of_mem_callSitesFrom hbodies hc
    have hsignatures : s.functionScope.signatures = s.signatures :=
      (Simulation.grows_scopeAfter s.startScope s.entry).signatures
    rw [hsignatures] at hfunctions
    obtain ⟨k, d, haddress, -⟩ := hfunctions.1
    refine ⟨CallSite.InCode.right (by rwa [Nat.zero_add]), ?_⟩
    rw [Script.entryCode, List.length_append] at haddress
    simp only [List.length_cons, List.length_nil] at haddress
    omega

end StackLang
