import StackLang.Proofs.CallSites
import StackLang.Proofs.Layout

/-!
# The calls of a program

The call sites of a script are all the calls in its code, each right behind the code of its
arguments, and there is only one call more: the one that starts the first function.
-/

namespace StackLang

open StackLang.Tree (Parts)
open Discipline (Setting Room effect Covers PointOf)

/-! ## The calls in a piece of code -/

/-- A draft that becomes a call. -/
def Draft.IsCall (d : Draft) : Prop :=
  ∃ entries address target, d.action.operation entries address = .call target

namespace Draft

variable {d : Draft}

theorem not_isCall_of_fixed {operation : Operation} (h : d.action = .fixed operation)
    (hother : ∀ target, operation ≠ .call target) : ¬d.IsCall := by
  rintro ⟨entries, address, target, hcall⟩
  rw [h] at hcall
  exact hother target hcall

theorem not_isCall_of_jump {distance : Int}
    (h : d.action = .jump distance ∨ d.action = .jumpIfZero distance) : ¬d.IsCall := by
  rintro ⟨entries, address, target, hcall⟩
  rcases h with h | h <;>
  · rw [h] at hcall
    cases hcall

theorem not_isCall_load (place : Place) (comment : String) :
    ¬(Draft.load place comment).IsCall := by
  cases place <;> exact not_isCall_of_fixed rfl (by simp)

theorem not_isCall_store (place : Place) (comment : String) :
    ¬(Draft.store place comment).IsCall := by
  cases place <;> exact not_isCall_of_fixed rfl (by simp)

end Draft

/-- Drafted code that stands at an address has the call of a call site, right behind the code of its
arguments. -/
def CallSite.Prepared (arity : String → Nat) (address : Nat) (ds : List Draft) (c : CallSite) :
    Prop :=
  ∃ before σ es d after, ds = before ++ (Expr.codeAll σ es ++ d :: after) ∧
    es.length = c.arguments ∧ effect arity (Expr.codeAll σ es) = c.arguments ∧
    c.address = address + before.length + (Expr.codeAll σ es).length

/-- The calls in drafted code that stands at an address are those of a list of call sites. -/
structure CallSite.Lists (arity : String → Nat) (address : Nat) (ds : List Draft)
    (cs : List CallSite) : Prop where
  prepared : ∀ c ∈ cs, c.Prepared arity address ds
  complete : ∀ k d, ds[k]? = some d → d.IsCall → ∃ c ∈ cs, c.address = address + k

namespace CallSite

variable {arity : String → Nat} {address : Nat} {ds es : List Draft} {d : Draft}
  {c : CallSite} {cs cs' : List CallSite}

theorem Prepared.left (h : c.Prepared arity address ds) (es : List Draft) :
    c.Prepared arity address (ds ++ es) := by
  obtain ⟨before, σ, args, d, after, rfl, hcount, heffect, haddress⟩ := h
  exact ⟨before, σ, args, d, after ++ es, by simp, hcount, heffect, haddress⟩

theorem Prepared.right (h : c.Prepared arity (address + ds.length) es) :
    c.Prepared arity address (ds ++ es) := by
  obtain ⟨before, σ, args, d, after, rfl, hcount, heffect, haddress⟩ := h
  refine ⟨ds ++ before, σ, args, d, after, by simp, hcount, heffect, ?_⟩
  rw [haddress, List.length_append]
  omega

namespace Lists

theorem nil : Lists arity address [] [] :=
  ⟨fun _ hc => (nomatch hc), fun _ _ hd => (nomatch hd)⟩

theorem append (h : Lists arity address ds cs) (h' : Lists arity (address + ds.length) es cs') :
    Lists arity address (ds ++ es) (cs ++ cs') := by
  constructor
  · intro c hc
    rcases List.mem_append.mp hc with hc | hc
    · exact (h.prepared c hc).left es
    · exact (h'.prepared c hc).right
  · intro k d hd hcall
    by_cases hk : k < ds.length
    · rw [List.getElem?_append_left hk] at hd
      obtain ⟨c, hc, haddress⟩ := h.complete k d hd hcall
      exact ⟨c, List.mem_append_left _ hc, haddress⟩
    · rw [List.getElem?_append_right (by omega)] at hd
      obtain ⟨c, hc, haddress⟩ := h'.complete _ d hd hcall
      exact ⟨c, List.mem_append_right _ hc, by omega⟩

/-- One more instruction that is no call. -/
theorem concat (h : Lists arity address ds cs) (hd : ¬d.IsCall) :
    Lists arity address (ds ++ [d]) cs := by
  have hlast : Lists arity (address + ds.length) [d] [] := by
    refine ⟨fun _ hc => (nomatch hc), fun k e he hcall => ?_⟩
    obtain rfl := List.mem_singleton.mp (List.mem_of_getElem? he)
    exact absurd hcall hd
  simpa using h.append hlast

/-- One more call, of which the code before it computes the arguments. -/
theorem call {σ : Scope} {args : List Expr} {name : String}
    (h : Lists arity address (Expr.codeAll σ args) cs)
    (heffect : effect arity (Expr.codeAll σ args) = args.length) (d : Draft) :
    Lists arity address (Expr.codeAll σ args ++ [d])
      (cs ++ [⟨address + (Expr.codeAll σ args).length, name, args.length⟩]) := by
  constructor
  · intro c hc
    rcases List.mem_append.mp hc with hc | hc
    · exact (h.prepared c hc).left _
    · obtain rfl := List.mem_singleton.mp hc
      exact ⟨[], σ, args, d, [], rfl, rfl, heffect, rfl⟩
  · intro k e he hcall
    by_cases hk : k < (Expr.codeAll σ args).length
    · rw [List.getElem?_append_left hk] at he
      obtain ⟨c, hc, haddress⟩ := h.complete k e he hcall
      exact ⟨c, List.mem_append_left _ hc, haddress⟩
    · have hlt := (List.getElem?_eq_some_iff.mp he).1
      rw [List.length_append, List.length_singleton] at hlt
      refine ⟨_, List.mem_append_right _ List.mem_cons_self, ?_⟩
      simp only
      omega

theorem singleton (hd : ¬d.IsCall) : Lists arity address [d] [] := by
  have hnil : Lists arity address [] [] := nil
  exact hnil.concat hd

theorem branchCode (chained : Bool) {condition yes no : List Draft} {cs'' : List CallSite}
    (hcondition : Lists arity address condition cs)
    (hyes : Lists arity (address + condition.length + 1) yes cs')
    (hno : Lists arity (address + condition.length + 1 + yes.length + 1) no cs'') :
    Lists arity address (branchCode chained condition yes no) (cs ++ cs' ++ cs'') := by
  refine append (concat (append (hcondition.concat ?_) ?_) ?_) ?_
  · exact Draft.not_isCall_of_jump (.inr rfl)
  · rwa [List.length_append, List.length_singleton, ← Nat.add_assoc]
  · exact Draft.not_isCall_of_jump (.inl rfl)
  · simpa only [List.length_append, List.length_singleton, ← Nat.add_assoc] using hno

theorem loopCode {condition body : List Draft} (hcondition : Lists arity address condition cs)
    (hbody : Lists arity (address + condition.length + 1) body cs') :
    Lists arity address (loopCode condition body) (cs ++ cs') := by
  refine concat (append (hcondition.concat ?_) ?_) ?_
  · exact Draft.not_isCall_of_jump (.inr rfl)
  · rwa [List.length_append, List.length_singleton, ← Nat.add_assoc]
  · exact Draft.not_isCall_of_jump (.inl rfl)

end Lists

end CallSite

namespace Discipline

open CallSite (Lists)

variable {At : Nat → Point → Prop} {g : Nat} {entries : List (String × Nat)}
  {arity : String → Nat} {r : Region} {σ : Scope}

mutual

/-- The calls in the code of an expression in which nothing is found. -/
theorem Setting.lists_code (h : Setting At g entries arity r σ) (e : Expr)
    (he : e.findings σ = []) (address : Nat) :
    Lists arity address (e.code σ) (e.callSites σ address) := by
  cases e with
  | number digits => exact .singleton (Draft.not_isCall_of_fixed rfl (by simp))
  | «variable» name location =>
    rw [Expr.findings, Scope.variableFindings_eq_nil, Option.isSome_iff_exists] at he
    obtain ⟨place, hplace⟩ := he
    rw [Expr.code, hplace]
    exact .singleton (Draft.not_isCall_load _ _)
  | binary op left right =>
    rw [Expr.findings, List.append_eq_nil_iff] at he
    exact ((h.lists_code left he.1 _).append (h.lists_code right he.2 _)).concat
      (Draft.not_isCall_of_fixed rfl (by simp))
  | unknown operator left right location => simp [Expr.findings] at he
  | negate operand =>
    rw [Expr.findings] at he
    exact (h.lists_code operand he _).concat
      (Draft.not_isCall_of_fixed rfl (by simp))
  | call callee arguments location =>
    rw [Expr.findings] at he
    rw [Expr.code, Expr.callSites]
    split at he
    · rename_i hprints
      rw [List.append_eq_nil_iff] at he
      have hone : arguments.length = 1 := by
        by_contra hne
        simp [hne] at he
      have hnone (a n : Nat) : σ.callSite a callee n = [] := by
        cases callee with
        | none => rfl
        | some name => rw [Scope.callSite, if_pos hprints]
      rw [if_pos hprints, if_pos hone, hnone, List.append_nil]
      exact (h.lists_codeAll arguments he.2 _).concat
        (Draft.not_isCall_of_fixed rfl (by simp))
    · rename_i hprints
      rw [List.append_eq_nil_iff, Scope.callFindings_eq_nil] at he
      obtain ⟨hfound, f, hf, hcount⟩ := he
      have hall := h.lists_codeAll arguments hfound address
      have heffect := (h.balanced_codeAll arguments hfound).effect_eq
      rw [if_neg hprints]
      cases callee with
      | none =>
        have hnone := List.find?_some hf
        simp at hnone
      | some name =>
        rw [Scope.callSite, if_neg hprints]
        exact hall.call heffect _
  | hole m location => simp [Expr.findings] at he

/-- The calls in the code of several expressions. -/
theorem Setting.lists_codeAll (h : Setting At g entries arity r σ) (es : List Expr)
    (hes : Expr.findingsAll σ es = []) (address : Nat) :
    Lists arity address (Expr.codeAll σ es) (Expr.callSitesAll σ address es) := by
  cases es with
  | nil => exact .nil
  | cons e es =>
    rw [Expr.findingsAll, List.append_eq_nil_iff] at hes
    exact (h.lists_code e hes.1 _).append (h.lists_codeAll es hes.2 _)

end

/-- The calls in the code of a value that may be absent. -/
theorem Setting.lists_value (h : Setting At g entries arity r σ) (value : Option Expr)
    (comment : String) (address : Nat) : Expr.findings? σ value = [] → Lists arity address
      (match value with
        | some e => e.code σ
        | none => [.of (.push 0) comment]) (Expr.callSites? σ address value) := by
  intro hvalue
  cases value with
  | none => exact .singleton (Draft.not_isCall_of_fixed rfl (by simp))
  | some e => exact h.lists_code e hvalue address

/-- The calls in the code of a statement in which nothing is found. -/
theorem Setting.lists_statement {s : Stmt} (h : Setting At g entries arity r σ)
    (hroom : Room g r (s.scopeAfter σ)) (hs : s.findings σ = []) (address : Nat) :
    Lists arity address (s.code σ) (s.callSites σ address) := by
  induction s generalizing σ address with
  | skip => exact .nil
  | seq first second ih₁ ih₂ =>
    rw [Stmt.findings, List.append_eq_nil_iff] at hs
    have hroom₁ : Room g r (first.scopeAfter σ) :=
      hroom.of_grows (Simulation.grows_scopeAfter _ second)
    exact (ih₁ h hroom₁ hs.1 _).append (ih₂ (h.scopeAfter hroom₁) hroom hs.2 _)
  | declare name value =>
    exact ((h.declare hroom).lists_value value _ _ hs).concat (Draft.not_isCall_store _ _)
  | assign name value location =>
    rw [Stmt.findings, List.append_eq_nil_iff, Scope.variableFindings_eq_nil,
      Option.isSome_iff_exists] at hs
    obtain ⟨hvalue, place, hplace⟩ := hs
    simp only [Stmt.code, hplace]
    exact (h.lists_code value hvalue _).concat (Draft.not_isCall_store _ _)
  | discard value =>
    exact (h.lists_code value hs _).concat
      (Draft.not_isCall_of_fixed rfl (by simp))
  | branch chained condition yes no ih₁ ih₂ =>
    rw [Stmt.findings, List.append_eq_nil_iff, List.append_eq_nil_iff] at hs
    have hroom₁ : Room g r (yes.scopeAfter σ) :=
      hroom.of_grows (Simulation.grows_scopeAfter _ no)
    exact .branchCode chained (h.lists_code condition hs.1.1 _) (ih₁ h hroom₁ hs.1.2 _)
      (ih₂ (h.scopeAfter hroom₁) hroom hs.2 _)
  | loop condition body ih =>
    rw [Stmt.findings, List.append_eq_nil_iff] at hs
    exact .loopCode (h.lists_code condition hs.1 _) (ih h hroom hs.2 _)
  | giveBack value location =>
    rw [Stmt.findings] at hs
    cases hinside : σ.inside with
    | none => simp [hinside] at hs
    | some f =>
      simp only [hinside] at hs
      simp only [Stmt.code, hinside]
      exact (h.lists_value value _ _ hs).concat
        (Draft.not_isCall_of_fixed rfl (by simp))
  | misuse m location => cases hs

end Discipline

/-! ## The calls in a program -/

/-- The code of a function has its call sites where it stands. -/
theorem Script.mem_callSitesFrom {σ : Scope} {address : Nat} {ds : List Definition}
    {c : CallSite} :
    c ∈ Script.callSitesFrom σ address ds ↔ ∃ before d after, ds = before ++ d :: after ∧
      c ∈ d.body.callSites (d.scope σ)
        (address + (before.flatMap (Definition.code σ)).length + 1) := by
  induction ds generalizing address with
  | nil => simp [Script.callSitesFrom]
  | cons e ds ih =>
    rw [Script.callSitesFrom, List.mem_append, ih]
    constructor
    · rintro (hc | ⟨before, d, after, rfl, hc⟩)
      · exact ⟨[], e, ds, rfl, hc⟩
      · refine ⟨e :: before, d, after, rfl, ?_⟩
        rwa [List.flatMap_cons, List.length_append, ← Nat.add_assoc]
    · rintro ⟨before, d, after, hsplit, hc⟩
      cases before with
      | nil =>
        obtain ⟨rfl, rfl⟩ := List.cons.inj hsplit
        exact .inl hc
      | cons e' before =>
        obtain ⟨rfl, rfl⟩ := List.cons.inj hsplit
        rw [List.flatMap_cons, List.length_append, ← Nat.add_assoc] at hc
        exact .inr ⟨before, d, after, rfl, hc⟩

namespace Discipline

open Simulation (Clean)
open CallSite (Lists)

variable {tree : Tree} {statements : List Tree} {fs : List Parts} {s : Script} {f : Parts}
  {c : CallSite} {address entry : Nat} {i : Instruction}

theorem lists_entry (h : Clean tree statements fs s) :
    Lists (arityOf s) 0 (s.entry.code s.startScope) (s.entry.callSites s.startScope 0) :=
  (setting_entry h).lists_statement (room_entry s)
    ((Script.findings_eq_nil h.functions).mp h.findings).2.2.2.1 0

theorem lists_bodyCode (h : Clean tree statements fs s) (hf : f ∈ fs) (address : Nat) :
    Lists (arityOf s) address (bodyCode s f)
      ((Stmt.ofTrees f.body).callSites (f.definition.scope s.functionScope) address) :=
  ((setting_body h f).lists_statement (room_body h hf) (h.checked_body hf) address).concat
    (Draft.not_isCall_of_fixed rfl (by simp))

/-- The call sites in the body of a function are among those of the script. -/
theorem mem_callSites_of_body (h : Clean tree statements fs s) (hf : f ∈ fs)
    (hentry : s.entries.lookup f.name = some entry)
    (hc : c ∈ (Stmt.ofTrees f.body).callSites (f.definition.scope s.functionScope) (entry + 1)) :
    c ∈ s.callSites := by
  obtain ⟨before, after, hsplit, rfl⟩ := h.exists_append hf hentry
  refine List.mem_append_right _ (Script.mem_callSitesFrom.mpr ⟨before, _, after, hsplit, hc⟩)

/-- A call site is in code to all of whose positions control can come. -/
theorem exists_prepared (h : Clean tree statements fs s) (comments : Bool)
    (hc : c ∈ s.callSites) :
    ∃ r address ds, c.Prepared (arityOf s) address ds ∧
      Covers (PointOf fs s) (arityOf s) r address 0 ds ∧
      (s.program comments).Has s.entries address ds := by
  rcases List.mem_append.mp hc with hc | hc
  · exact ⟨_, _, _, (lists_entry h).prepared c hc, covers_entry fs s,
      (s.program_has_entry comments).1⟩
  · obtain ⟨before, d, after, hsplit, hc⟩ := Script.mem_callSitesFrom.mp hc
    have hd : d ∈ fs.map Parts.definition := by
      rw [← h.definitions_eq, hsplit]
      exact List.mem_append_right _ List.mem_cons_self
    obtain ⟨f, hf, rfl⟩ := List.mem_map.mp hd
    have hentry := h.lookup_entries hsplit
    exact ⟨_, _, _, (lists_bodyCode h hf _).prepared c hc, covers_bodyCode hf hentry,
      (has_function h comments hf hentry).2.1⟩

/-- Every call of a program is at a call site, or is the first call. -/
theorem exists_callSite (h : Clean tree statements fs s) {comments : Bool} {target : Int}
    (hi : (s.program comments).code[address]? = some i) (hcall : i.operation = .call target) :
    (∃ c ∈ s.callSites, c.address = address) ∨
      address = (s.entry.code s.startScope).length := by
  have hlt : address < s.code.length := by
    rw [← s.size_program comments]
    exact (Array.getElem?_eq_some_iff.mp hi).1
  obtain ⟨hentry, -, j, hj, hhalt⟩ := s.program_has_entry comments
  -- the instruction is the one of a draft
  have hfind {start k : Nat} {ds : List Draft} {cs : List CallSite}
      (hhas : (s.program comments).Has s.entries start ds) (hlists : Lists (arityOf s) start ds cs)
      (hk : k < ds.length) (haddress : address = start + k) :
      ∃ c ∈ cs, c.address = address := by
    obtain ⟨i', hi', hoperation⟩ := hhas k _ (List.getElem?_eq_getElem hk)
    rw [← haddress, hi, Option.some.injEq] at hi'
    subst hi'
    rw [hcall] at hoperation
    rw [haddress]
    exact hlists.complete k _ (List.getElem?_eq_getElem hk) ⟨_, _, _, hoperation.symm⟩
  rcases Nat.lt_or_ge address s.entryCode.length with hout | hin
  · rw [length_entryCode] at hout
    by_cases hlast : address < (s.entry.code s.startScope).length
    · obtain ⟨c, hc, haddress⟩ := hfind hentry (lists_entry h) hlast (Nat.zero_add _).symm
      exact .inl ⟨c, List.mem_append_left _ hc, haddress⟩
    · refine .inr (Nat.le_antisymm ?_ (Nat.le_of_not_lt hlast))
      by_contra hne
      obtain rfl : address = Simulation.haltAddress s := by
        rw [Simulation.haltAddress]
        omega
      rw [hi, Option.some.injEq] at hj
      rw [hj, hhalt] at hcall
      cases hcall
  · obtain ⟨f, hf, entry, hlookup, hle, hlt'⟩ := h.exists_inFunction hin hlt
    obtain ⟨⟨j₁, hj₁, henter⟩, hbody, j₂, hj₂, hreturn⟩ := has_function h comments hf hlookup
    rw [length_code] at hlt'
    by_cases hfirst : address = entry
    · rw [← hfirst, hi, Option.some.injEq] at hj₁
      rw [hj₁, henter] at hcall
      cases hcall
    obtain ⟨k, rfl⟩ : ∃ k, address = entry + 1 + k := ⟨address - entry - 1, by omega⟩
    by_cases hlast : k = (bodyCode s f).length
    · rw [← hlast, hi, Option.some.injEq] at hj₂
      rw [hj₂, hreturn] at hcall
      cases hcall
    obtain ⟨c, hc, haddress⟩ := hfind hbody (lists_bodyCode h hf _) (k := k) (by omega) rfl
    exact .inl ⟨c, mem_callSites_of_body h hf hlookup hc, haddress⟩

end Discipline

end StackLang
