import StackLang.Proofs.Renaming.Code

/-!
# Renaming does not change the code

Names only tell which variable or which function is meant. A renaming that keeps different names
different changes neither an operation of the code nor the class of an error. Variables and
functions are renamed independently of each other, so it does not matter either whether a variable
and a function share a name.
-/

namespace StackLang

open Draft (Renames)

variable (ρ : Renaming)

/-! ## Functions -/

/-- A definition with its variables and functions renamed. -/
def Definition.renamed (d : Definition) : Definition :=
  { name := ρ.ofFunction d.name
    signature := d.signature.renamed ρ
    written := d.written.renamed ρ
    body := d.body.renamed ρ }

/-- A fate with its variables and functions renamed. -/
def Fate.renamed : Fate → Fate
  | .defined d => .defined (d.renamed ρ)
  | .incomplete location => .incomplete location
  | .repeated name location => .repeated (ρ.ofFunction name) location

namespace Definition

theorem scope_renamed (σ : Scope) (d : Definition) :
    (d.renamed ρ).scope (σ.renamed ρ) = (d.scope σ).renamed ρ :=
  σ.enter_renamed ρ d.signature d.written.parameters

theorem renames_code (σ : Scope) (d : Definition) :
    Renames ρ (d.code σ) ((d.renamed ρ).code (σ.renamed ρ)) := by
  have hbody := d.body.renames_code ρ (d.scope σ)
  have hparameters : (d.renamed ρ).written.parameters.length = d.written.parameters.length :=
    List.length_map _
  rw [code, code, scope_renamed, hparameters]
  exact congrArg (_ :: ·) (hbody.append rfl)

theorem repeatedFrom_renamed (seen : List (Option String)) (ps : List Parameter) :
    Parameter.repeatedFrom (seen.map (Option.map ρ.ofVariable)) (ps.map (Parameter.renamed ρ)) =
      (Parameter.repeatedFrom seen ps).map (Parameter.renamed ρ) := by
  induction ps generalizing seen with
  | nil => rfl
  | cons p ps ih =>
    have hname : (p.renamed ρ).name = p.name.map ρ.ofVariable := rfl
    rw [List.map_cons, Parameter.repeatedFrom, Parameter.repeatedFrom, hname,
      contains_map_of_injective ρ.map_ofVariable_injective, ← List.map_cons, ih, ih]
    split <;> rfl

theorem alike_findings (σ : Scope) (d : Definition) :
    Finding.Alike (d.findings σ) ((d.renamed ρ).findings (σ.renamed ρ)) := by
  have hrepeated : Parameter.repeatedFrom [] (d.renamed ρ).written.parameters =
      (Parameter.repeatedFrom [] d.written.parameters).map (Parameter.renamed ρ) :=
    repeatedFrom_renamed ρ [] d.written.parameters
  rw [findings, findings, hrepeated, scope_renamed]
  refine Finding.Alike.append ?_ (d.body.alike_findings ρ (d.scope σ))
  rw [Finding.Alike, List.map_map, List.map_map, List.map_map]
  rfl

end Definition

theorem Fate.alike_findings (σ : Scope) (fate : Fate) :
    Finding.Alike (fate.findings σ) ((fate.renamed ρ).findings (σ.renamed ρ)) := by
  cases fate with
  | defined d => exact d.alike_findings ρ σ
  | incomplete location => rfl
  | repeated name location => rfl

namespace Script

theorem signatures_renamed (s : Script) :
    (s.renamed ρ).signatures = s.signatures.map (Signature.renamed ρ) := by
  have hmap : (s.renamed ρ).functions.filterMap Function.signature? =
      (s.functions.filterMap Function.signature?).map (Signature.renamed ρ) := by
    rw [renamed, List.filterMap_map, List.map_filterMap]
    refine List.filterMap_congr fun f _ => ?_
    simp only [Function.comp_apply, Function.signature?, Function.renamed, Option.map_map,
      List.length_map]
    rfl
  rw [signatures, signatures, hmap]
  exact eraseDupsBy_map (fun f g => beq_of_injective ρ.ofFunction_injective f.name g.name) _

theorem startScope_renamed (s : Script) : (s.renamed ρ).startScope = s.startScope.renamed ρ := by
  have hglobals : (s.renamed ρ).globals = s.globals.map ρ.ofVariable := by
    rw [globals, globals, ← eraseDups_map_of_injective ρ.ofVariable_injective, renamed,
      List.map_map, List.map_map]
    rfl
  rw [startScope, startScope, signatures_renamed, hglobals]
  rfl

theorem functionScope_renamed (s : Script) :
    (s.renamed ρ).functionScope = s.functionScope.renamed ρ := by
  rw [functionScope, functionScope, startScope_renamed]
  exact Stmt.scopeAfter_renamed ρ _ _

theorem fatesFrom_renamed (signatures : List Signature) (seen : List String)
    (fs : List Function) :
    fatesFrom (signatures.map (Signature.renamed ρ)) (seen.map ρ.ofFunction)
        (fs.map (Function.renamed ρ)) =
      (fatesFrom signatures seen fs).map (Fate.renamed ρ) := by
  induction fs generalizing seen with
  | nil => rfl
  | cons f fs ih =>
    obtain ⟨name, location, returnType, parameters, locals, body⟩ := f
    cases name with
    | none => cases body <;> exact congrArg (Fate.incomplete location :: ·) (ih seen)
    | some name =>
      cases body with
      | none => exact congrArg (Fate.incomplete location :: ·) (ih seen)
      | some body =>
        have hfind : (signatures.map (Signature.renamed ρ)).find? (·.name = ρ.ofFunction name) =
            (signatures.find? (·.name = name)).map (Signature.renamed ρ) := by
          rw [List.find?_map]
          congr 2
          funext f
          simp [Signature.renamed, ρ.ofFunction_injective.eq_iff]
        have hrest := ih (name :: seen)
        rw [List.map_cons] at hrest
        simp only [List.map_cons, Function.renamed, Option.map_some, fatesFrom,
          contains_map_of_injective ρ.ofFunction_injective, hfind, ih seen, hrest, List.length_map]
        split
        · rfl
        · cases signatures.find? (·.name = name) <;> rfl

theorem fates_renamed (s : Script) : (s.renamed ρ).fates = s.fates.map (Fate.renamed ρ) := by
  rw [fates, fates, signatures_renamed]
  exact fatesFrom_renamed ρ _ [] _

theorem definitions_renamed (s : Script) :
    (s.renamed ρ).definitions = s.definitions.map (Definition.renamed ρ) := by
  rw [definitions, definitions, fates_renamed, List.filterMap_map, List.map_filterMap]
  refine List.filterMap_congr fun fate _ => ?_
  cases fate <;> rfl

theorem repeatedFrom_renamed (seen : List String) (ds : List (String × Option Location)) :
    repeatedFrom (seen.map ρ.ofVariable) (ds.map fun d => (ρ.ofVariable d.1, d.2)) =
      (repeatedFrom seen ds).map fun d => (ρ.ofVariable d.1, d.2) := by
  induction ds generalizing seen with
  | nil => rfl
  | cons d ds ih =>
    have hrest := ih (d.1 :: seen)
    rw [List.map_cons] at hrest
    simp only [List.map_cons, repeatedFrom, contains_map_of_injective ρ.ofVariable_injective,
      ih seen, hrest]
    split <;> rfl

/-- In a renamed script the same is found in the same order. -/
theorem alike_findings (s : Script) : Finding.Alike s.findings (s.renamed ρ).findings := by
  have hentry : Finding.Alike s.entryFindings (s.renamed ρ).entryFindings := by
    have hrepeated : repeatedFrom [] (s.renamed ρ).declared =
        (repeatedFrom [] s.declared).map fun d => (ρ.ofVariable d.1, d.2) :=
      repeatedFrom_renamed ρ [] s.declared
    rw [entryFindings, entryFindings, hrepeated, startScope_renamed]
    refine Finding.Alike.append ?_ (s.entry.alike_findings ρ s.startScope)
    rw [Finding.Alike, List.map_map, List.map_map, List.map_map]
    rfl
  rw [findings, findings, functionScope_renamed, fates_renamed, List.flatMap_map]
  refine hentry.append ?_
  rw [Finding.Alike, List.map_flatMap, List.map_flatMap]
  exact congrArg s.fates.flatMap (funext fun fate => fate.alike_findings ρ s.functionScope)

theorem renames_entryCode (s : Script) : Renames ρ s.entryCode (s.renamed ρ).entryCode := by
  rw [entryCode, entryCode, startScope_renamed]
  refine (s.entry.renames_code ρ s.startScope).append ?_
  simp only [Renames, List.map_cons, Draft.renamed, Draft.Action.renamed, ρ.entry_fixed]
  rfl

end Script

/-! ## Programs -/

/-- The entries of functions under their new names. -/
def Renaming.entries (es : List (String × Nat)) : List (String × Nat) :=
  es.map fun e => (ρ.ofFunction e.1, e.2)

/-- An instruction with its label renamed. -/
def Instruction.renamed (i : Instruction) : Instruction :=
  { i with label := i.label.map ρ.ofFunction }

/-- A program with its functions renamed. -/
def Program.renamed (p : Program) : Program :=
  { p with code := p.code.map (Instruction.renamed ρ), functions := ρ.entries p.functions }

theorem Draft.Action.operation_renamed (entries : List (String × Nat)) (address : Nat)
    (action : Action) :
    (action.renamed ρ).operation (ρ.entries entries) address =
      action.operation entries address := by
  cases action with
  | call callee missing =>
    simp only [renamed, operation, Renaming.entries,
      lookup_map_of_injective ρ.ofFunction_injective]
  | _ => rfl

variable {ρ} in
/-- Renamed code is linked to the same operations. -/
theorem Draft.Renames.link_eq {ds es : List Draft} (h : Renames ρ ds es)
    (entries : List (String × Nat)) (address : Nat) :
    link false (ρ.entries entries) address es =
      (link false entries address ds).map (Instruction.renamed ρ) := by
  rw [← link_uncommented, h]
  clear h
  induction ds generalizing address with
  | nil => rfl
  | cons d ds ih =>
    rw [List.map_cons, link, link, List.map_cons, ih, Draft.renamed, Action.operation_renamed]
    rfl

namespace Script

theorem entriesFrom_renamed (σ : Scope) (address : Nat) (ds : List Definition) :
    entriesFrom (σ.renamed ρ) address (ds.map (Definition.renamed ρ)) =
      ρ.entries (entriesFrom σ address ds) := by
  induction ds generalizing address with
  | nil => rfl
  | cons d ds ih =>
    rw [List.map_cons, entriesFrom, entriesFrom, (d.renames_code ρ σ).length_eq, ih]
    rfl

theorem renames_code (s : Script) : Renames ρ s.code (s.renamed ρ).code := by
  rw [code, code, functionScope_renamed, definitions_renamed, List.flatMap_map]
  refine (s.renames_entryCode ρ).append ?_
  rw [Renames, List.map_flatMap, List.map_flatMap]
  exact congrArg s.definitions.flatMap (funext fun d => d.renames_code ρ s.functionScope)

/-- The program of a renamed script is the renamed program. -/
theorem program_renamed (s : Script) :
    (s.renamed ρ).program false = (s.program false).renamed ρ := by
  have hentries : (s.renamed ρ).entries = ρ.entries s.entries := by
    rw [entries, entries, functionScope_renamed, definitions_renamed,
      (s.renames_entryCode ρ).length_eq, entriesFrom_renamed]
  have hglobals : (s.renamed ρ).functionScope.globals.length = s.functionScope.globals.length := by
    rw [functionScope_renamed, Scope.renamed, List.length_map]
  rw [program, program, hentries, (s.renames_code ρ).link_eq, hglobals, Program.renamed,
    List.map_toArray]

theorem breakdown?_renamed (s : Script) : (s.renamed ρ).breakdown? = s.breakdown? := by
  have hcategory (fs : List Finding) : fs.findSome? Finding.breakdown? =
      (fs.map Finding.category).findSome? Sum.getLeft? := by
    rw [List.findSome?_map]
    congr 1
    funext f
    cases f <;> rfl
  rw [breakdown?, breakdown?, hcategory, hcategory, s.alike_findings ρ]

theorem category_causes_renamed (s : Script) :
    (s.renamed ρ).causes.map Cause.category = s.causes.map Cause.category := by
  have hcategory (fs : List Finding) : (fs.filterMap Finding.cause?).map Cause.category =
      (fs.map Finding.category).filterMap Sum.getRight? := by
    rw [List.map_filterMap, List.filterMap_map]
    refine List.filterMap_congr fun f _ => ?_
    cases f <;> rfl
  rw [causes, causes, hcategory, hcategory, s.alike_findings ρ]

end Script

/-! ## Parsed trees -/

namespace Grammar

open StackLang.Tree (Kind)

mutual

theorem Factor.kind_ne_function (f : Factor) : f.tree.kind ≠ .function := by
  cases f with
  | parenthesised left inner right =>
    rw [Factor.tree]
    exact inner.kind_ne_function
  | negative sign operand => exact fun h => Kind.noConfusion h
  | number digits => exact fun h => Kind.noConfusion h
  | name token => exact fun h => Kind.noConfusion h
  | call name left arguments right => exact fun h => Kind.noConfusion h

theorem Term.kind_ne_function (t : Term) : t.tree.kind ≠ .function := by
  cases t with
  | mk first others =>
    rw [Term.tree]
    exact others.kind_treeFrom_ne_function first.kind_ne_function

theorem Factors.kind_treeFrom_ne_function {left : Tree} (hleft : left.kind ≠ .function)
    (fs : Factors) : (fs.treeFrom left).kind ≠ .function := by
  cases fs with
  | nil =>
    rw [Factors.treeFrom]
    exact hleft
  | cons operator next others =>
    rw [Factors.treeFrom]
    exact others.kind_treeFrom_ne_function (fun h => Kind.noConfusion h)

theorem Expression.kind_ne_function (e : Expression) : e.tree.kind ≠ .function := by
  cases e with
  | mk first others =>
    rw [Expression.tree]
    exact others.kind_treeFrom_ne_function first.kind_ne_function

theorem Terms.kind_treeFrom_ne_function {left : Tree} (hleft : left.kind ≠ .function)
    (ts : Terms) : (ts.treeFrom left).kind ≠ .function := by
  cases ts with
  | nil =>
    rw [Terms.treeFrom]
    exact hleft
  | cons operator next others =>
    rw [Terms.treeFrom]
    exact others.kind_treeFrom_ne_function (fun h => Kind.noConfusion h)

end

theorem Parameters.kind_eq (ps : Parameters) : ∀ p ∈ ps.trees, p.kind = .parameter := by
  cases ps with
  | none => simp [Parameters.trees]
  | some first others =>
    rw [Parameters.trees]
    refine List.forall_mem_cons.mpr ⟨rfl, fun p hp => ?_⟩
    obtain ⟨next, -, rfl⟩ := List.mem_map.mp hp
    rfl

/-- A function node of the grammar lists parameters. -/
theorem Statement.listsParameters (s : Statement) (hkind : s.tree.kind = .function) :
    ∀ list ∈ s.tree.first? .parameterList, ∀ p ∈ list.children, p.kind = .parameter := by
  cases s with
  | function word name left parameters right arrow type body =>
    intro list hlist
    rw [Statement.tree] at hlist
    obtain rfl := Option.some.inj hlist
    exact parameters.kind_eq
  | expression value =>
    rw [Statement.tree] at hkind
    exact absurd hkind value.kind_ne_function
  | declaration => cases hkind
  | conditional => cases hkind
  | loop => cases hkind
  | giveBack => cases hkind
  | assignment => cases hkind

theorem Statements.listsParameters (ss : Statements) (t : Tree) (ht : t ∈ ss.trees)
    (hkind : t.kind = .function) :
    ∀ list ∈ t.first? .parameterList, ∀ p ∈ list.children, p.kind = .parameter := by
  cases ss with
  | nil => simp [Statements.trees] at ht
  | cons first others =>
    rw [Statements.trees] at ht
    rcases List.mem_cons.mp ht with rfl | ht
    · exact first.listsParameters hkind
    · exact others.listsParameters t ht hkind
termination_by sizeOf ss

/-- The functions of a parsed tree list parameters. -/
theorem listsParameters_of_program {file : String} {ts : List Token} {t : Tree}
    (h : Parser.program file ts = .ok t) : t.ListsParameters := by
  obtain ⟨d, -, rfl⟩ := exists_derivation_of_program h
  intro f hf
  obtain ⟨hmem, hkind⟩ := List.mem_filter.mp hf
  exact d.listsParameters f hmem (by simpa using hkind)

end Grammar

namespace Generation

/-- Renaming the variables and the functions of a parsed tree changes its program in the names of
the functions only, and the classes of its errors not at all: either both trees break down in the
same way, or every generation from the renamed tree comes to the renamed program, comments apart,
and keeps errors of the same classes in the same order. -/
theorem renaming_irrelevant {file : String} {ts : List Token} {tree : Tree}
    (h : Parser.program file ts = .ok tree) (ρ : Renaming) :
    (∃ b, ∀ options lines, (ofTree options lines tree).result = .error b ∧
      (ofTree options lines (tree.renamed ρ)).result = .error b) ∨
    ∃ program causes causes', causes'.map Cause.category = causes.map Cause.category ∧
      ∀ options lines,
        (ofTree options lines tree).Yields options.limit program causes ∧
        (ofTree options lines (tree.renamed ρ)).Yields options.limit (program.renamed ρ)
          causes' := by
  have hkind : tree.kind = .program := by
    obtain ⟨d, -, rfl⟩ := Grammar.exists_derivation_of_program h
    rfl
  obtain ⟨s, hs⟩ : ∃ s, Script.ofTree? tree = some s := ⟨_, if_pos hkind⟩
  have hrenamed : Script.ofTree? (tree.renamed ρ) = some (s.renamed ρ) := by
    rw [Script.ofTree?_renamed ρ (Grammar.listsParameters_of_program h), hs, Option.map_some]
  simp only [ofTree, hs, hrenamed]
  cases hbreakdown : s.breakdown? with
  | some b =>
    refine .inl ⟨b, fun options lines => ⟨?_, ?_⟩⟩
    · exact result_ofScript_of_breakdown? hbreakdown options lines
    · exact result_ofScript_of_breakdown? ((s.breakdown?_renamed ρ).trans hbreakdown) options lines
  | none =>
    refine .inr ⟨s.program false, s.causes, (s.renamed ρ).causes, s.category_causes_renamed ρ,
      fun options lines => ⟨yields_ofScript hbreakdown options lines, ?_⟩⟩
    rw [← s.program_renamed ρ]
    exact yields_ofScript ((s.breakdown?_renamed ρ).trans hbreakdown) options lines

/-- A function and a variable exchange their names with others, after which they share one. -/
def exchange : Renaming where
  ofVariable := Equiv.swap "x" "f"
  ofFunction := Equiv.swap "g" "f"
  ofVariable_injective := (Equiv.swap "x" "f").injective
  ofFunction_injective := (Equiv.swap "g" "f").injective
  entry_fixed := by decide
  print_fixed := by decide

/-- A call of a function that reads its parameter and a variable that is not there. -/
def exchangeable : String :=
  "fn g(x: int) -> int \x7b return x + y \x7d fn main() -> int \x7b return g(1) \x7d"

theorem renaming_irrelevant_exchange :
    ∃ ts tree, Source.tokens "exchange" exchangeable = .ok ts ∧
      Parser.program "exchange" ts = .ok tree ∧ tree.renamed exchange ≠ tree ∧
      ((∃ b, ∀ options lines, (ofTree options lines tree).result = .error b ∧
        (ofTree options lines (tree.renamed exchange)).result = .error b) ∨
      ∃ program causes causes', causes'.map Cause.category = causes.map Cause.category ∧
        ∀ options lines,
          (ofTree options lines tree).Yields options.limit program causes ∧
          (ofTree options lines (tree.renamed exchange)).Yields options.limit
            (program.renamed exchange) causes') := by
  have hcheck : ((Source.tokens "exchange" exchangeable).toOption.bind fun ts =>
      (Parser.program "exchange" ts).toOption.map fun tree =>
        decide (tree.renamed exchange ≠ tree)) = some true := by
    decide +kernel
  cases hts : Source.tokens "exchange" exchangeable with
  | error d =>
    rw [hts] at hcheck
    cases hcheck
  | ok ts =>
    rw [hts, Except.toOption, Option.bind_some] at hcheck
    cases hprogram : Parser.program "exchange" ts with
    | error r =>
      rw [hprogram] at hcheck
      cases hcheck
    | ok tree =>
      rw [hprogram, Except.toOption, Option.map_some, Option.some.injEq] at hcheck
      exact ⟨ts, tree, rfl, hprogram, of_decide_eq_true hcheck,
        renaming_irrelevant hprogram exchange⟩

end Generation

end StackLang
