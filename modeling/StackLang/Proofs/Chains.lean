import Mathlib.Data.List.Forall2
import Mathlib.Logic.Relation
import StackLang.Proofs.Forms
import StackLang.Proofs.Reports
import StackLang.Proofs.Types

/-!
# Chains of branches

A further branch of a conditional is short for a last arm whose only statement is another
conditional. Writing any chains of a parsed tree in the long form, in part or to their ends, changes
nothing but the word in two comments: the code, the entries of the functions, the number of global
variables and the report stay the same.
-/

namespace StackLang

/-! ## Harmless changes of statements -/

/-- A change of statements that keeps what they declare, their code up to comments, and what is
found in them. -/
structure Stmt.Harmless (change : Stmt → Stmt) : Prop where
  scopeAfter : ∀ σ s, (change s).scopeAfter σ = s.scopeAfter σ
  code : ∀ σ s, ((change s).code σ).map Draft.uncommented = (s.code σ).map Draft.uncommented
  findings : ∀ σ s, (change s).findings σ = s.findings σ

/-- A function with its body changed. -/
def Function.mapBody (change : Stmt → Stmt) (f : Function) : Function :=
  { f with body := f.body.map change }

/-- A definition with its body changed. -/
def Definition.mapBody (change : Stmt → Stmt) (d : Definition) : Definition :=
  { d with written := d.written.mapBody change, body := change d.body }

/-- A fate with the body changed. -/
def Fate.mapBody (change : Stmt → Stmt) : Fate → Fate
  | .defined d => .defined (d.mapBody change)
  | .incomplete location => .incomplete location
  | .repeated name location => .repeated name location

/-- A script with its statements changed. -/
def Script.mapBodies (change : Stmt → Stmt) (s : Script) : Script :=
  { s with entry := change s.entry, functions := s.functions.map (Function.mapBody change) }

namespace Script

section Harmless

variable {change : Stmt → Stmt}

theorem signatures_mapBodies (s : Script) : (s.mapBodies change).signatures = s.signatures := by
  have hmap : (s.mapBodies change).functions.filterMap Function.signature? =
      s.functions.filterMap Function.signature? := by
    rw [mapBodies, List.filterMap_map]
    rfl
  rw [signatures, signatures, hmap]

theorem startScope_mapBodies (s : Script) : (s.mapBodies change).startScope = s.startScope := by
  rw [startScope, startScope, signatures_mapBodies]
  rfl

theorem fatesFrom_mapBody (signatures : List Signature) (seen : List String)
    (fs : List Function) :
    fatesFrom signatures seen (fs.map (Function.mapBody change)) =
      (fatesFrom signatures seen fs).map (Fate.mapBody change) := by
  induction fs generalizing seen with
  | nil => rfl
  | cons f fs ih =>
    obtain ⟨name, location, returnType, parameters, locals, body⟩ := f
    cases name with
    | none => cases body <;> exact congrArg (Fate.incomplete location :: ·) (ih seen)
    | some name =>
      cases body with
      | none => exact congrArg (Fate.incomplete location :: ·) (ih seen)
      | some body =>
        simp only [List.map_cons, Function.mapBody, Option.map_some, fatesFrom, ih]
        split <;> rfl

theorem fates_mapBodies (s : Script) :
    (s.mapBodies change).fates = s.fates.map (Fate.mapBody change) := by
  rw [fates, fates, signatures_mapBodies]
  exact fatesFrom_mapBody _ _ _

theorem definitions_mapBodies (s : Script) :
    (s.mapBodies change).definitions = s.definitions.map (Definition.mapBody change) := by
  rw [definitions, definitions, fates_mapBodies, List.filterMap_map, List.map_filterMap]
  refine List.filterMap_congr fun fate _ => ?_
  cases fate <;> rfl

variable (h : Stmt.Harmless change)

include h

theorem functionScope_mapBodies (s : Script) :
    (s.mapBodies change).functionScope = s.functionScope := by
  rw [functionScope, functionScope, startScope_mapBodies]
  exact h.scopeAfter _ _

theorem findings_mapBodies (s : Script) : (s.mapBodies change).findings = s.findings := by
  have hentry : (s.mapBodies change).entryFindings = s.entryFindings := by
    rw [entryFindings, entryFindings, startScope_mapBodies]
    exact congrArg (_ ++ ·) (h.findings _ _)
  have hfate (σ : Scope) (fate : Fate) : (fate.mapBody change).findings σ = fate.findings σ := by
    cases fate with
    | defined d => exact congrArg (_ ++ ·) (h.findings _ _)
    | incomplete location => rfl
    | repeated name location => rfl
  rw [findings, findings, hentry, functionScope_mapBodies h, fates_mapBodies, List.flatMap_map]
  simp only [hfate]

theorem code_mapBody (σ : Scope) (d : Definition) :
    ((d.mapBody change).code σ).map Draft.uncommented = (d.code σ).map Draft.uncommented := by
  have hbody : ((d.mapBody change).body.code ((d.mapBody change).scope σ)).map
      Draft.uncommented = (d.body.code (d.scope σ)).map Draft.uncommented := h.code _ _
  simp only [Definition.code, List.map_cons, List.map_append, hbody]
  rfl

theorem uncommented_entryCode_mapBodies (s : Script) :
    (s.mapBodies change).entryCode.map Draft.uncommented = s.entryCode.map Draft.uncommented := by
  rw [entryCode, entryCode, startScope_mapBodies, List.map_append, List.map_append]
  exact congrArg (· ++ _) (h.code _ _)

theorem entriesFrom_mapBody (σ : Scope) (address : Nat) (ds : List Definition) :
    entriesFrom σ address (ds.map (Definition.mapBody change)) = entriesFrom σ address ds := by
  induction ds generalizing address with
  | nil => rfl
  | cons d ds ih =>
    have hlength : ((d.mapBody change).code σ).length = (d.code σ).length := by
      simpa using congrArg List.length (code_mapBody h σ d)
    rw [List.map_cons, entriesFrom, entriesFrom, hlength, ih]
    rfl

theorem program_mapBodies (s : Script) :
    (s.mapBodies change).program false = s.program false := by
  have hentries : (s.mapBodies change).entries = s.entries := by
    have hlength : (s.mapBodies change).entryCode.length = s.entryCode.length := by
      simpa using congrArg List.length (uncommented_entryCode_mapBodies h s)
    rw [entries, entries, functionScope_mapBodies h, hlength, definitions_mapBodies,
      entriesFrom_mapBody h]
  have hcode : (s.mapBodies change).code.map Draft.uncommented =
      s.code.map Draft.uncommented := by
    rw [code, code, functionScope_mapBodies h, definitions_mapBodies, List.flatMap_map,
      List.map_append, List.map_append, List.map_flatMap, List.map_flatMap,
      uncommented_entryCode_mapBodies h]
    simp only [code_mapBody h]
  rw [program, program, hentries, ← Draft.link_uncommented, hcode, Draft.link_uncommented,
    functionScope_mapBodies h]

end Harmless

end Script

/-! ## Statements without chains -/

namespace Stmt

/-- One statement and then another, unless the other does nothing. -/
def andThen (first : Stmt) : Stmt → Stmt
  | .skip => first
  | second => .seq first second

/-- A statement in which no branch is marked as one of a chain, and nothing is followed by a
statement that does nothing. -/
def unchained : Stmt → Stmt
  | .seq first second => first.unchained.andThen second.unchained
  | .branch _ condition yes no => .branch false condition yes.unchained no.unchained
  | .loop condition body => .loop condition body.unchained
  | s => s

theorem scopeAfter_andThen (σ : Scope) (first second : Stmt) :
    (first.andThen second).scopeAfter σ = second.scopeAfter (first.scopeAfter σ) := by
  cases second <;> rfl

theorem code_andThen (σ : Scope) (first second : Stmt) :
    (first.andThen second).code σ = first.code σ ++ second.code (first.scopeAfter σ) := by
  cases second with
  | skip => exact (List.append_nil _).symm
  | _ => rfl

theorem findings_andThen (σ : Scope) (first second : Stmt) :
    (first.andThen second).findings σ =
      first.findings σ ++ second.findings (first.scopeAfter σ) := by
  cases second with
  | skip => exact (List.append_nil _).symm
  | _ => rfl

theorem scopeAfter_unchained (σ : Scope) (s : Stmt) :
    s.unchained.scopeAfter σ = s.scopeAfter σ := by
  induction s generalizing σ with
  | seq first second ih ih' => rw [unchained, scopeAfter_andThen, ih, ih', scopeAfter]
  | branch chained condition yes no ih ih' => rw [unchained, scopeAfter, scopeAfter, ih, ih']
  | loop condition body ih => exact ih σ
  | _ => rfl

theorem findings_unchained (σ : Scope) (s : Stmt) : s.unchained.findings σ = s.findings σ := by
  induction s generalizing σ with
  | seq first second ih ih' =>
    rw [unchained, findings_andThen, ih, ih', scopeAfter_unchained, findings]
  | branch chained condition yes no ih ih' =>
    rw [unchained, findings, findings, ih, ih', scopeAfter_unchained]
  | loop condition body ih => rw [unchained, findings, findings, ih]
  | _ => rfl

/-- Jumps depend on the lengths of the arms alone. -/
theorem uncommented_code_unchained (σ : Scope) (s : Stmt) :
    (s.unchained.code σ).map Draft.uncommented = (s.code σ).map Draft.uncommented := by
  induction s generalizing σ with
  | seq first second ih ih' =>
    rw [unchained, code_andThen, code, scopeAfter_unchained, List.map_append, List.map_append, ih,
      ih']
  | branch chained condition yes no ih ih' =>
    have hyes : (yes.unchained.code σ).length = (yes.code σ).length := by
      simpa using congrArg List.length (ih σ)
    have hno : (no.unchained.code (yes.scopeAfter σ)).length =
        (no.code (yes.scopeAfter σ)).length := by
      simpa using congrArg List.length (ih' (yes.scopeAfter σ))
    simp only [unchained, code, branchCode, scopeAfter_unchained, List.map_append, ih, ih', hyes,
      hno]
    rfl
  | loop condition body ih =>
    have hbody : (body.unchained.code σ).length = (body.code σ).length := by
      simpa using congrArg List.length (ih σ)
    simp only [unchained, code, loopCode, List.map_append, ih, hbody]
  | _ => rfl

theorem harmless_unchained : Harmless unchained :=
  ⟨scopeAfter_unchained, uncommented_code_unchained, findings_unchained⟩

end Stmt

/-! ## Trees that mean the same -/

namespace Tree

/-- Two nodes mean the same wherever a parsed tree has one: as values, as statements, and as
functions. -/
structure Similar (t u : Tree) : Prop where
  kind : t.kind = u.kind
  attributes : t.attributes = u.attributes
  location : t.location = u.location
  expr : Expr.ofTree t = Expr.ofTree u
  stmt : (Stmt.ofTree t).unchained = (Stmt.ofTree u).unchained
  declarations : t.declarations = u.declarations
  function : t.kind = .function →
    (Function.ofTree t).mapBody Stmt.unchained = (Function.ofTree u).mapBody Stmt.unchained

/-- Two nodes mean the same, and so do their children one by one unless they are conditionals, whose
children depend on how chains are written. -/
structure Alike (t u : Tree) : Prop extends Similar t u where
  parts : t.kind ≠ .conditional → List.Forall₂ Similar t.children u.children

namespace Similar

theorem refl (t : Tree) : Similar t t := ⟨rfl, rfl, rfl, rfl, rfl, rfl, fun _ => rfl⟩

/-- Blocks that mean the same have the same effect. -/
theorem ofBlock {t u : Tree} (h : Similar t u) (hkind : t.kind = .block) :
    (Stmt.ofBlock t).unchained = (Stmt.ofBlock u).unchained := by
  rw [ofBlock_eq_ofTree hkind, ofBlock_eq_ofTree (h.kind ▸ hkind), h.stmt]

theorem ofTrees {ts us : List Tree} (h : List.Forall₂ Similar ts us) :
    (Stmt.ofTrees ts).unchained = (Stmt.ofTrees us).unchained := by
  induction h with
  | nil => rfl
  | cons h _ ih => simp only [Stmt.ofTrees, Stmt.unchained, h.stmt, ih]

theorem exprs {ts us : List Tree} (h : List.Forall₂ Similar ts us) :
    Expr.ofTrees ts = Expr.ofTrees us := by
  induction h with
  | nil => rfl
  | cons h _ ih => rw [Expr.ofTrees, Expr.ofTrees, h.expr, ih]

theorem declarationsAll {ts us : List Tree} (h : List.Forall₂ Similar ts us) :
    Tree.declarationsAll ts = Tree.declarationsAll us := by
  induction h with
  | nil => rfl
  | cons h _ ih => rw [Tree.declarationsAll, Tree.declarationsAll, h.declarations, ih]

end Similar

theorem Alike.refl (t : Tree) : Alike t t :=
  ⟨.refl t, fun _ => List.forall₂_same.mpr fun c _ => .refl c⟩

/-! ## Chains of alike branches -/

theorem ofArms_similar {ts us : List Tree} {kinds : List Kind} {rest rest' : Stmt}
    (hkinds : ts.map Tree.kind = .condition :: .block :: kinds)
    (h : List.Forall₂ Similar ts us) (hrest : rest.unchained = rest'.unchained)
    (chained chained' : Bool) (location location' : Option Location) :
    (Stmt.ofArms chained location ts rest).unchained =
      (Stmt.ofArms chained' location' us rest').unchained := by
  obtain ⟨condition, block, ts, rfl, -, hblock, -⟩ := kinds_of_map_eq hkinds
  cases h with
  | cons hcondition h =>
    cases h with
    | cons hblocks h =>
      simp only [Stmt.ofArms, Stmt.unchained, hcondition.expr, hblocks.ofBlock hblock, hrest]

theorem ofBranches_alike {ts us : List Tree} {rest rest' : Stmt} (hforms : ∀ t ∈ ts, t.InForm)
    (h : List.Forall₂ Alike ts us) (hrest : rest.unchained = rest'.unchained)
    (location location' : Option Location) :
    (Stmt.ofBranches location ts rest).unchained =
      (Stmt.ofBranches location' us rest').unchained := by
  induction h with
  | nil => exact hrest
  | @cons t u ts us h _ ih =>
    obtain ⟨hform, hothers⟩ := List.forall_mem_cons.mp hforms
    by_cases hkind : t.kind = .elseIf
    · have hchildren := hform.hasForm.children
      have hparts := h.parts (by rw [hkind]; rintro ⟨⟩)
      have hkind' := h.kind ▸ hkind
      obtain ⟨kind, value, attributes, children, place⟩ := t
      obtain ⟨kind', value', attributes', children', place'⟩ := u
      cases hkind
      cases hkind'
      exact ofArms_similar hchildren hparts (ih hothers) _ _ _ _
    · rw [ofBranches_cons_of_ne hkind, ofBranches_cons_of_ne (h.kind ▸ hkind)]
      exact ih hothers

theorem ofElse_alike {ts us : List Tree} (hforms : ∀ t ∈ ts, t.InForm)
    (h : List.Forall₂ Alike ts us) :
    (Stmt.ofElse ts).unchained = (Stmt.ofElse us).unchained := by
  induction h with
  | nil => rfl
  | @cons t u ts us h _ ih =>
    obtain ⟨hform, hothers⟩ := List.forall_mem_cons.mp hforms
    by_cases hkind : t.kind = .otherwise
    · have hchildren := hform.hasForm.children
      have hparts := h.parts (by rw [hkind]; rintro ⟨⟩)
      have hkind' := h.kind ▸ hkind
      obtain ⟨kind, value, attributes, children, place⟩ := t
      obtain ⟨kind', value', attributes', children', place'⟩ := u
      cases hkind
      cases hkind'
      obtain ⟨block, rest, rfl, hblock, -⟩ := List.map_eq_cons_iff.mp hchildren
      cases hparts with
      | cons hblocks _ => exact hblocks.ofBlock hblock
    · rw [ofElse_cons_of_ne hkind, ofElse_cons_of_ne (h.kind ▸ hkind)]
      exact ih hothers

/-! ## Nodes with alike children -/

theorem Similar.parameters {ts us : List Tree} (h : List.Forall₂ Similar ts us) :
    ts.map Parameter.ofTree = us.map Parameter.ofTree := by
  induction h with
  | nil => rfl
  | cons h _ ih =>
    rw [List.map_cons, List.map_cons, ih, Parameter.ofTree, Parameter.ofTree, get?, get?,
      h.attributes, h.location]

section Congruence

variable {kind : Kind} {value : Option String} {attributes : Attributes}
  {location : Option Location} {ts us : List Tree}

theorem expr_congr (h : List.Forall₂ Similar ts us) :
    Expr.ofTree ⟨kind, value, attributes, ts, location⟩ =
      Expr.ofTree ⟨kind, value, attributes, us, location⟩ := by
  have hvalues := Similar.exprs h
  cases kind <;> simp only [Expr.ofTree, hvalues]

theorem head?_congr (h : List.Forall₂ Similar ts us) :
    ts.head?.map Expr.ofTree = us.head?.map Expr.ofTree := by
  cases h with
  | nil => rfl
  | cons h _ => exact congrArg some h.expr

theorem function_congr (hkinds : ts.map Tree.kind = [.parameterList, .block])
    (h : List.Forall₂ Alike ts us) :
    (Function.ofTree ⟨kind, value, attributes, ts, location⟩).mapBody Stmt.unchained =
      (Function.ofTree ⟨kind, value, attributes, us, location⟩).mapBody Stmt.unchained := by
  obtain ⟨list, rest, rfl, hlist, hrest⟩ := List.map_eq_cons_iff.mp hkinds
  obtain ⟨block, rest, rfl, hblock, hrest⟩ := List.map_eq_cons_iff.mp hrest
  cases List.map_eq_nil_iff.mp hrest
  obtain _ | ⟨hlists, _ | ⟨hblocks, _ | _⟩⟩ := h
  have hparameters := Similar.parameters (hlists.parts (by rw [hlist]; rintro ⟨⟩))
  have hbody := hblocks.ofBlock hblock
  have hlist' := hlists.kind ▸ hlist
  have hblock' := hblocks.kind ▸ hblock
  simp [Function.mapBody, Function.ofTree, first?, get?, hlist, hblock, hlist', hblock',
    hparameters, hbody, hblocks.declarations]

theorem stmt_congr (hform : HasForm ⟨kind, value, attributes, ts, location⟩)
    (hforms : ∀ t ∈ ts, t.InForm) (h : List.Forall₂ Alike ts us) :
    (Stmt.ofTree ⟨kind, value, attributes, ts, location⟩).unchained =
      (Stmt.ofTree ⟨kind, value, attributes, us, location⟩).unchained := by
  have hsimilar : List.Forall₂ Similar ts us := h.imp fun _ _ h => h.toSimilar
  have hhead := head?_congr hsimilar
  cases kind with
  | variableDeclaration => simp only [Stmt.ofTree, hhead]
  | assignment =>
    cases hsimilar with
    | nil => rfl
    | cons hvalue _ => simp only [Stmt.ofTree, hvalue.expr]
  | conditional =>
    obtain ⟨n, hkinds | hkinds⟩ := hform.children
    all_goals
      exact ofArms_similar hkinds hsimilar
        (ofBranches_alike hforms h (ofElse_alike hforms h) _ _) _ _ _ _
  | loop =>
    obtain ⟨condition, block, rest, rfl, -, hblock, -⟩ := kinds_of_map_eq hform.children
    obtain _ | ⟨hconditions, _ | ⟨hblocks, _⟩⟩ := hsimilar
    simp only [Stmt.ofTree, Stmt.unchained, hconditions.expr, hblocks.ofBlock hblock]
  | giveBack => simp only [Stmt.ofTree, hhead]
  | block => exact Similar.ofTrees hsimilar
  | function | program | parameterList | parameter | elseIf | otherwise => rfl
  | condition | expression | term | negate | functionCall | number | identifier =>
    exact congrArg (fun e => (Stmt.discard e).unchained) (expr_congr hsimilar)

/-- Nodes that differ in alike children are alike. -/
theorem alike_mk (hform : HasForm ⟨kind, value, attributes, ts, location⟩)
    (hforms : ∀ t ∈ ts, t.InForm) (h : List.Forall₂ Alike ts us) :
    Alike ⟨kind, value, attributes, ts, location⟩ ⟨kind, value, attributes, us, location⟩ where
  kind := rfl
  attributes := rfl
  location := rfl
  expr := expr_congr (h.imp fun _ _ h => h.toSimilar)
  stmt := stmt_congr hform hforms h
  declarations := by
    rw [declarations, declarations, Similar.declarationsAll (h.imp fun _ _ h => h.toSimilar)]
  function := by
    rintro ⟨⟩
    exact function_congr hform.children h
  parts _ := h.imp fun _ _ h => h.toSimilar

end Congruence

/-! ## Writing chains in the long form -/

/-- A last arm whose only statement is a conditional with these children. -/
def nestedArm (place place' place'' : Option Location) (children : List Tree) : Tree :=
  let inner : Tree := { kind := .conditional, children, location := place'' }
  let block : Tree := { kind := .block, children := [inner], location := place' }
  { kind := .otherwise, children := [block], location := place }

/-- Somewhere in a tree the first further branch of a conditional, with everything after it, becomes
the only statement of its last arm. Where the new nodes stand is left open. -/
inductive Unchains : Tree → Tree → Prop
  | here (value : Option String) (attributes : Attributes) (location : Option Location)
      (condition block branch : Tree) (rest : List Tree) (place place' place'' : Option Location)
      (hbranch : branch.kind = .elseIf) :
      Unchains ⟨.conditional, value, attributes, condition :: block :: branch :: rest, location⟩
        ⟨.conditional, value, attributes,
          [condition, block, nestedArm place place' place'' (branch.children ++ rest)], location⟩
  | inside (kind : Kind) (value : Option String) (attributes : Attributes)
      (location : Option Location) (before : List Tree) {t u : Tree} (after : List Tree)
      (h : Unchains t u) :
      Unchains ⟨kind, value, attributes, before ++ t :: after, location⟩
        ⟨kind, value, attributes, before ++ u :: after, location⟩

theorem Unchains.kind_eq {t u : Tree} (h : Unchains t u) : u.kind = t.kind := by
  cases h <;> rfl

/-- What follows the first further branch is again the rest of a chain. -/
theorem kinds_of_chain {condition block branch : Tree} {rest : List Tree}
    (h : Kind.Holds .conditional ((condition :: block :: branch :: rest).map Tree.kind))
    (hbranch : branch.kind = .elseIf) :
    condition.kind = .condition ∧ block.kind = .block ∧
      Kind.Holds .conditional (.condition :: .block :: rest.map Tree.kind) := by
  obtain ⟨n, hkinds | hkinds⟩ := h
  all_goals
    obtain ⟨hcondition, hkinds⟩ := List.cons.inj hkinds
    obtain ⟨hblock, hkinds⟩ := List.cons.inj hkinds
    rw [List.map_cons, hbranch] at hkinds
    cases n with
    | zero => cases hkinds
    | succ n => ?_
  · exact ⟨hcondition, hblock, n, .inl (congrArg (_ :: _ :: ·) (List.cons.inj hkinds).2)⟩
  · exact ⟨hcondition, hblock, n, .inr (congrArg (_ :: _ :: ·) (List.cons.inj hkinds).2)⟩

/-- A chain written in the long form has the form of its kind. -/
theorem Unchains.inForm {t u : Tree} (h : Unchains t u) (hform : t.InForm) : u.InForm := by
  induction h with
  | here value attributes location condition block branch rest place place' place'' hbranch =>
    obtain ⟨hnode, hforms⟩ := inForm_mk.mp hform
    simp only [List.forall_mem_cons] at hforms
    obtain ⟨hcondition, hblock, hchosen, hrest⟩ := hforms
    obtain ⟨hckind, hbkind, hkinds⟩ := kinds_of_chain hnode.children hbranch
    have hparts : branch.children.map Tree.kind = [.condition, .block] := by
      have hchildren := hchosen.hasForm.children
      rw [hbranch] at hchildren
      exact hchildren
    have hinner : (nestedArm place place' place'' (branch.children ++ rest)).InForm := by
      refine inForm_mk.mpr ⟨⟨rfl, rfl, rfl⟩, List.forall_mem_singleton.mpr ?_⟩
      refine inForm_mk.mpr ⟨⟨rfl, rfl, ?_⟩, List.forall_mem_singleton.mpr ?_⟩
      · exact List.forall_mem_singleton.mpr rfl
      · refine inForm_mk.mpr ⟨⟨rfl, rfl, ?_⟩, ?_⟩
        · rw [List.map_append, hparts]
          exact hkinds
        · intro c hc
          rcases List.mem_append.mp hc with hc | hc
          · obtain ⟨kind, value, attributes, children, location⟩ := branch
            exact (inForm_mk.mp hchosen).2 c hc
          · exact hrest c hc
    refine inForm_mk.mpr ⟨⟨hnode.text, hnode.attributes, 0, .inr ?_⟩, ?_⟩
    · rw [List.map_cons, List.map_cons, hckind, hbkind]
      rfl
    · simp [hcondition, hblock, hinner]
  | inside kind value attributes location before after h ih =>
    obtain ⟨hnode, hforms⟩ := inForm_mk.mp hform
    refine inForm_mk.mpr ⟨⟨hnode.text, hnode.attributes, ?_⟩, ?_⟩
    · have hchildren := hnode.children
      simp only [List.map_append, List.map_cons, h.kind_eq] at hchildren ⊢
      exact hchildren
    · simp only [List.mem_append, List.mem_cons] at hforms ⊢
      rintro c (hc | rfl | hc)
      · exact hforms c (.inl hc)
      · exact ih (hforms _ (.inr (.inl rfl)))
      · exact hforms c (.inr (.inr hc))

/-- The long form of a chain means the same. -/
theorem alike_of_here {condition block branch : Tree} {rest : List Tree} {value : Option String}
    {attributes : Attributes} {location : Option Location}
    (hform : InForm
      ⟨.conditional, value, attributes, condition :: block :: branch :: rest, location⟩)
    (hbranch : branch.kind = .elseIf) (place place' place'' : Option Location) :
    Alike ⟨.conditional, value, attributes, condition :: block :: branch :: rest, location⟩
      ⟨.conditional, value, attributes,
        [condition, block, nestedArm place place' place'' (branch.children ++ rest)],
        location⟩ := by
  obtain ⟨hnode, hforms⟩ := inForm_mk.mp hform
  simp only [List.forall_mem_cons] at hforms
  obtain ⟨-, -, hchosen, hrest⟩ := hforms
  obtain ⟨hcondition, hblock, -⟩ := kinds_of_chain hnode.children hbranch
  obtain ⟨kind, value', attributes', children, location'⟩ := branch
  cases hbranch
  obtain ⟨condition', block', others, rfl, hcondition', hblock', hothers⟩ :=
    kinds_of_map_eq hchosen.hasForm.children
  cases List.map_eq_nil_iff.mp hothers
  have hsame : (Stmt.ofBranches location rest (Stmt.ofElse rest)).unchained =
      (Stmt.ofBranches place'' rest (Stmt.ofElse rest)).unchained :=
    ofBranches_alike hrest (List.forall₂_same.mpr fun t _ => .refl t) rfl _ _
  refine ⟨⟨rfl, rfl, rfl, rfl, ?_, ?_, by rintro ⟨⟩⟩, fun hkind => absurd rfl hkind⟩
  · have hlong : Stmt.ofTree ⟨.conditional, value, attributes,
        [condition, block, nestedArm place place' place'' (condition' :: block' :: rest)],
        location⟩ = .branch false (Expr.ofTree condition) (Stmt.ofBlock block)
          (.seq (.branch false (Expr.ofTree condition') (Stmt.ofBlock block')
            (Stmt.ofBranches place'' rest (Stmt.ofElse rest))) .skip) := by
      rw [ofTree_conditional hcondition hblock,
        ← ofTree_conditional hcondition' hblock' none [] rest place'']
      rfl
    rw [ofTree_conditional hcondition hblock, ofBranches_elseIf]
    refine Eq.trans ?_ (congrArg Stmt.unchained hlong).symm
    simp only [Stmt.unchained, Stmt.andThen, hsame]
  · simp only [nestedArm, declarations, declarationsAll, List.cons_append, List.nil_append,
      reduceCtorEq, if_false]
    omega

theorem Unchains.alike {t u : Tree} (h : Unchains t u) (hform : t.InForm) : Alike t u := by
  induction h with
  | here value attributes location condition block branch rest place place' place'' hbranch =>
    exact alike_of_here hform hbranch place place' place''
  | inside kind value attributes location before after h ih =>
    obtain ⟨hnode, hforms⟩ := inForm_mk.mp hform
    refine alike_mk hnode hforms (List.rel_append ?_ (.cons (ih ?_) ?_))
    · exact List.forall₂_same.mpr fun c _ => .refl c
    · exact hforms _ (List.mem_append_right _ List.mem_cons_self)
    · exact List.forall₂_same.mpr fun c _ => .refl c

end Tree

/-! ## Programs of alike trees -/

namespace Script

theorem declared_similar {ts us : List Tree} (h : List.Forall₂ Tree.Similar ts us) :
    ts.filterMap declared? = us.filterMap declared? := by
  induction h with
  | nil => rfl
  | @cons t u _ _ h _ ih =>
    have hsame : declared? t = declared? u := by
      rw [declared?, declared?, Tree.get?, Tree.get?, h.kind, h.attributes, h.location]
    rw [List.filterMap_cons, List.filterMap_cons, hsame, ih]

theorem functions_similar {ts us : List Tree} (h : List.Forall₂ Tree.Similar ts us) :
    ((ts.filter (·.kind = .function)).map Function.ofTree).map (Function.mapBody Stmt.unchained) =
      ((us.filter (·.kind = .function)).map Function.ofTree).map
        (Function.mapBody Stmt.unchained) := by
  induction h with
  | nil => rfl
  | @cons t u _ _ h _ ih =>
    by_cases hkind : t.kind = .function
    · rw [List.filter_cons_of_pos (by simpa using hkind),
        List.filter_cons_of_pos (by simpa [← h.kind] using hkind)]
      simp only [List.map_cons, h.function hkind, ih]
    · rw [List.filter_cons_of_neg (by simpa using hkind),
        List.filter_cons_of_neg (by simpa [← h.kind] using hkind), ih]

theorem ofTree?_alike {t u : Tree} (h : t.Alike u) (hkind : t.kind = .program) :
    (ofTree? t).map (mapBodies Stmt.unchained) = (ofTree? u).map (mapBodies Stmt.unchained) := by
  have hparts := h.parts (by rw [hkind]; rintro ⟨⟩)
  have hentry : List.Forall₂ Tree.Similar (t.children.filter (·.kind ≠ .function))
      (u.children.filter (·.kind ≠ .function)) :=
    List.rel_filter (fun _ _ hc => by simp [hc.kind]) hparts
  rw [ofTree?, ofTree?, if_pos hkind, if_pos (h.kind ▸ hkind), Option.map_some, Option.map_some,
    mapBodies, mapBodies, declared_similar hparts, Tree.Similar.ofTrees hentry, Tree.childrenOf,
    Tree.childrenOf, functions_similar hparts]

/-- Writing chains in the long form, as often as one likes, changes no script but in how its
branches are marked. -/
theorem ofTree?_unchains {t u : Tree} (h : Relation.ReflTransGen Tree.Unchains t u)
    (hform : t.InForm) (hkind : t.kind = .program) :
    (ofTree? t).map (mapBodies Stmt.unchained) = (ofTree? u).map (mapBodies Stmt.unchained) := by
  have hinvariant : u.InForm ∧ u.kind = .program ∧ (ofTree? t).map (mapBodies Stmt.unchained) =
      (ofTree? u).map (mapBodies Stmt.unchained) := by
    induction h with
    | refl => exact ⟨hform, hkind, rfl⟩
    | tail _ hstep ih =>
      obtain ⟨hform, hkind, hscript⟩ := ih
      exact ⟨hstep.inForm hform, hstep.kind_eq.trans hkind,
        hscript.trans (ofTree?_alike (hstep.alike hform) hkind)⟩
  exact hinvariant.2.2

end Script

namespace Generation

/-- Scripts with the same findings and the same program, comments apart, come to the same. -/
theorem result_congr {s s' : Script} (hfindings : s.findings = s'.findings)
    (hprogram : s.program false = s'.program false) (options : CompileOptions)
    (lines : List String) :
    (∃ b, (ofScript options lines s).result = .error b ∧
      (ofScript options lines s').result = .error b) ∨
    ∃ p p' report, (ofScript options lines s).result = .ok (p, report) ∧
      (ofScript options lines s').result = .ok (p', report) ∧ p.uncommented = p'.uncommented := by
  have hbreakdown : s.breakdown? = s'.breakdown? := by
    rw [Script.breakdown?, Script.breakdown?, hfindings]
  have hentries : s.entries = s'.entries := congrArg Program.functions hprogram
  cases hnone : s.breakdown? with
  | some b =>
    exact .inl ⟨b, result_ofScript_of_breakdown? hnone options lines,
      result_ofScript_of_breakdown? (hbreakdown ▸ hnone) options lines⟩
  | none =>
    refine .inr ⟨_, s'.program options.comments, _, result_ofScript hnone options lines, ?_, ?_⟩
    · rw [result_ofScript (hbreakdown ▸ hnone) options lines, hfindings, hentries]
    · rw [Script.uncommented_program, Script.uncommented_program, hprogram]

/-- A chain with two further branches and a last arm, with names that mean nothing. -/
def threeway : String :=
  "if(a==1)\x7b\x7delseif(a==2)\x7bvar a:int=3\x7delseif(a==4)\x7bb=5\x7delse\x7bf()\x7d"

end Generation

end StackLang
