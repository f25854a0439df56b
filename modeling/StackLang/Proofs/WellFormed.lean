import StackLang.Proofs.Accepted
import StackLang.Proofs.Simulation.Site

/-!
# Well-formed programs

The rules that a program has to keep, told by its tree alone. The nodes of a tree stand in the order
of the text, a declaration before its initial value; so a use of a variable comes after a
declaration if the declaration is earlier in the text or has the use in its initial value.

Compiling succeeds exactly for the programs that keep the rules.
-/

namespace StackLang

open Meaning (declares? declaredNames entryStatements functionNamed? parameterNames)
open StackLang.Tree

/-! ## Rules -/

/-- The name of the variable that a node reads or assigns. -/
def Tree.uses? (n : Tree) : Option String :=
  match n.kind with
  | .identifier => n.value
  | .assignment => n.get? "name"
  | _ => none

/-- Along nodes in the order of the text, every variable that is used is known anyway or declared by
an earlier node. -/
def UsesKnown (known : String → Prop) (ns : List Tree) : Prop :=
  ∀ before n after, ns = before ++ n :: after → ∀ name, n.uses? = some name →
    known name ∨ name ∈ before.filterMap declares?

/-- A call means a function of the program with as many parameters as the call has arguments, or it
prints its only argument. -/
def CallKnown (tree n : Tree) : Prop :=
  ∃ name, n.get? "name" = some name ∧
    match functionNamed? tree name with
    | some f => n.children.length = (parameterNames f).length
    | none => name = "print" ∧ n.children.length = 1

/-- The rules for a program. -/
structure WellFormed (tree : Tree) : Prop where
  globals : (tree.children.filterMap declares?).Nodup
  functions : ((tree.childrenOf .function).filterMap (·.get? "name")).Nodup
  parameters : ∀ f ∈ tree.childrenOf .function, (parameterNames f).Nodup
  /-- Functions stand at the top level only. -/
  nested : ∀ t ∈ tree.children, ∀ n ∈ walkAll t.children, n.kind ≠ .function
  /-- Nothing is given back outside functions. -/
  returns : ∀ n ∈ walkAll (entryStatements tree), n.kind ≠ .giveBack
  /-- A variable used in a function is a parameter, declared earlier in the function, or declared
  anywhere outside functions. -/
  inside : ∀ f ∈ tree.childrenOf .function,
    UsesKnown (fun name => name ∈ parameterNames f ∨ name ∈ declaredNames (entryStatements tree))
      (walkAll f.children)
  /-- A variable used outside functions is declared anywhere at the top level, or declared earlier
  outside functions. -/
  outside : UsesKnown (· ∈ tree.children.filterMap declares?) (walkAll (entryStatements tree))
  calls : ∀ n ∈ tree.walk, n.kind = .functionCall → CallKnown tree n

/-! ## Uses along the text -/

theorem usesKnown_nil (known : String → Prop) : UsesKnown known [] := by
  intro before n after h
  simp at h

theorem usesKnown_cons {known : String → Prop} {n : Tree} {ns : List Tree} :
    UsesKnown known (n :: ns) ↔
      (∀ name, n.uses? = some name → known name) ∧
        UsesKnown (fun name => known name ∨ declares? n = some name) ns := by
  constructor
  · intro h
    constructor
    · intro name hname
      simpa using h [] n ns rfl name hname
    · intro before k after hns name hname
      have hknown := h (n :: before) k after (by rw [hns, List.cons_append]) name hname
      cases hdeclares : declares? n with
      | none => simpa [hdeclares] using hknown
      | some x =>
        rw [List.filterMap_cons_some hdeclares, List.mem_cons] at hknown
        rcases hknown with hknown | rfl | hmem
        · exact .inl (.inl hknown)
        · exact .inl (.inr rfl)
        · exact .inr hmem
  · rintro ⟨hfirst, hrest⟩ before k after hns name hname
    cases before with
    | nil =>
      obtain ⟨rfl, -⟩ := List.cons.inj hns
      exact .inl (hfirst name hname)
    | cons b before =>
      obtain ⟨rfl, htail⟩ := List.cons.inj hns
      rcases hrest before k after htail name hname with (hknown | hdeclares) | hmem
      · exact .inl hknown
      · rw [List.filterMap_cons_some hdeclares]
        exact .inr List.mem_cons_self
      · refine .inr ?_
        rw [← List.singleton_append, List.filterMap_append]
        exact List.mem_append_right _ hmem

theorem usesKnown_congr {known known' : String → Prop} (h : ∀ name, known name ↔ known' name)
    (ns : List Tree) : UsesKnown known ns ↔ UsesKnown known' ns := by
  obtain rfl : known = known' := funext fun name => propext (h name)
  exact Iff.rfl

/-- Nodes that neither use nor declare a variable do not matter. -/
theorem usesKnown_append_neutral {known : String → Prop} {ks ns : List Tree}
    (h : ∀ k ∈ ks, k.uses? = none ∧ declares? k = none) :
    UsesKnown known (ks ++ ns) ↔ UsesKnown known ns := by
  induction ks with
  | nil => exact Iff.rfl
  | cons k ks ih =>
    obtain ⟨huses, hdeclares⟩ := h k List.mem_cons_self
    rw [List.cons_append, usesKnown_cons]
    simp only [huses, hdeclares, reduceCtorEq, or_false, false_implies, implies_true, true_and]
    exact ih fun j hj => h j (List.mem_cons_of_mem k hj)

/-! ## Names that a scope knows -/

namespace Scope

theorem isSome_resolve? (σ : Scope) (name : String) :
    (σ.resolve? (some name)).isSome ↔
      (σ.locals.lookup (some name)).isSome ∨ name ∈ σ.globals := by
  unfold resolve?
  cases σ.locals.lookup (some name) with
  | some offset => simp
  | none => simp [List.isSome_idxOf?]

/-- After a declaration one more name is known. -/
theorem isSome_resolve?_declare (σ : Scope) (x name : String) :
    ((σ.declare x).resolve? (some name)).isSome ↔
      (σ.resolve? (some name)).isSome ∨ x = name := by
  rw [isSome_resolve?, isSome_resolve?]
  unfold declare
  split
  · by_cases hx : name = x
    · simp [hx]
    · have hne : (some name == some x) = false := by simpa using hx
      simp [List.lookup_cons, hne, Ne.symm hx]
  · split
    · rename_i hmem
      constructor
      · exact .inl
      · rintro (h | rfl)
        · exact h
        · exact .inr (by simpa using hmem)
    · simp only [List.mem_append, List.mem_singleton, or_assoc, eq_comm]

theorem isSome_resolve?_pass (σ : Scope) (n : Tree) (name : String) :
    ((σ.pass n).resolve? (some name)).isSome ↔
      (σ.resolve? (some name)).isSome ∨ declares? n = some name := by
  unfold pass
  cases hdeclares : declares? n with
  | none => simp
  | some x => simp [isSome_resolve?_declare]

@[simp] theorem inside_pass (σ : Scope) (n : Tree) : (σ.pass n).inside = σ.inside := by
  unfold pass declare
  repeat' split
  all_goals simp_all

@[simp] theorem signatures_pass (σ : Scope) (n : Tree) :
    (σ.pass n).signatures = σ.signatures := by
  unfold pass declare
  repeat' split
  all_goals rfl

end Scope

/-! ## Nodes of parsed programs -/

/-- A node that uses a variable says which. -/
def Tree.Named (n : Tree) : Prop :=
  n.kind = .identifier ∨ n.kind = .assignment → ∃ name, n.uses? = some name

theorem Tree.named_of_kind {n : Tree} (hidentifier : n.kind ≠ .identifier)
    (hassignment : n.kind ≠ .assignment) : n.Named :=
  fun h => (h.elim hidentifier hassignment).elim

theorem Tree.named_walk_mk {kind : Kind} {value : Option String} {attributes : Attributes}
    {children : List Tree} {location : Option Location}
    (hnode : Named ⟨kind, value, attributes, children, location⟩)
    (h : ∀ t ∈ children, ∀ n ∈ t.walk, n.Named) :
    ∀ n ∈ walk ⟨kind, value, attributes, children, location⟩, n.Named :=
  forall_mem_walk.mpr ⟨hnode, h⟩

theorem Tree.IsValue.named {t : Tree} (h : t.IsValue) : ∀ n ∈ t.walk, n.Named := by
  induction h with
  | number digits location =>
    exact named_walk_mk (named_of_kind (by simp) (by simp)) (by simp)
  | name name location => exact named_walk_mk (fun _ => ⟨name, rfl⟩) (by simp)
  | negate operand location _ ih =>
    exact named_walk_mk (named_of_kind (by simp) (by simp)) (by simpa using ih)
  | operator kind op left right location _ htakes _ _ ihl ihr =>
    refine named_walk_mk (named_of_kind ?_ ?_) (by simpa using ⟨ihl, ihr⟩)
    · rintro rfl
      cases htakes
    · rintro rfl
      cases htakes
  | call name arguments location _ ih =>
    exact named_walk_mk (named_of_kind (by simp) (by simp)) ih

theorem Tree.IsCondition.named {t : Tree} (h : t.IsCondition) : ∀ n ∈ t.walk, n.Named := by
  cases h with
  | mk op left right location htakes hleft hright =>
    exact named_walk_mk (named_of_kind (by simp) (by simp))
      (by simpa using ⟨hleft.named, hright.named⟩)

theorem Tree.named_plainNode (kind : Kind) (location : Location) {children : List Tree}
    (hidentifier : kind ≠ .identifier) (hassignment : kind ≠ .assignment)
    (h : ∀ t ∈ children, ∀ n ∈ t.walk, n.Named) :
    ∀ n ∈ (Grammar.plainNode kind location children).walk, n.Named :=
  named_walk_mk (named_of_kind hidentifier hassignment) h

theorem Tree.Chain.named {rest : Chain} (hconditions : ∀ c ∈ rest.conditions, c.IsCondition)
    (h : ∀ t ∈ rest.statements, ∀ n ∈ t.walk, n.Named) :
    ∀ t ∈ rest.trees, ∀ n ∈ t.walk, n.Named := by
  induction rest with
  | none => simp [Chain.trees]
  | otherwise location place body =>
    have hblock := named_plainNode .block place (by decide) (by decide) h
    have hnode := named_plainNode .otherwise location (by decide) (by decide)
      (List.forall_mem_singleton.mpr hblock)
    exact List.forall_mem_singleton.mpr hnode
  | elseIf location place condition body rest ih =>
    have hcondition := (hconditions condition List.mem_cons_self).named
    have hblock := named_plainNode .block place (by decide) (by decide)
      fun t ht => h t (List.mem_append_left _ ht)
    have hnode := named_plainNode .elseIf location (by decide) (by decide)
      (List.forall_mem_cons.mpr ⟨hcondition, List.forall_mem_singleton.mpr hblock⟩)
    have hrest := ih (fun c hc => hconditions c (List.mem_cons_of_mem _ hc))
      fun t ht => h t (List.mem_append_right _ ht)
    exact List.forall_mem_cons.mpr ⟨hnode, hrest⟩

/-- All nodes of a statement that use a variable say which. -/
theorem Tree.IsStatement.named {t : Tree} (h : t.IsStatement) : ∀ n ∈ t.walk, n.Named := by
  induction h with
  | function location start place name type parameters body _ ih =>
    have hformals : ∀ t ∈ parameters.map Formal.tree, ∀ n ∈ t.walk, n.Named := by
      rw [List.forall_mem_map]
      intro p _
      exact named_walk_mk (named_of_kind (by simp) (by simp)) (by simp)
    have hlist := named_plainNode .parameterList start (by decide) (by decide) hformals
    have hblock := named_plainNode .block place (by decide) (by decide) ih
    exact named_walk_mk (named_of_kind (by simp) (by simp))
      (List.forall_mem_cons.mpr ⟨hlist, List.forall_mem_singleton.mpr hblock⟩)
  | declaration location name type value hvalue =>
    refine named_walk_mk (named_of_kind (by simp) (by simp)) fun v hv => ?_
    exact (hvalue v (Option.mem_toList.mp hv)).named
  | assignment location name value hvalue =>
    exact named_walk_mk (fun _ => ⟨name, rfl⟩) (List.forall_mem_singleton.mpr hvalue.named)
  | conditional location place condition body rest hcondition _ hconditions _ ihbody ihrest =>
    have hblock := named_plainNode .block place (by decide) (by decide) ihbody
    exact named_plainNode _ location (by decide) (by decide)
      (List.forall_mem_cons.mpr ⟨hcondition.named,
        List.forall_mem_cons.mpr ⟨hblock, Chain.named hconditions ihrest⟩⟩)
  | loop location place condition body hcondition _ ihbody =>
    have hblock := named_plainNode .block place (by decide) (by decide) ihbody
    exact named_plainNode _ location (by decide) (by decide)
      (List.forall_mem_cons.mpr ⟨hcondition.named, List.forall_mem_singleton.mpr hblock⟩)
  | giveBack location value hvalue =>
    exact named_plainNode _ location (by decide) (by decide)
      (List.forall_mem_singleton.mpr hvalue.named)
  | value t hvalue => exact hvalue.named

/-! ## Checks along the text -/

/-- A node as it stands in a parsed program with digits that are not too many. -/
structure Tree.Regular (n : Tree) : Prop where
  named : n.Named
  digits : n.kind = .number → (n.value.getD "").length ≤ Text.digitLimit

namespace Scope

theorem admitsCall_congr {σ τ : Scope} (h : σ.signatures = τ.signatures) (callee : Option String)
    (count : Nat) : σ.AdmitsCall callee count ↔ τ.AdmitsCall callee count := by
  unfold AdmitsCall prints signature?
  rw [h]

/-- What is asked of a node, in the scope before it. -/
theorem admits_pass_iff (σ : Scope) {n : Tree} (h : n.Regular) :
    (σ.pass n).Admits n ↔
      (∀ name, n.uses? = some name → (σ.resolve? (some name)).isSome) ∧
      (n.kind = .functionCall → σ.AdmitsCall (n.get? "name") n.children.length) ∧
      (n.kind = .giveBack → σ.inside.isSome) ∧ n.kind ≠ .function := by
  by_cases hdeclaration : n.kind = .variableDeclaration
  · simp [Admits, uses?, hdeclaration]
  · rw [pass_eq_self σ hdeclaration]
    have hdigits := h.digits
    have hnamed := h.named
    unfold Named uses? at hnamed
    unfold Admits uses?
    cases hkind : n.kind with
    | number => simpa [hkind] using hdigits
    | identifier =>
      obtain ⟨name, hname⟩ := hnamed (.inl hkind)
      simp only [hkind] at hname
      simp [hname]
    | assignment =>
      obtain ⟨name, hname⟩ := hnamed (.inr hkind)
      simp only [hkind] at hname
      simp [hname]
    | _ => simp

/-- Nodes are checked if and only if the variables they use are known, their calls are right, they
give back inside functions only, and no function is among them. -/
theorem checked_iff (σ : Scope) {ns : List Tree} (h : ∀ n ∈ ns, n.Regular) :
    σ.Checked ns ↔
      UsesKnown (fun name => (σ.resolve? (some name)).isSome) ns ∧
      (∀ n ∈ ns, n.kind = .functionCall → σ.AdmitsCall (n.get? "name") n.children.length) ∧
      (∀ n ∈ ns, n.kind = .giveBack → σ.inside.isSome) ∧ ∀ n ∈ ns, n.kind ≠ .function := by
  induction ns generalizing σ with
  | nil => simp [Checked, usesKnown_nil]
  | cons n ns ih =>
    have hcalls (k : Tree) : (σ.pass n).AdmitsCall (k.get? "name") k.children.length ↔
        σ.AdmitsCall (k.get? "name") k.children.length :=
      admitsCall_congr (signatures_pass σ n) _ _
    rw [checked_cons, admits_pass_iff σ (h n List.mem_cons_self),
      ih _ fun k hk => h k (List.mem_cons_of_mem n hk), usesKnown_cons,
      usesKnown_congr (isSome_resolve?_pass σ n)]
    simp only [List.forall_mem_cons, inside_pass, hcalls]
    tauto

theorem isSome_resolve?_passAll (σ : Scope) (ns : List Tree) (name : String) :
    ((σ.passAll ns).resolve? (some name)).isSome ↔
      (σ.resolve? (some name)).isSome ∨ name ∈ ns.filterMap declares? := by
  induction ns generalizing σ with
  | nil => simp
  | cons n ns ih =>
    rw [passAll_cons, ih, isSome_resolve?_pass, or_assoc]
    cases hdeclares : declares? n with
    | none => simp [hdeclares]
    | some x =>
      rw [List.filterMap_cons_some hdeclares, List.mem_cons, Option.some.injEq, eq_comm (a := x)]

/-- Outside functions nothing is added to a frame. -/
theorem locals_passAll {σ : Scope} (h : σ.inside = none) (ns : List Tree) :
    (σ.passAll ns).locals = σ.locals := by
  induction ns generalizing σ with
  | nil => rfl
  | cons n ns ih =>
    have hlocals : (σ.pass n).locals = σ.locals := by
      unfold pass declare
      simp only [h]
      repeat' split
      all_goals rfl
    rw [passAll_cons, ih (by rw [inside_pass, h]), hlocals]

end Scope

/-! ## Nodes of a program -/

/-- Before its body a function has only nodes for its parameters and the block. -/
theorem Tree.Parts.exists_header (f : Parts) :
    ∃ header, walkAll f.tree.children = header ++ walkAll f.body ∧
      ∀ n ∈ header, n.kind = .parameterList ∨ n.kind = .parameter ∨ n.kind = .block := by
  have hchildren : f.tree.children =
      [Grammar.parametersNode f.start (f.formals.map Formal.tree), blockNode f.place f.body] := rfl
  refine ⟨(Grammar.parametersNode f.start (f.formals.map Formal.tree)).walk ++
    [blockNode f.place f.body], ?_, ?_⟩
  · rw [hchildren, walkAll, walkAll, walkAll, List.append_nil, walk_eq_cons (blockNode _ _),
      List.append_assoc]
    rfl
  · intro n hn
    rw [List.mem_append, List.mem_singleton] at hn
    rcases hn with hn | rfl
    · rw [walk_eq_cons] at hn
      rcases List.mem_cons.mp hn with rfl | hn
      · exact .inl rfl
      · obtain ⟨t, ht, hnt⟩ := mem_walkAll.mp hn
        obtain ⟨p, -, rfl⟩ := List.mem_map.mp ht
        obtain rfl : n = p.tree := by simpa [walk_eq_cons, Formal.tree, walkAll] using hnt
        exact .inr (.inl rfl)
    · exact .inr (.inr rfl)

theorem Tree.Parts.forall_mem_walkAll {p : Tree → Prop} (f : Parts)
    (hp : ∀ n, n.kind = .parameterList ∨ n.kind = .parameter ∨ n.kind = .block → p n) :
    (∀ n ∈ walkAll f.tree.children, p n) ↔ ∀ n ∈ walkAll f.body, p n := by
  obtain ⟨header, hwalk, hheader⟩ := f.exists_header
  rw [hwalk, List.forall_mem_append]
  exact and_iff_right fun n hn => hp n (hheader n hn)

theorem Tree.Parts.usesKnown_children (f : Parts) (known : String → Prop) :
    UsesKnown known (walkAll f.tree.children) ↔ UsesKnown known (walkAll f.body) := by
  obtain ⟨header, hwalk, hheader⟩ := f.exists_header
  rw [hwalk, usesKnown_append_neutral]
  intro n hn
  unfold uses? declares?
  rcases hheader n hn with hkind | hkind | hkind <;> simp [hkind]

namespace Script.Reading

variable {tree : Tree} {statements : List Tree} {fs : List Parts} {s : Script}

/-- What holds of all statements holds of those outside functions and of the functions. -/
theorem forall_statements (h : Reading tree statements fs s) {p : Tree → Prop} :
    (∀ t ∈ tree.children, p t) ↔
      (∀ t ∈ entryStatements tree, p t) ∧ ∀ f ∈ fs, p f.tree := by
  have hparts : (∀ f ∈ fs, p f.tree) ↔ ∀ t ∈ statements.filter (·.kind = .function), p t := by
    rw [h.parts]
    exact List.forall_mem_map.symm
  rw [entryStatements, h.children, hparts]
  simp only [List.mem_filter, decide_eq_true_eq]
  constructor
  · intro hp
    exact ⟨fun t ht => hp t ht.1, fun t ht => hp t ht.1⟩
  · rintro ⟨hentry, hfunctions⟩ t ht
    by_cases hkind : t.kind = .function
    · exact hfunctions t ⟨ht, hkind⟩
    · exact hentry t ⟨ht, hkind⟩

theorem calls_iff (h : Reading tree statements fs s) {p : Tree → Prop} :
    (∀ n ∈ tree.walk, n.kind = .functionCall → p n) ↔
      (∀ n ∈ walkAll (entryStatements tree), n.kind = .functionCall → p n) ∧
        ∀ f ∈ fs, ∀ n ∈ walkAll f.body, n.kind = .functionCall → p n := by
  have hfunction (f : Parts) : (∀ n ∈ f.tree.walk, n.kind = .functionCall → p n) ↔
      ∀ n ∈ walkAll f.body, n.kind = .functionCall → p n := by
    rw [walk_eq_cons, List.forall_mem_cons, ← f.forall_mem_walkAll]
    · exact and_iff_right fun hkind => by cases hkind
    · rintro n (hkind | hkind | hkind) <;> simp [hkind]
  rw [walk_eq_cons, List.forall_mem_cons, Tree.forall_mem_walkAll, h.forall_statements,
    Tree.forall_mem_walkAll]
  simp only [hfunction, h.kind, reduceCtorEq, false_implies, true_and]

theorem nested_iff (h : Reading tree statements fs s) :
    (∀ t ∈ tree.children, ∀ n ∈ walkAll t.children, n.kind ≠ .function) ↔
      (∀ n ∈ walkAll (entryStatements tree), n.kind ≠ .function) ∧
        ∀ f ∈ fs, ∀ n ∈ walkAll f.body, n.kind ≠ .function := by
  have hentry : (∀ t ∈ entryStatements tree, ∀ n ∈ walkAll t.children, n.kind ≠ .function) ↔
      ∀ n ∈ walkAll (entryStatements tree), n.kind ≠ .function := by
    rw [Tree.forall_mem_walkAll]
    refine forall₂_congr fun t ht => ?_
    have hkind : t.kind ≠ .function := by simpa [entryStatements] using (List.mem_filter.mp ht).2
    rw [walk_eq_cons, List.forall_mem_cons]
    exact (and_iff_right hkind).symm
  rw [h.forall_statements, hentry]
  refine and_congr_right fun _ => forall₂_congr fun f _ => f.forall_mem_walkAll ?_
  rintro n (hkind | hkind | hkind) <;> simp [hkind]

/-! ## What is known at the points of a program -/

theorem names_declared (h : Reading tree statements fs s) :
    s.declared.map (·.1) = tree.children.filterMap declares? := by
  rw [h.children, h.script_eq, List.map_filterMap]
  apply List.filterMap_congr
  intro t _
  unfold Script.declared? declares?
  split
  · rw [Option.map_map]
    exact Option.map_id'
  · rfl

theorem isSome_resolve?_startScope (h : Reading tree statements fs s) (name : String) :
    (s.startScope.resolve? (some name)).isSome ↔ name ∈ tree.children.filterMap declares? := by
  rw [Scope.isSome_resolve?, startScope, globals, List.mem_eraseDups, h.names_declared]
  simp

/-- What is declared at the top level is declared outside functions. -/
theorem mem_declaredNames {name : String}
    (hname : name ∈ tree.children.filterMap declares?) :
    name ∈ declaredNames (entryStatements tree) := by
  obtain ⟨t, ht, hdeclares⟩ := List.mem_filterMap.mp hname
  have hkind : t.kind = .variableDeclaration := by
    by_contra hkind
    rw [declares?, if_neg hkind] at hdeclares
    cases hdeclares
  have hentry : t ∈ entryStatements tree := List.mem_filter.mpr ⟨ht, by simp [hkind]⟩
  refine List.mem_filterMap.mpr ⟨t, mem_walkAll.mpr ⟨t, hentry, ?_⟩, hdeclares⟩
  rw [walk_eq_cons]
  exact List.mem_cons_self

/-- In functions all that is declared outside functions is known. -/
theorem mem_globals_functionScope (h : Reading tree statements fs s)
    (hentry : s.entry.findings s.startScope = []) (name : String) :
    name ∈ s.functionScope.globals ↔ name ∈ declaredNames (entryStatements tree) := by
  have hchecked := (h.follows_entry.findings _).mp hentry
  have hscope : s.functionScope = s.startScope.passAll (walkAll (entryStatements tree)) :=
    h.follows_entry.scopeAfter _ hchecked
  have hlocals : s.functionScope.locals = [] := by
    rw [hscope]
    exact Scope.locals_passAll rfl _
  have hknown := Scope.isSome_resolve? s.functionScope name
  rw [hlocals, hscope, Scope.isSome_resolve?_passAll, h.isSome_resolve?_startScope, ← hscope]
    at hknown
  simp only [List.lookup_nil, Option.isSome_none, Bool.false_eq_true, false_or] at hknown
  rw [← hknown]
  exact or_iff_right_of_imp mem_declaredNames

theorem isSome_resolve?_scope (h : Reading tree statements fs s)
    (hentry : s.entry.findings s.startScope = []) (f : Parts) (name : String) :
    ((f.definition.scope s.functionScope).resolve? (some name)).isSome ↔
      name ∈ parameterNames f.tree ∨ name ∈ declaredNames (entryStatements tree) := by
  have hglobals : (f.definition.scope s.functionScope).globals = s.functionScope.globals := rfl
  rw [Scope.isSome_resolve?, f.lookup_scope, hglobals, h.mem_globals_functionScope hentry,
    f.parameterNames_tree]
  split
  · rename_i hmem
    simp [hmem]
  · rename_i hmem
    simp [hmem]

theorem admitsCall_iff (h : Reading tree statements fs s) (hnodup : (fs.map Parts.name).Nodup)
    {σ : Scope} (hσ : σ.signatures = s.signatures) (n : Tree) :
    σ.AdmitsCall (n.get? "name") n.children.length ↔ CallKnown tree n := by
  unfold Scope.AdmitsCall Scope.prints CallKnown
  cases n.get? "name" with
  | none =>
    have hnone : σ.signature? none = none := List.find?_eq_none.mpr fun f _ => by simp
    simp [hnone]
  | some name =>
    have hfind : σ.signature? (some name) = (fs.find? (·.name = name)).map Parts.signature := by
      rw [Scope.signature?, hσ]
      exact h.find?_signatures hnodup name
    simp only [Option.some.injEq, exists_eq_left', h.functionNamed?, hfind]
    cases fs.find? (·.name = name) with
    | none => by_cases hname : name = "print" <;> simp [printName, hname]
    | some f => simp [Parts.signature, Parts.length_parameters]

/-! ## Acceptance -/

theorem regular (h : Reading tree statements fs s)
    (hdigits : ∀ n ∈ tree.walk, n.kind = .number → (n.value.getD "").length ≤ Text.digitLimit) :
    ∀ n ∈ walkAll tree.children, n.Regular := by
  intro n hn
  have hwalk : n ∈ tree.walk := by
    rw [walk_eq_cons]
    exact List.mem_cons_of_mem tree hn
  obtain ⟨t, ht, hnt⟩ := mem_walkAll.mp hn
  rw [h.children] at ht
  exact ⟨(h.isStatement t ht).named n hnt, hdigits n hwalk⟩

theorem findings_entry_iff (h : Reading tree statements fs s)
    (hregular : ∀ n ∈ walkAll tree.children, n.Regular) (hnodup : (fs.map Parts.name).Nodup) :
    s.entry.findings s.startScope = [] ↔
      UsesKnown (· ∈ tree.children.filterMap declares?) (walkAll (entryStatements tree)) ∧
      (∀ n ∈ walkAll (entryStatements tree), n.kind = .functionCall → CallKnown tree n) ∧
      (∀ n ∈ walkAll (entryStatements tree), n.kind ≠ .giveBack) ∧
      ∀ n ∈ walkAll (entryStatements tree), n.kind ≠ .function := by
  have hentry : ∀ n ∈ walkAll (entryStatements tree), n.Regular := by
    intro n hn
    obtain ⟨t, ht, hnt⟩ := mem_walkAll.mp hn
    exact hregular n (mem_walkAll.mpr ⟨t, (List.mem_filter.mp ht).1, hnt⟩)
  have hinside : s.startScope.inside = none := rfl
  rw [h.follows_entry.findings, Scope.checked_iff _ hentry,
    usesKnown_congr h.isSome_resolve?_startScope]
  simp only [h.admitsCall_iff hnodup (σ := s.startScope) rfl, hinside, Option.isSome_none,
    Bool.false_eq_true, imp_false]

theorem findings_body_iff (h : Reading tree statements fs s)
    (hregular : ∀ n ∈ walkAll tree.children, n.Regular) (hnodup : (fs.map Parts.name).Nodup)
    (hentry : s.entry.findings s.startScope = []) {f : Parts} (hf : f ∈ fs) :
    (Stmt.ofTrees f.body).findings (f.definition.scope s.functionScope) = [] ↔
      UsesKnown (fun name => name ∈ parameterNames f.tree ∨
        name ∈ declaredNames (entryStatements tree)) (walkAll f.body) ∧
      (∀ n ∈ walkAll f.body, n.kind = .functionCall → CallKnown tree n) ∧
      ∀ n ∈ walkAll f.body, n.kind ≠ .function := by
  have hbody : ∀ n ∈ walkAll f.body, n.Regular := by
    rw [Tree.forall_mem_walkAll, h.forall_statements] at hregular
    have htree := hregular.2 f hf
    obtain ⟨header, hwalk, -⟩ := f.exists_header
    rw [walk_eq_cons, hwalk] at htree
    exact fun n hn => htree n (List.mem_cons_of_mem _ (List.mem_append_right _ hn))
  have hinside : (f.definition.scope s.functionScope).inside = some f.signature := rfl
  have hsignatures : (f.definition.scope s.functionScope).signatures = s.signatures :=
    (Simulation.grows_scopeAfter s.startScope s.entry).signatures
  rw [(h.follows_body hf).findings, Scope.checked_iff _ hbody,
    usesKnown_congr (h.isSome_resolve?_scope hentry f)]
  simp only [h.admitsCall_iff hnodup hsignatures, hinside, Option.isSome_some, implies_true,
    true_and]

/-- Nothing is found in a program if and only if it keeps the rules. -/
theorem findings_iff (h : Reading tree statements fs s)
    (hdigits : ∀ n ∈ tree.walk, n.kind = .number → (n.value.getD "").length ≤ Text.digitLimit) :
    s.findings = [] ↔ WellFormed tree := by
  have hregular := h.regular hdigits
  have hnames : (tree.childrenOf .function).filterMap (·.get? "name") = fs.map Parts.name := by
    rw [h.childrenOf_function, List.filterMap_map, ← List.filterMap_eq_map]
    exact List.filterMap_congr fun f _ => f.get?_tree
  rw [Script.findings_eq_nil h.functions, h.names_declared]
  constructor
  · rintro ⟨hglobals, hnodup, hparameters, hentry, hbodies⟩
    obtain ⟨huses, hcalls, hreturns, hnested⟩ := (h.findings_entry_iff hregular hnodup).mp hentry
    have hbody f (hf : f ∈ fs) :=
      (h.findings_body_iff hregular hnodup hentry hf).mp (hbodies f hf)
    refine ⟨hglobals, ?_, ?_, ?_, hreturns, ?_, huses, ?_⟩
    · rwa [hnames]
    · rw [h.childrenOf_function, List.forall_mem_map]
      simpa using hparameters
    · exact h.nested_iff.mpr ⟨hnested, fun f hf => (hbody f hf).2.2⟩
    · rw [h.childrenOf_function, List.forall_mem_map]
      exact fun f hf => (f.usesKnown_children _).mpr (hbody f hf).1
    · exact h.calls_iff.mpr ⟨hcalls, fun f hf => (hbody f hf).2.1⟩
  · intro hwell
    have hnodup : (fs.map Parts.name).Nodup := hnames ▸ hwell.functions
    obtain ⟨hcalls, hcallsBody⟩ := h.calls_iff.mp hwell.calls
    obtain ⟨hnested, hnestedBody⟩ := h.nested_iff.mp hwell.nested
    have hparameters := hwell.parameters
    have hinside := hwell.inside
    rw [h.childrenOf_function, List.forall_mem_map] at hparameters hinside
    have hentry := (h.findings_entry_iff hregular hnodup).mpr
      ⟨hwell.outside, hcalls, hwell.returns, hnested⟩
    refine ⟨hwell.globals, hnodup, by simpa using hparameters, hentry, fun f hf => ?_⟩
    exact (h.findings_body_iff hregular hnodup hentry hf).mpr
      ⟨(f.usesKnown_children _).mp (hinside f hf), hcallsBody f hf, hnestedBody f hf⟩

end Script.Reading

/-- A source text that can be parsed, without overlong numbers, compiles if and only if it keeps the
rules. -/
theorem compiles_iff_wellFormed (options : CompileOptions) {file source : String} {tree : Tree}
    (hlimit : 1 ≤ options.limit)
    (htree : Source.tree file source = .ok tree)
    (hdigits : ∀ n ∈ tree.walk, n.kind = .number → (n.value.getD "").length ≤ 4300) :
    (∃ compiled, (Compilation.ofSource options file source).result = .ok compiled) ↔
      WellFormed tree := by
  obtain ⟨statements, fs, s, hreading⟩ := Source.exists_reading htree
  rw [← hreading.findings_iff hdigits]
  constructor
  · rintro ⟨compiled, hcompiled⟩
    obtain ⟨tree', haccepted⟩ := Accepted.exists_of_result hlimit hcompiled
    obtain rfl : tree' = tree := Except.ok.inj (haccepted.parsed.symm.trans htree)
    obtain ⟨_, _, s', hreading', hfindings, -⟩ := haccepted.exists_reading
    obtain rfl : s' = s := Option.some.inj (hreading'.script.symm.trans hreading.script)
    exact hfindings
  · intro hfindings
    obtain ⟨compiled, haccepted⟩ :=
      Accepted.exists_of_findings options htree hreading.script hfindings
    exact ⟨compiled, haccepted.result⟩

/-- A program that uses a variable before its declaration at the top level, one of a block outside
functions inside a function, and a variable in its own initial value, and that calls a later
function. -/
def scopes : String :=
  "if(t==0)\x7bvar s:int=7\x7dfn main()->int\x7bvar a:int=a return f(t+a)\x7d" ++
    "fn f(n:int)->int\x7breturn n*s\x7dvar t:int"

theorem compiles_iff_wellFormed_scopes :
    ∃ tree, Source.tree "scopes" scopes = .ok tree ∧ WellFormed tree := by
  have hcompiles : (Compilation.ofSource {} "scopes" scopes).result.toBool = true := by
    decide +kernel
  have hall : (Source.tree "scopes" scopes).toOption.any (fun t => t.walk.all fun n =>
      n.kind = .number → (n.value.getD "").length ≤ 4300) = true := by
    decide +kernel
  cases htree : Source.tree "scopes" scopes with
  | error d =>
    rw [htree] at hall
    cases hall
  | ok tree =>
    rw [htree] at hall
    have hdigits : ∀ n ∈ tree.walk, n.kind = .number → (n.value.getD "").length ≤ 4300 := by
      simpa [Except.toOption, imp_iff_not_or] using hall
    cases hcompiled : (Compilation.ofSource {} "scopes" scopes).result with
    | error r =>
      rw [hcompiled] at hcompiles
      cases hcompiles
    | ok compiled =>
      exact ⟨tree, rfl, (compiles_iff_wellFormed {} (by decide) htree hdigits).mp
        ⟨compiled, hcompiled⟩⟩

end StackLang
