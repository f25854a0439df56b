import Mathlib.Data.List.Perm.Subperm
import StackLang.Proofs.Causes
import StackLang.Proofs.Writing

/-!
# Options, types and places do not matter to the code

The compiler reads names, operators and texts of leaves. What a tree says about types appears in the
comments of functions only, its places appear in messages only, and the options choose whether there
are comments and how many errors are kept. So trees that are equal up to types and places come to
the same program and the same causes of errors, whatever the options are.
-/

namespace StackLang

/-! ## Attributes that are read -/

namespace Tree

namespace Attributes

theorem get?_cons (name text : String) (as : Attributes) (key : String) :
    get? ((name, text) :: as) key = if key = name then some text else as.get? key := by
  rw [get?, List.lookup_cons]
  by_cases hname : key = name
  · rw [if_pos hname, beq_iff_eq.mpr hname]
  · rw [if_neg hname, beq_eq_false_iff_ne.mpr hname]
    rfl

/-- The attributes with their texts changed; the change may depend on the name. -/
def mapTexts (f : String → String → String) (as : Attributes) : Attributes :=
  as.map fun a => (a.1, f a.1 a.2)

theorem get?_mapTexts (f : String → String → String) (as : Attributes) (key : String) :
    (as.mapTexts f).get? key = (as.get? key).map (f key) := by
  induction as with
  | nil => rfl
  | cons a as ih =>
    obtain ⟨name, text⟩ := a
    rw [mapTexts, List.map_cons, ← mapTexts, get?_cons, get?_cons, ih]
    by_cases hname : key = name
    · subst hname
      rw [if_pos rfl, if_pos rfl, Option.map_some]
    · rw [if_neg hname, if_neg hname]

/-- The attributes with the texts of types left out. -/
def untyped (as : Attributes) : Attributes :=
  as.mapTexts fun key text => if key = "type" ∨ key = "returnType" then "" else text

/-- The attributes with one of these names, in the order of the names. -/
def restrict (keys : List String) (as : Attributes) : Attributes :=
  keys.filterMap fun key => (as.get? key).map (key, ·)

theorem get?_restrict (keys : List String) (as : Attributes) (key : String) :
    (as.restrict keys).get? key = if key ∈ keys then as.get? key else none := by
  induction keys with
  | nil => rfl
  | cons k keys ih =>
    cases hget : as.get? k with
    | some text =>
      have hcons : as.restrict (k :: keys) = (k, text) :: as.restrict keys :=
        List.filterMap_cons_some (by rw [hget]; rfl)
      rw [hcons, get?_cons, ih]
      by_cases hk : key = k
      · rw [if_pos hk, hk, if_pos List.mem_cons_self, hget]
      · simp [hk]
    | none =>
      have hcons : as.restrict (k :: keys) = as.restrict keys :=
        List.filterMap_cons_none (by rw [hget]; rfl)
      rw [hcons, ih]
      by_cases hk : key = k
      · rw [hk, hget, ite_self, ite_self]
      · simp [hk]

/-- The names of the attributes that matter to the code. -/
def coreNames : List String := ["name", "operator"]

/-- The attributes that matter to the code. -/
def core (as : Attributes) : Attributes := as.restrict coreNames

theorem get?_core (as : Attributes) {key : String} (h : key ∈ coreNames) :
    as.core.get? key = as.get? key := by
  rw [core, get?_restrict, if_pos h]

theorem get?_untyped (as : Attributes) {key : String} (h : key ∈ coreNames) :
    as.untyped.get? key = as.get? key := by
  have htype : ¬(key = "type" ∨ key = "returnType") := by
    rintro (rfl | rfl) <;> exact absurd h (by decide)
  rw [untyped, get?_mapTexts]
  simp [htype]

theorem get?_eq_none_iff {as : Attributes} {key : String} :
    as.get? key = none ↔ key ∉ as.map Prod.fst := by
  simp only [get?, List.lookup_eq_none_iff, List.mem_map, not_exists, not_and]
  constructor
  · rintro h a ha rfl
    simpa using h a ha
  · intro h a ha
    simpa using fun heq => h a ha heq.symm

/-- Equal attributes with distinct names give every name the same text. -/
theorem get?_eq_of_same {as bs : Attributes} (hkeys : (as.map Prod.fst).Nodup)
    (h : as.same bs = true) (key : String) : as.get? key = bs.get? key := by
  simp only [same, Bool.and_eq_true, beq_iff_eq, List.all_eq_true] at h
  obtain ⟨hlength, hall⟩ := h
  by_cases hmem : key ∈ as.map Prod.fst
  · obtain ⟨a, ha, rfl⟩ := List.mem_map.mp hmem
    rw [get?_of_mem hkeys ha, hall a ha]
  · -- The names of the one are among those of the other, and there are equally many.
    have hsubset : as.map Prod.fst ⊆ bs.map Prod.fst := by
      intro name hname
      obtain ⟨a, ha, rfl⟩ := List.mem_map.mp hname
      by_contra habsent
      rw [← get?_eq_none_iff, hall a ha] at habsent
      cases habsent
    have hperm : (as.map Prod.fst).Perm (bs.map Prod.fst) :=
      (hkeys.subperm hsubset).perm_of_length_le (by simp [hlength])
    have hmem' : key ∉ bs.map Prod.fst := fun hkey => hmem (hperm.mem_iff.mpr hkey)
    rw [get?_eq_none_iff.mpr hmem, get?_eq_none_iff.mpr hmem']

/-- Attributes that are equal without types agree in what matters to the code. -/
theorem core_eq_of_same {as bs : Attributes} (hkeys : (as.map Prod.fst).Nodup)
    (h : as.untyped.same bs.untyped = true) : as.core = bs.core := by
  have hkeys' : (as.untyped.map Prod.fst).Nodup := by
    rw [untyped, mapTexts, List.map_map]
    exact hkeys
  rw [core, core, restrict, restrict]
  refine List.filterMap_congr fun key hkey => ?_
  rw [← get?_untyped as hkey, get?_eq_of_same hkeys' h key, get?_untyped bs hkey]

end Attributes

mutual

/-- A tree with the texts of types left out. -/
def untyped : Tree → Tree
  | ⟨kind, value, attributes, children, location⟩ =>
    ⟨kind, value, attributes.untyped, untypedAll children, location⟩

/-- Several trees with the texts of types left out. -/
def untypedAll : List Tree → List Tree
  | [] => []
  | t :: ts => untyped t :: untypedAll ts

end

mutual

/-- A tree with the attributes that matter to the code. -/
def core : Tree → Tree
  | ⟨kind, value, attributes, children, location⟩ =>
    ⟨kind, value, attributes.core, coreAll children, location⟩

/-- Several trees with the attributes that matter to the code. -/
def coreAll : List Tree → List Tree
  | [] => []
  | t :: ts => core t :: coreAll ts

end

/-- No node has two attributes with one name. -/
def Keyed (t : Tree) : Prop := ∀ n ∈ t.walk, (n.attributes.map Prod.fst).Nodup

instance (t : Tree) : Decidable t.Keyed := List.decidableBAll _ _

mutual

/-- Trees that are equal up to types, places and the order of attributes agree in what matters to
the code. -/
theorem core_eq_of_same (t u : Tree) (hkeyed : t.Keyed) (h : t.untyped.same u.untyped = true) :
    t.core.unplaced = u.core.unplaced := by
  obtain ⟨kind, value, attributes, children, location⟩ := t
  obtain ⟨kind', value', attributes', children', location'⟩ := u
  simp only [untyped, same, Bool.and_eq_true, beq_iff_eq] at h
  obtain ⟨⟨⟨rfl, rfl⟩, hattributes⟩, hchildren⟩ := h
  have hcore : attributes.core = attributes'.core :=
    Attributes.core_eq_of_same (hkeyed _ (by rw [walk]; exact List.mem_cons_self)) hattributes
  have hall : unplacedAll (coreAll children) = unplacedAll (coreAll children') :=
    coreAll_eq_of_sameAll children children'
      (fun n hn => hkeyed n (by rw [walk]; exact List.mem_cons_of_mem _ hn)) hchildren
  rw [core, core, unplaced, unplaced, hcore, hall]

theorem coreAll_eq_of_sameAll (ts us : List Tree)
    (hkeyed : ∀ n ∈ walkAll ts, (n.attributes.map Prod.fst).Nodup)
    (h : sameAll (untypedAll ts) (untypedAll us) = true) :
    unplacedAll (coreAll ts) = unplacedAll (coreAll us) := by
  cases ts with
  | nil =>
    cases us with
    | nil => rfl
    | cons u us => cases h
  | cons t ts =>
    cases us with
    | nil => cases h
    | cons u us =>
      simp only [untypedAll, sameAll, Bool.and_eq_true] at h
      rw [walkAll] at hkeyed
      rw [coreAll, coreAll, unplacedAll, unplacedAll,
        core_eq_of_same t u (fun n hn => hkeyed n (List.mem_append_left _ hn)) h.1,
        coreAll_eq_of_sameAll ts us (fun n hn => hkeyed n (List.mem_append_right _ hn)) h.2]

end

@[simp] theorem coreAll_eq_map (ts : List Tree) : coreAll ts = ts.map core := by
  induction ts with
  | nil => rfl
  | cons t ts ih => rw [coreAll, ih, List.map_cons]

@[simp] theorem kind_core (t : Tree) : t.core.kind = t.kind := by
  cases t
  rfl

@[simp] theorem location_core (t : Tree) : t.core.location = t.location := by
  cases t
  rfl

theorem children_core (t : Tree) : t.core.children = t.children.map core := by
  cases t
  exact coreAll_eq_map _

theorem get?_core (t : Tree) {key : String} (h : key ∈ Attributes.coreNames) :
    t.core.get? key = t.get? key := by
  cases t
  exact Attributes.get?_core _ h

theorem first?_core (t : Tree) (k : Kind) : t.core.first? k = (t.first? k).map core := by
  rw [first?, first?, children_core, List.find?_map]
  congr 2
  funext u
  simp only [Function.comp_apply, kind_core]

theorem childrenOf_core (t : Tree) (k : Kind) :
    t.core.childrenOf k = (t.childrenOf k).map core := by
  rw [childrenOf, childrenOf, children_core, List.filter_map]
  congr 2
  funext u
  simp only [Function.comp_apply, kind_core]

mutual

theorem declarations_core : (t : Tree) → t.core.declarations = t.declarations
  | ⟨kind, value, attributes, children, location⟩ => by
    rw [core, declarations, declarations, declarationsAll_coreAll children]

theorem declarationsAll_coreAll : (ts : List Tree) →
    declarationsAll (coreAll ts) = declarationsAll ts
  | [] => rfl
  | t :: ts => by
    rw [coreAll, declarationsAll, declarationsAll, declarations_core t, declarationsAll_coreAll ts]

end

end Tree

/-! ## Reading what matters -/

section Reading

private theorem name_mem_coreNames : "name" ∈ Tree.Attributes.coreNames := by decide

private theorem operator_mem_coreNames : "operator" ∈ Tree.Attributes.coreNames := by decide

mutual

theorem Expr.ofTree_core : (t : Tree) → Expr.ofTree t.core = Expr.ofTree t
  | ⟨kind, value, attributes, children, location⟩ => by
    have hchildren := Expr.ofTrees_coreAll children
    have hname := attributes.get?_core name_mem_coreNames
    have hoperator := attributes.get?_core operator_mem_coreNames
    cases kind <;> simp only [Tree.core, Expr.ofTree, hchildren, hname, hoperator]

theorem Expr.ofTrees_coreAll : (ts : List Tree) →
    Expr.ofTrees (Tree.coreAll ts) = Expr.ofTrees ts
  | [] => rfl
  | t :: ts => by
    rw [Tree.coreAll, Expr.ofTrees, Expr.ofTrees, Expr.ofTree_core t, Expr.ofTrees_coreAll ts]

end

theorem Expr.head?_coreAll (ts : List Tree) :
    (Tree.coreAll ts).head?.map Expr.ofTree = ts.head?.map Expr.ofTree := by
  cases ts with
  | nil => rfl
  | cons t ts => exact congrArg some (Expr.ofTree_core t)

mutual

theorem Stmt.ofTree_core : (t : Tree) → Stmt.ofTree t.core = Stmt.ofTree t
  | ⟨kind, value, attributes, children, location⟩ => by
    have hname := attributes.get?_core name_mem_coreNames
    simp only [Tree.core]
    cases kind with
    | variableDeclaration => simp only [Stmt.ofTree, hname, Expr.head?_coreAll]
    | assignment =>
      cases children with
      | nil => simp only [Tree.coreAll, Stmt.ofTree, hname]
      | cons value rest => simp only [Tree.coreAll, Stmt.ofTree, hname, Expr.ofTree_core value]
    | conditional =>
      simp only [Stmt.ofTree]
      rw [Stmt.ofElse_coreAll children, Stmt.ofBranches_coreAll location children,
        Stmt.ofArms_coreAll false location children]
    | loop =>
      cases children with
      | nil => rfl
      | cons condition rest =>
        cases rest with
        | nil => rfl
        | cons body rest =>
          simp only [Tree.coreAll, Stmt.ofTree, Expr.ofTree_core condition,
            Stmt.ofBlock_core body]
    | giveBack => simp only [Stmt.ofTree, Expr.head?_coreAll]
    | block => exact Stmt.ofTrees_coreAll children
    | function => simp only [Stmt.ofTree, hname]
    | program | parameterList | parameter | elseIf | otherwise => rfl
    | condition | expression | term | negate | functionCall | number | identifier =>
      exact congrArg Stmt.discard (Expr.ofTree_core ⟨_, value, attributes, children, location⟩)

theorem Stmt.ofTrees_coreAll : (ts : List Tree) →
    Stmt.ofTrees (Tree.coreAll ts) = Stmt.ofTrees ts
  | [] => rfl
  | t :: ts => by
    rw [Tree.coreAll, Stmt.ofTrees, Stmt.ofTrees, Stmt.ofTree_core t, Stmt.ofTrees_coreAll ts]

theorem Stmt.ofBlock_core : (t : Tree) → Stmt.ofBlock t.core = Stmt.ofBlock t
  | ⟨_, _, _, children, _⟩ => Stmt.ofTrees_coreAll children

theorem Stmt.ofArms_coreAll (chained : Bool) (location : Option Location) :
    (ts : List Tree) → (rest : Stmt) →
      Stmt.ofArms chained location (Tree.coreAll ts) rest = Stmt.ofArms chained location ts rest
  | [], _ => rfl
  | [_], _ => rfl
  | condition :: block :: _, rest => by
    rw [Tree.coreAll, Tree.coreAll, Stmt.ofArms, Stmt.ofArms, Expr.ofTree_core condition,
      Stmt.ofBlock_core block]

theorem Stmt.ofBranches_coreAll (location : Option Location) :
    (ts : List Tree) → (rest : Stmt) →
      Stmt.ofBranches location (Tree.coreAll ts) rest = Stmt.ofBranches location ts rest
  | [], _ => rfl
  | ⟨kind, _, _, children, _⟩ :: ts, rest => by
    simp only [Tree.coreAll, Tree.core, Stmt.ofBranches, Stmt.ofBranches_coreAll location ts rest,
      Stmt.ofArms_coreAll true location children]

theorem Stmt.ofElse_coreAll : (ts : List Tree) → Stmt.ofElse (Tree.coreAll ts) = Stmt.ofElse ts
  | [] => rfl
  | ⟨kind, _, _, [], _⟩ :: ts => by
    simp only [Tree.coreAll, Tree.core, Stmt.ofElse, Stmt.ofElse_coreAll ts]
  | ⟨kind, _, _, block :: _, _⟩ :: ts => by
    simp only [Tree.coreAll, Tree.core, Stmt.ofElse, Stmt.ofElse_coreAll ts,
      Stmt.ofBlock_core block]

end

end Reading

/-! ## Scripts without types -/

/-- A function without its type. -/
def Function.untyped (f : Function) : Function := { f with returnType := none }

/-- A script without types. -/
def Script.untyped (s : Script) : Script := { s with functions := s.functions.map Function.untyped }

/-- A scope without types. -/
def Scope.untyped (σ : Scope) : Scope :=
  { σ with
    signatures := σ.signatures.map Signature.untyped
    inside := σ.inside.map Signature.untyped }

theorem Parameter.ofTree_core (t : Tree) : Parameter.ofTree t.core = Parameter.ofTree t := by
  rw [Parameter.ofTree, Parameter.ofTree, t.get?_core name_mem_coreNames, t.location_core]

theorem Function.ofTree_core (t : Tree) :
    Function.ofTree t.core = (Function.ofTree t).untyped := by
  have hreturnType : t.core.get? "returnType" = none := by
    cases t
    exact Tree.Attributes.get?_restrict _ _ _
  simp only [Function.ofTree, Function.untyped, t.get?_core name_mem_coreNames, hreturnType,
    Tree.first?_core, Tree.location_core, Function.mk.injEq, true_and]
  refine ⟨?_, ?_, ?_⟩
  · cases t.first? .parameterList with
    | none => rfl
    | some list =>
      simp only [Option.map_some, Option.getD_some, Tree.children_core, List.map_map]
      exact List.map_congr_left fun p _ => Parameter.ofTree_core p
  · cases t.first? .block with
    | none => rfl
    | some body => exact Tree.declarations_core body
  · cases t.first? .block with
    | none => rfl
    | some body => exact congrArg some (Stmt.ofBlock_core body)

theorem Script.ofTree?_core (t : Tree) :
    Script.ofTree? t.core = (Script.ofTree? t).map Script.untyped := by
  rw [Script.ofTree?, Script.ofTree?, Tree.kind_core]
  split
  · simp only [Option.map_some, Option.some.injEq, Script.untyped, Script.mk.injEq,
      Tree.children_core, Tree.childrenOf_core]
    refine ⟨?_, ?_, ?_⟩
    · rw [List.filterMap_map]
      refine List.filterMap_congr fun u _ => ?_
      rw [Function.comp_apply, Script.declared?, Script.declared?, Tree.kind_core,
        u.get?_core name_mem_coreNames, Tree.location_core]
    · rw [List.filter_map, ← Tree.coreAll_eq_map, Stmt.ofTrees_coreAll]
      simp only [Function.comp_def, Tree.kind_core]
    · rw [List.map_map, List.map_map]
      exact List.map_congr_left fun f _ => Function.ofTree_core f
  · rfl

namespace Scope

@[simp] theorem signature?_untyped (σ : Scope) (name : Option String) :
    σ.untyped.signature? name = (σ.signature? name).map Signature.untyped :=
  List.find?_map ..

/-- Names have the same meaning without types. -/
theorem alike_untyped (σ : Scope) : σ.untyped.Alike σ := by
  refine ⟨fun name => ?_, rfl, rfl, rfl, ?_⟩
  · rw [signature?_untyped, Option.isSome_map]
  · rw [untyped, Option.map_map]
    rfl

theorem declare_untyped (σ : Scope) (name : String) :
    σ.untyped.declare name = (σ.declare name).untyped := by
  rw [declare, declare]
  cases hinside : σ.inside with
  | none =>
    simp only [untyped, hinside, Option.map_none]
    split <;> simp [hinside]
  | some f => simp [untyped, hinside]

@[simp] theorem variableFindings_untyped (σ : Scope) (name : Option String)
    (location : Option Location) :
    σ.untyped.variableFindings name location = σ.variableFindings name location :=
  rfl

@[simp] theorem callFindings_untyped (σ : Scope) (callee : Option String) (count : Nat)
    (location : Option Location) :
    σ.untyped.callFindings callee count location = σ.callFindings callee count location := by
  rw [callFindings, callFindings, signature?_untyped]
  cases σ.signature? callee with
  | none =>
    simp only [Option.map_none, untyped, List.map_map]
    rfl
  | some f => rfl

end Scope

/-! ## Code and findings without types -/

mutual

theorem Expr.findings_untyped (σ : Scope) (e : Expr) : e.findings σ.untyped = e.findings σ := by
  cases e with
  | number digits => rfl
  | «variable» name location => rfl
  | binary op left right =>
    rw [Expr.findings, Expr.findings, Expr.findings_untyped σ left, Expr.findings_untyped σ right]
  | unknown operator left right location =>
    rw [Expr.findings, Expr.findings, Expr.findings_untyped σ left, Expr.findings_untyped σ right]
  | negate operand => exact Expr.findings_untyped σ operand
  | call callee arguments location =>
    rw [Expr.findings, Expr.findings, Expr.findingsAll_untyped σ arguments,
      σ.alike_untyped.prints_eq, σ.callFindings_untyped]
  | hole m location => rfl

theorem Expr.findingsAll_untyped (σ : Scope) (es : List Expr) :
    Expr.findingsAll σ.untyped es = Expr.findingsAll σ es := by
  cases es with
  | nil => rfl
  | cons e es =>
    rw [Expr.findingsAll, Expr.findingsAll, Expr.findings_untyped σ e,
      Expr.findingsAll_untyped σ es]

end

theorem Expr.findings?_untyped (σ : Scope) (e : Option Expr) :
    Expr.findings? σ.untyped e = Expr.findings? σ e := by
  cases e with
  | none => rfl
  | some e => exact Expr.findings_untyped σ e

namespace Stmt

theorem scopeAfter_untyped (σ : Scope) (s : Stmt) :
    s.scopeAfter σ.untyped = (s.scopeAfter σ).untyped := by
  induction s generalizing σ with
  | seq first second ih₁ ih₂ => rw [scopeAfter, scopeAfter, ih₁, ih₂]
  | declare name value => exact σ.declare_untyped name
  | branch chained condition yes no ih₁ ih₂ => rw [scopeAfter, scopeAfter, ih₁, ih₂]
  | loop condition body ih => exact ih σ
  | _ => rfl

theorem code_untyped (σ : Scope) (s : Stmt) : s.code σ.untyped = s.code σ :=
  s.code_congr σ.alike_untyped

theorem findings_untyped (σ : Scope) (s : Stmt) : s.findings σ.untyped = s.findings σ := by
  induction s generalizing σ with
  | skip => rfl
  | seq first second ih₁ ih₂ => rw [findings, findings, scopeAfter_untyped, ih₁, ih₂]
  | declare name value =>
    rw [findings, findings, Scope.declare_untyped, Expr.findings?_untyped]
  | assign name value location =>
    rw [findings, findings, Expr.findings_untyped, σ.variableFindings_untyped]
  | discard value => exact Expr.findings_untyped σ value
  | branch chained condition yes no ih₁ ih₂ =>
    rw [findings, findings, scopeAfter_untyped, ih₁, ih₂, Expr.findings_untyped]
  | loop condition body ih => rw [findings, findings, ih, Expr.findings_untyped]
  | giveBack value location =>
    rw [findings, findings, Expr.findings?_untyped]
    cases hinside : σ.inside <;> simp [Scope.untyped, hinside]
  | misuse m location => rfl

end Stmt

/-! ## Functions without types -/

/-- A draft without its comment. -/
def Draft.uncommented (d : Draft) : Draft := { d with comment := none }

/-- Code without comments does not depend on the comments of its drafts. -/
theorem Draft.link_uncommented (entries : List (String × Nat)) (address : Nat) (ds : List Draft) :
    link false entries address (ds.map Draft.uncommented) = link false entries address ds := by
  induction ds generalizing address with
  | nil => rfl
  | cons d ds ih =>
    rw [List.map_cons, link, link, ih]
    rfl

/-- A definition without its type. -/
def Definition.untyped (d : Definition) : Definition :=
  { d with signature := d.signature.untyped, written := d.written.untyped }

/-- A fate without its type. -/
def Fate.untyped : Fate → Fate
  | .defined d => .defined d.untyped
  | .incomplete location => .incomplete location
  | .repeated name location => .repeated name location

namespace Definition

theorem scope_untyped (σ : Scope) (d : Definition) :
    d.untyped.scope σ.untyped = (d.scope σ).untyped :=
  rfl

theorem code_untyped (σ : Scope) (d : Definition) :
    (d.untyped.code σ.untyped).map Draft.uncommented = (d.code σ).map Draft.uncommented := by
  have hbody : d.untyped.body.code (d.untyped.scope σ.untyped) = d.body.code (d.scope σ) := by
    rw [scope_untyped, Stmt.code_untyped]
    rfl
  simp only [code, hbody, List.map_cons, List.map_append]
  rfl

theorem findings_untyped (σ : Scope) (d : Definition) :
    d.untyped.findings σ.untyped = d.findings σ := by
  rw [findings, findings, scope_untyped, Stmt.findings_untyped]
  rfl

end Definition

theorem Fate.findings_untyped (σ : Scope) (fate : Fate) :
    fate.untyped.findings σ.untyped = fate.findings σ := by
  cases fate with
  | defined d => exact d.findings_untyped σ
  | incomplete location => rfl
  | repeated name location => rfl

/-- Changing the members of a list in a way that keeps which of them are alike commutes with leaving
out those that are like an earlier one. -/
theorem eraseDupsBy_map {α β : Type} {r : α → α → Bool} {r' : β → β → Bool} {f : α → β}
    (h : ∀ a b, r' (f a) (f b) = r a b) (as : List α) :
    (as.map f).eraseDupsBy r' = (as.eraseDupsBy r).map f := by
  have hloop (as bs : List α) : List.eraseDupsBy.loop r' (as.map f) (bs.map f) =
      (List.eraseDupsBy.loop r as bs).map f := by
    induction as generalizing bs with
    | nil => rw [List.map_nil, List.eraseDupsBy.loop, List.eraseDupsBy.loop, List.map_reverse]
    | cons a as ih =>
      have hany : (bs.map f).any (r' (f a)) = bs.any (r a) := by
        rw [List.any_map]
        exact congrArg bs.any (funext fun b => h a b)
      rw [List.map_cons, List.eraseDupsBy.loop, List.eraseDupsBy.loop, hany, ih, ← List.map_cons,
        ih]
      split <;> rfl
  exact hloop as []

namespace Script

theorem signatures_untyped (s : Script) :
    s.untyped.signatures = s.signatures.map Signature.untyped := by
  have hmap : s.untyped.functions.filterMap Function.signature? =
      (s.functions.filterMap Function.signature?).map Signature.untyped := by
    rw [untyped, List.filterMap_map, List.map_filterMap]
    refine List.filterMap_congr fun f _ => ?_
    simp only [Function.comp_apply, Function.signature?, Function.untyped, Option.map_map]
    rfl
  rw [signatures, signatures, hmap]
  exact eraseDupsBy_map (fun f g => rfl) _

theorem fatesFrom_untyped (signatures : List Signature) (seen : List String)
    (fs : List Function) :
    fatesFrom (signatures.map Signature.untyped) seen (fs.map Function.untyped) =
      (fatesFrom signatures seen fs).map Fate.untyped := by
  induction fs generalizing seen with
  | nil => rfl
  | cons f fs ih =>
    obtain ⟨name, location, returnType, parameters, locals, body⟩ := f
    cases name with
    | none => cases body <;> exact congrArg (Fate.incomplete location :: ·) (ih seen)
    | some name =>
      cases body with
      | none => exact congrArg (Fate.incomplete location :: ·) (ih seen)
      | some body =>
        have hfind : (signatures.map Signature.untyped).find? (·.name = name) =
            (signatures.find? (·.name = name)).map Signature.untyped := List.find?_map ..
        simp only [List.map_cons, Function.untyped, fatesFrom, ih, hfind]
        split
        · rfl
        · cases signatures.find? (·.name = name) <;> rfl

theorem startScope_untyped (s : Script) : s.untyped.startScope = s.startScope.untyped := by
  rw [startScope, startScope, signatures_untyped]
  rfl

theorem functionScope_untyped (s : Script) :
    s.untyped.functionScope = s.functionScope.untyped := by
  rw [functionScope, functionScope, startScope_untyped, ← Stmt.scopeAfter_untyped]
  rfl

theorem fates_untyped (s : Script) : s.untyped.fates = s.fates.map Fate.untyped := by
  rw [fates, fates, signatures_untyped]
  exact fatesFrom_untyped _ _ _

theorem definitions_untyped (s : Script) :
    s.untyped.definitions = s.definitions.map Definition.untyped := by
  rw [definitions, definitions, fates_untyped, List.filterMap_map, List.map_filterMap]
  refine List.filterMap_congr fun fate _ => ?_
  cases fate <;> rfl

/-- Nothing that is found in a script depends on types. -/
theorem findings_untyped (s : Script) : s.untyped.findings = s.findings := by
  have hentry : s.untyped.entryFindings = s.entryFindings := by
    rw [entryFindings, entryFindings, startScope_untyped, Stmt.findings_untyped]
    rfl
  rw [findings, findings, hentry, functionScope_untyped, fates_untyped, List.flatMap_map]
  simp only [Fate.findings_untyped]

theorem causes_untyped (s : Script) : s.untyped.causes = s.causes := by
  rw [causes, causes, findings_untyped]

theorem breakdown?_untyped (s : Script) : s.untyped.breakdown? = s.breakdown? := by
  rw [breakdown?, breakdown?, findings_untyped]

theorem entryCode_untyped (s : Script) : s.untyped.entryCode = s.entryCode := by
  rw [entryCode, entryCode, startScope_untyped, Stmt.code_untyped]
  rfl

theorem entriesFrom_untyped (σ : Scope) (address : Nat) (ds : List Definition) :
    entriesFrom σ.untyped address (ds.map Definition.untyped) = entriesFrom σ address ds := by
  induction ds generalizing address with
  | nil => rfl
  | cons d ds ih =>
    have hlength : (d.untyped.code σ.untyped).length = (d.code σ).length := by
      simpa using congrArg List.length (d.code_untyped σ)
    rw [List.map_cons, entriesFrom, entriesFrom, hlength, ih]
    rfl

/-- Without comments the program of a script does not depend on types. -/
theorem program_untyped (s : Script) : s.untyped.program false = s.program false := by
  have hentries : s.untyped.entries = s.entries := by
    rw [entries, entries, functionScope_untyped, entryCode_untyped, definitions_untyped,
      entriesFrom_untyped]
  have hcode : s.untyped.code.map Draft.uncommented = s.code.map Draft.uncommented := by
    rw [code, code, entryCode_untyped, functionScope_untyped, definitions_untyped,
      List.flatMap_map, List.map_append, List.map_append, List.map_flatMap, List.map_flatMap]
    simp only [Definition.code_untyped]
  rw [program, program, hentries, ← Draft.link_uncommented, hcode, Draft.link_uncommented,
    functionScope_untyped]
  rfl

end Script

/-! ## Programs without comments -/

/-- An instruction without its comment. -/
def Instruction.uncommented (i : Instruction) : Instruction := { i with comment := none }

/-- A program without comments. -/
def Program.uncommented (p : Program) : Program :=
  { p with code := p.code.map Instruction.uncommented }

theorem Draft.map_uncommented_link (comments : Bool) (entries : List (String × Nat))
    (address : Nat) (ds : List Draft) :
    (link comments entries address ds).map Instruction.uncommented =
      link false entries address ds := by
  induction ds generalizing address with
  | nil => rfl
  | cons d ds ih =>
    rw [link, link, List.map_cons, ih]
    rfl

/-- The option for comments chooses nothing else. -/
theorem Script.uncommented_program (comments : Bool) (s : Script) :
    (s.program comments).uncommented = s.program false := by
  simp only [Program.uncommented, Script.program, List.map_toArray, Draft.map_uncommented_link]

namespace Generation

/-- A generation comes to this program, comments apart, and reports these causes. -/
def Yields (limit : Int) (program : Program) (causes : List Cause) (g : Generation) : Prop :=
  ∃ p report, g.result = .ok (p, report) ∧ p.uncommented = program ∧ Reports limit causes report

theorem yields_ofScript {s : Script} (h : s.breakdown? = none) (options : CompileOptions)
    (lines : List String) :
    (ofScript options lines s).Yields options.limit (s.program false) s.causes := by
  obtain ⟨report, hresult, hreports⟩ := exists_result_ofScript h options lines
  exact ⟨_, report, hresult, s.uncommented_program _, hreports⟩

theorem yields_ofTree {t : Tree} (h : Script.ofTree? t = none) (options : CompileOptions)
    (lines : List String) :
    (ofTree options lines t).Yields options.limit {} [.misuse (.notProgram t.kind)] := by
  obtain ⟨report, hresult, hreports⟩ := exists_result_ofTree h options lines
  exact ⟨_, report, hresult, by simp [Program.uncommented], hreports⟩

/-- A function with these attributes that assigns to a variable that is not there. -/
def straying (attributes : Tree.Attributes) (location : Option Location) : Tree :=
  { kind := .program
    children := [
      { kind := .function, attributes, location
        children := [
          { kind := .parameterList },
          { kind := .block
            children := [
              { kind := .assignment, attributes := [("name", "x")], location
                children := [{ kind := .number, value := some "1", location }] }] }] }] }

end Generation

end StackLang
