import StackLang.Proofs.Meaning
import StackLang.Proofs.Shape
import StackLang.Script.Finding

/-!
# Findings along the text

The nodes of a statement in the order of the text are the order in which names become known. So
nothing is found in a statement exactly if every node is right in the scope that the nodes before it
leave, and the scope after the statement is the one after its last node.
-/

namespace StackLang

open Meaning (declares? declaredNames)
open StackLang.Tree

namespace Scope

/-- The scope after a node. -/
def pass (σ : Scope) (n : Tree) : Scope :=
  match declares? n with
  | some name => σ.declare name
  | none => σ

/-- The scope after nodes. -/
def passAll (σ : Scope) (ns : List Tree) : Scope := ns.foldl pass σ

/-- Whether a call of a name with a number of arguments is right. -/
def AdmitsCall (σ : Scope) (callee : Option String) (count : Nat) : Prop :=
  if σ.prints callee then count = 1
  else ∃ f, σ.signature? callee = some f ∧ count = f.arity

/-- What is asked of a node in the scope that holds right after it. -/
def Admits (σ : Scope) (n : Tree) : Prop :=
  match n.kind with
  | .number => (n.value.getD "").length ≤ Text.digitLimit
  | .identifier => (σ.resolve? n.value).isSome
  | .assignment => (σ.resolve? (n.get? "name")).isSome
  | .functionCall => σ.AdmitsCall (n.get? "name") n.children.length
  | .giveBack => σ.inside.isSome
  | .function => False
  | _ => True

/-- Every node is right in the scope that the nodes up to it leave. -/
def Checked (σ : Scope) : List Tree → Prop
  | [] => True
  | n :: ns => (σ.pass n).Admits n ∧ (σ.pass n).Checked ns

theorem checked_cons (σ : Scope) (n : Tree) (ns : List Tree) :
    σ.Checked (n :: ns) ↔ (σ.pass n).Admits n ∧ (σ.pass n).Checked ns := Iff.rfl

@[simp] theorem passAll_nil (σ : Scope) : σ.passAll [] = σ := rfl

@[simp] theorem passAll_cons (σ : Scope) (n : Tree) (ns : List Tree) :
    σ.passAll (n :: ns) = (σ.pass n).passAll ns := rfl

@[simp] theorem passAll_append (σ : Scope) (ns ks : List Tree) :
    σ.passAll (ns ++ ks) = (σ.passAll ns).passAll ks := List.foldl_append

theorem checked_append (σ : Scope) (ns ks : List Tree) :
    σ.Checked (ns ++ ks) ↔ σ.Checked ns ∧ (σ.passAll ns).Checked ks := by
  induction ns generalizing σ with
  | nil => simp [Checked]
  | cons n ns ih => simp only [List.cons_append, checked_cons, passAll_cons, ih, and_assoc]

theorem pass_eq_self (σ : Scope) {n : Tree} (h : n.kind ≠ .variableDeclaration) : σ.pass n = σ := by
  rw [pass, declares?, if_neg h]

/-- Inside a function a declaration takes the next word of the frame. -/
theorem declare_of_inside {σ : Scope} {f : Signature} (h : σ.inside = some f) (name : String) :
    σ.declare name =
      { σ with
        locals := (some name, σ.frameSize) :: σ.locals, frameSize := σ.frameSize + 1 } := by
  rw [declare, h]

/-- A node that asks for nothing and declares nothing. -/
theorem checked_cons_plain (σ : Scope) (kind : Kind) (location : Location)
    (children ns : List Tree)
    (h : kind = .block ∨ kind = .conditional ∨ kind = .elseIf ∨ kind = .otherwise ∨ kind = .loop ∨
      kind = .program) :
    σ.Checked (Grammar.plainNode kind location children :: ns) ↔ σ.Checked ns := by
  have hpass : σ.pass (Grammar.plainNode kind location children) = σ := by
    apply pass_eq_self
    rcases h with rfl | rfl | rfl | rfl | rfl | rfl <;> simp [Grammar.plainNode]
  rw [checked_cons, hpass]
  rcases h with rfl | rfl | rfl | rfl | rfl | rfl <;> simp [Admits, Grammar.plainNode]

theorem passAll_cons_plain (σ : Scope) {kind : Kind} (location : Location) (children ns : List Tree)
    (h : kind ≠ .variableDeclaration) :
    σ.passAll (Grammar.plainNode kind location children :: ns) = σ.passAll ns := by
  rw [passAll_cons, pass_eq_self]
  exact h

end Scope

/-! ## Values -/

theorem Tree.walk_mk (kind : Kind) (value : Option String) (attributes : Attributes)
    (children : List Tree) (location : Option Location) :
    walk ⟨kind, value, attributes, children, location⟩ =
      ⟨kind, value, attributes, children, location⟩ :: walkAll children := by
  rw [walk]

theorem Tree.walk_operatorNode (kind : Kind) (op : Operator) (left right : Tree)
    (location : Option Location) :
    (operatorNode kind op left right location).walk =
      operatorNode kind op left right location :: (left.walk ++ right.walk) := by
  rw [operatorNode, walk_mk, walkAll, walkAll, walkAll, List.append_nil]

theorem Scope.variableFindings_eq_nil {σ : Scope} {name : Option String}
    {location : Option Location} :
    σ.variableFindings name location = [] ↔ (σ.resolve? name).isSome := by
  unfold Scope.variableFindings
  cases σ.resolve? name <;> simp

theorem Scope.callFindings_eq_nil {σ : Scope} {callee : Option String} {count : Nat}
    {location : Option Location} :
    σ.callFindings callee count location = [] ↔
      ∃ f, σ.signature? callee = some f ∧ count = f.arity := by
  unfold Scope.callFindings
  cases σ.signature? callee with
  | none => simp
  | some f =>
    by_cases h : count = f.arity <;> simp [h]

/-- What is found in a list of values is found in one of them. -/
theorem Expr.findingsAll_eq_nil {σ : Scope} {es : List Expr} :
    Expr.findingsAll σ es = [] ↔ ∀ e ∈ es, e.findings σ = [] := by
  induction es with
  | nil => simp [Expr.findingsAll]
  | cons e es ih => simp [Expr.findingsAll, ih]

theorem Expr.findings_call {σ : Scope} {callee : Option String} {arguments : List Expr}
    {location : Option Location} :
    (Expr.call callee arguments location).findings σ = [] ↔
      (∀ e ∈ arguments, e.findings σ = []) ∧ σ.AdmitsCall callee arguments.length := by
  rw [Expr.findings, Scope.AdmitsCall]
  by_cases hprints : σ.prints callee = true
  · rw [if_pos hprints, if_pos hprints, List.append_eq_nil_iff, Expr.findingsAll_eq_nil, and_comm]
    by_cases hone : arguments.length = 1 <;> simp [hone]
  · rw [if_neg hprints, if_neg hprints, List.append_eq_nil_iff, Expr.findingsAll_eq_nil,
      Scope.callFindings_eq_nil]

/-- Values declare nothing. -/
theorem Tree.IsValue.passAll_walk {t : Tree} (h : t.IsValue) (σ : Scope) :
    σ.passAll t.walk = σ := by
  induction h with
  | number digits location => rfl
  | name name location => rfl
  | negate operand location _ ih =>
    rw [walk_mk, Scope.passAll_cons, walkAll, walkAll, List.append_nil]
    exact ih
  | operator kind op left right location _ htakes _ _ ihl ihr =>
    have hpass : σ.pass (operatorNode kind op left right location) = σ := by
      apply Scope.pass_eq_self
      rintro rfl
      cases htakes
    rw [walk_operatorNode, Scope.passAll_cons, hpass, Scope.passAll_append, ihl, ihr]
  | call name arguments location _ ih =>
    rw [walk_mk, Scope.passAll_cons]
    change σ.passAll (walkAll arguments) = σ
    clear * - ih
    induction arguments with
    | nil => rfl
    | cons a as ihas =>
      rw [walkAll, Scope.passAll_append, ih a List.mem_cons_self]
      exact ihas fun b hb => ih b (List.mem_cons_of_mem a hb)

/-- Nodes of values one after the other are checked in one scope. -/
theorem checked_walkAll {ts : List Tree} (h : ∀ t ∈ ts, t.IsValue) (σ : Scope) :
    σ.Checked (walkAll ts) ↔ ∀ t ∈ ts, σ.Checked t.walk := by
  induction ts with
  | nil => simp [walkAll, Scope.Checked]
  | cons t ts ih =>
    rw [walkAll, Scope.checked_append, (h t List.mem_cons_self).passAll_walk,
      ih fun u hu => h u (List.mem_cons_of_mem t hu), List.forall_mem_cons]

/-- The nodes of an operator are checked if those of its operands are. -/
theorem checked_operatorNode {kind : Kind} {op : Operator} {left right : Tree}
    {location : Option Location} (htakes : kind.takes op = true) (hleft : left.IsValue)
    (σ : Scope) :
    σ.Checked (operatorNode kind op left right location).walk ↔
      σ.Checked left.walk ∧ σ.Checked right.walk := by
  have hpass : σ.pass (operatorNode kind op left right location) = σ := by
    apply Scope.pass_eq_self
    rintro rfl
    cases htakes
  have hadmits : σ.Admits (operatorNode kind op left right location) := by
    cases kind <;> first | cases htakes | exact trivial
  rw [walk_operatorNode, Scope.checked_cons, hpass, Scope.checked_append, hleft.passAll_walk]
  exact and_iff_right hadmits

/-- Nothing is found in a value if and only if its nodes are checked. -/
theorem Tree.IsValue.findings_eq_nil {t : Tree} (h : t.IsValue) (σ : Scope) :
    (Expr.ofTree t).findings σ = [] ↔ σ.Checked t.walk := by
  induction h with
  | number digits location hne hdigits =>
    rw [Expr.ofTree_number location hne hdigits, Expr.findings, walk_mk]
    simp [Scope.Checked, Scope.pass, declares?, Scope.Admits, walkAll]
  | name name location =>
    rw [Expr.ofTree_name, Expr.findings, walk_mk, Scope.variableFindings_eq_nil]
    simp [Scope.Checked, Scope.pass, declares?, Scope.Admits, walkAll]
  | negate operand location _ ih =>
    rw [Expr.ofTree_negate, Expr.findings, ih, walk_mk, walkAll, walkAll, List.append_nil,
      Scope.checked_cons]
    exact (and_iff_right trivial).symm
  | operator kind op left right location _ htakes hleft _ ihl ihr =>
    rw [Expr.ofTree_operatorNode left right location htakes, Expr.findings,
      List.append_eq_nil_iff, ihl, ihr, checked_operatorNode htakes hleft]
  | call name arguments location hvalues ih =>
    have hwalk : σ.Checked (walkAll arguments) ↔ ∀ e ∈ arguments.map Expr.ofTree,
        e.findings σ = [] := by
      rw [checked_walkAll hvalues, List.forall_mem_map]
      exact forall₂_congr fun a ha => (ih a ha).symm
    rw [Expr.ofTree_call, Expr.findings_call, walk_mk, Scope.checked_cons, List.length_map,
      and_comm, ← hwalk]
    exact Iff.rfl

theorem Tree.IsCondition.findings_eq_nil {t : Tree} (h : t.IsCondition) (σ : Scope) :
    (Expr.ofTree t).findings σ = [] ↔ σ.Checked t.walk := by
  cases h with
  | mk op left right location htakes hleft hright =>
    rw [Expr.ofTree_operatorNode left right location htakes, Expr.findings,
      List.append_eq_nil_iff, hleft.findings_eq_nil, hright.findings_eq_nil,
      checked_operatorNode htakes hleft]

theorem Tree.IsCondition.passAll_walk {t : Tree} (h : t.IsCondition) (σ : Scope) :
    σ.passAll t.walk = σ := by
  cases h with
  | mk op left right location htakes hleft hright =>
    have hpass : σ.pass (operatorNode .condition op left right location) = σ :=
      Scope.pass_eq_self σ (by simp [operatorNode])
    rw [walk_operatorNode, Scope.passAll_cons, hpass, Scope.passAll_append, hleft.passAll_walk,
      hright.passAll_walk]

/-! ## Statements -/

/-- What holds of a statement with some nodes: its findings are those of the nodes, and so is the
scope after it. -/
structure Stmt.Follows (s : Stmt) (ns : List Tree) : Prop where
  findings (σ : Scope) : s.findings σ = [] ↔ σ.Checked ns
  scopeAfter (σ : Scope) : σ.Checked ns → s.scopeAfter σ = σ.passAll ns

theorem Stmt.follows_ofTrees {ts : List Tree} (h : ∀ t ∈ ts, (Stmt.ofTree t).Follows t.walk) :
    (Stmt.ofTrees ts).Follows (walkAll ts) := by
  induction ts with
  | nil => exact ⟨fun σ => by simp [Stmt.ofTrees, Stmt.findings, walkAll, Scope.Checked],
      fun σ _ => rfl⟩
  | cons t ts ih =>
    have ht := h t List.mem_cons_self
    have hts := ih fun u hu => h u (List.mem_cons_of_mem t hu)
    constructor
    · intro σ
      rw [Stmt.ofTrees, Stmt.findings, List.append_eq_nil_iff, walkAll, Scope.checked_append,
        ht.findings]
      refine and_congr_right fun hchecked => ?_
      rw [ht.scopeAfter σ hchecked, hts.findings]
    · intro σ hchecked
      rw [walkAll, Scope.checked_append] at hchecked
      obtain ⟨hfirst, hsecond⟩ := hchecked
      rw [Stmt.ofTrees, Stmt.scopeAfter, walkAll, Scope.passAll_append, ht.scopeAfter σ hfirst,
        hts.scopeAfter _ hsecond]

/-- A branch with its condition, its block and the rest of the chain. -/
theorem Stmt.Follows.branch {condition : Tree} {yes no : Stmt} {ns ks : List Tree}
    (hcondition : condition.IsCondition) (hyes : yes.Follows ns) (hno : no.Follows ks)
    (chained : Bool) :
    (Stmt.branch chained (Expr.ofTree condition) yes no).Follows (condition.walk ++ ns ++ ks) := by
  constructor
  · intro σ
    rw [Stmt.findings, List.append_eq_nil_iff, List.append_eq_nil_iff, Scope.checked_append,
      Scope.checked_append, hcondition.findings_eq_nil, Scope.passAll_append,
      hcondition.passAll_walk, hyes.findings]
    refine and_congr_right fun hchecked => ?_
    rw [hyes.scopeAfter σ hchecked.2, hno.findings]
  · intro σ hchecked
    rw [Scope.checked_append, Scope.checked_append, Scope.passAll_append,
      hcondition.passAll_walk] at hchecked
    obtain ⟨⟨_, hns⟩, hks⟩ := hchecked
    rw [Stmt.scopeAfter, Scope.passAll_append, Scope.passAll_append, hcondition.passAll_walk,
      hyes.scopeAfter σ hns, hno.scopeAfter _ hks]

/-- A node that asks for nothing and declares nothing may stand before the others. -/
theorem Stmt.Follows.cons {s : Stmt} {ns : List Tree} (h : s.Follows ns) {kind : Kind}
    (location : Location) (children : List Tree)
    (hkind : kind = .block ∨ kind = .conditional ∨ kind = .elseIf ∨ kind = .otherwise ∨
      kind = .loop ∨ kind = .program) :
    s.Follows (Grammar.plainNode kind location children :: ns) := by
  have hdeclaration : kind ≠ .variableDeclaration := by
    rcases hkind with rfl | rfl | rfl | rfl | rfl | rfl <;> decide
  constructor
  · intro σ
    rw [Scope.checked_cons_plain σ kind location children ns hkind, h.findings]
  · intro σ hchecked
    rw [Scope.checked_cons_plain σ kind location children ns hkind] at hchecked
    rw [Scope.passAll_cons_plain σ location children ns hdeclaration, h.scopeAfter σ hchecked]

theorem Tree.walk_plainNode (kind : Kind) (location : Location) (children : List Tree) :
    (Grammar.plainNode kind location children).walk =
      Grammar.plainNode kind location children :: walkAll children := by
  rw [Grammar.plainNode, walk_mk]

theorem Stmt.follows_block (place : Location) {body : List Tree}
    (h : ∀ t ∈ body, (Stmt.ofTree t).Follows t.walk) :
    (Stmt.ofTrees body).Follows (blockNode place body).walk := by
  rw [blockNode, walk_plainNode]
  exact (follows_ofTrees h).cons place body (.inl rfl)

theorem Stmt.follows_ofChain {rest : Chain} (hconditions : ∀ c ∈ rest.conditions, c.IsCondition)
    (h : ∀ t ∈ rest.statements, (Stmt.ofTree t).Follows t.walk) :
    (Stmt.ofChain rest).Follows (walkAll rest.trees) := by
  induction rest with
  | none => exact ⟨fun σ => by simp [Stmt.ofChain, Stmt.findings, Chain.trees, walkAll,
      Scope.Checked], fun σ _ => rfl⟩
  | otherwise location place body =>
    rw [Chain.trees, walkAll, walkAll, List.append_nil, walk_plainNode, walkAll, walkAll,
      List.append_nil]
    exact (follows_block place h).cons location _ (.inr (.inr (.inr (.inl rfl))))
  | elseIf location place condition body rest ih =>
    have hcondition := hconditions condition List.mem_cons_self
    have hbody := follows_block place fun t ht => h t (List.mem_append_left _ ht)
    have hrest := ih (fun c hc => hconditions c (List.mem_cons_of_mem _ hc))
      fun t ht => h t (List.mem_append_right _ ht)
    have hbranch := Follows.branch hcondition hbody hrest true
    rw [Chain.trees, walkAll, walk_plainNode, walkAll, walkAll, walkAll, List.append_nil,
      List.cons_append]
    exact hbranch.cons location _ (.inr (.inr (.inl rfl)))

theorem Stmt.follows_value {t : Tree} (h : t.IsValue) : (Stmt.ofTree t).Follows t.walk := by
  rw [Stmt.ofTree_value h]
  constructor
  · intro σ
    rw [Stmt.findings, h.findings_eq_nil]
  · intro σ _
    exact (h.passAll_walk σ).symm

theorem Stmt.follows_declaration (location : Location) (name type : String) {value : Option Tree}
    (h : ∀ v ∈ value, v.IsValue) :
    (Stmt.ofTree (Grammar.declarationNode location name type value)).Follows
      (Grammar.declarationNode location name type value).walk := by
  have hpass (σ : Scope) :
      σ.pass (Grammar.declarationNode location name type value) = σ.declare name := rfl
  have hwalk : (Grammar.declarationNode location name type value).walk =
      Grammar.declarationNode location name type value :: walkAll value.toList := by
    rw [Grammar.declarationNode, walk_mk]
  rw [Stmt.ofTree_declaration, hwalk]
  constructor
  · intro σ
    rw [Stmt.findings, Scope.checked_cons, hpass]
    refine Iff.trans ?_ (and_iff_right trivial).symm
    cases value with
    | none => simp [Expr.findings?, walkAll, Scope.Checked]
    | some v =>
      simp only [Expr.findings?, Option.map_some, Option.getD_some, Option.toList_some, walkAll,
        List.append_nil]
      exact (h v rfl).findings_eq_nil _
  · intro σ _
    rw [Stmt.scopeAfter, Scope.passAll_cons, hpass]
    cases value with
    | none => rfl
    | some v =>
      rw [Option.toList_some, walkAll, walkAll, List.append_nil, (h v rfl).passAll_walk]

/-- Findings and scopes of a statement follow its nodes. -/
theorem Tree.IsStatement.follows {t : Tree} (h : t.IsStatement) :
    (Stmt.ofTree t).Follows t.walk := by
  induction h with
  | function location start place name type parameters body =>
    constructor
    · intro σ
      rw [Stmt.ofTree_function, Stmt.findings, Grammar.functionNode, walk_mk, Scope.checked_cons]
      exact ⟨fun hnil => (by cases hnil), fun hchecked => hchecked.1.elim⟩
    · intro σ hchecked
      rw [Grammar.functionNode, walk_mk, Scope.checked_cons] at hchecked
      exact hchecked.1.elim
  | declaration location name type value hvalue =>
    exact Stmt.follows_declaration location name type hvalue
  | assignment location name value hvalue =>
    have hwalk : (Grammar.assignmentNode location name value).walk =
        Grammar.assignmentNode location name value :: value.walk := by
      rw [Grammar.assignmentNode, walk_mk, walkAll, walkAll, List.append_nil]
    have hpass (σ : Scope) : σ.pass (Grammar.assignmentNode location name value) = σ := rfl
    rw [Stmt.ofTree_assignment, hwalk]
    constructor
    · intro σ
      rw [Stmt.findings, List.append_eq_nil_iff, Scope.variableFindings_eq_nil,
        hvalue.findings_eq_nil, Scope.checked_cons, hpass, and_comm]
      exact Iff.rfl
    · intro σ _
      exact (hvalue.passAll_walk σ).symm
  | conditional location place condition body rest hcondition hbody hconditions hrest ihbody
    ihrest =>
    have hbranch := Stmt.Follows.branch hcondition (Stmt.follows_block place ihbody)
      (Stmt.follows_ofChain hconditions ihrest) false
    rw [Stmt.ofTree_conditional location place body rest hcondition, walk_plainNode, walkAll,
      walkAll, ← List.append_assoc]
    exact hbranch.cons location _ (.inr (.inl rfl))
  | loop location place condition body hcondition hbody ihbody =>
    have hblock := Stmt.follows_block place ihbody
    have hloop : (Stmt.loop (Expr.ofTree condition) (Stmt.ofTrees body)).Follows
        (condition.walk ++ (blockNode place body).walk) := by
      constructor
      · intro σ
        rw [Stmt.findings, List.append_eq_nil_iff, Scope.checked_append,
          hcondition.findings_eq_nil, hcondition.passAll_walk, hblock.findings]
      · intro σ hchecked
        rw [Scope.checked_append, hcondition.passAll_walk] at hchecked
        rw [Stmt.scopeAfter, Scope.passAll_append, hcondition.passAll_walk,
          hblock.scopeAfter σ hchecked.2]
    rw [Stmt.ofTree_loop, walk_plainNode, walkAll, walkAll, walkAll, List.append_nil]
    exact hloop.cons location _ (.inr (.inr (.inr (.inr (.inl rfl)))))
  | giveBack location value hvalue =>
    have hpass (σ : Scope) : σ.pass (Grammar.plainNode .giveBack location [value]) = σ := rfl
    rw [Stmt.ofTree_giveBack, walk_plainNode, walkAll, walkAll, List.append_nil]
    constructor
    · intro σ
      rw [Stmt.findings, Scope.checked_cons, hpass]
      cases hinside : σ.inside with
      | none =>
        simp [Scope.Admits, Grammar.plainNode, hinside]
      | some f =>
        have hadmits : σ.Admits (Grammar.plainNode .giveBack location [value]) := by
          simp [Scope.Admits, Grammar.plainNode, hinside]
        rw [and_iff_right hadmits]
        simpa [Expr.findings?] using hvalue.findings_eq_nil σ
    · intro σ _
      exact (hvalue.passAll_walk σ).symm
  | value t hvalue => exact Stmt.follows_value hvalue

/-! ## Declarations -/

theorem Scope.passAll_eq_foldl (σ : Scope) (ns : List Tree) :
    σ.passAll ns = (ns.filterMap declares?).foldl declare σ := by
  induction ns generalizing σ with
  | nil => rfl
  | cons n ns ih =>
    rw [passAll_cons, ih, pass]
    cases hname : declares? n <;> simp [hname]

/-- Where all nodes are checked, none of them is a function. -/
theorem Scope.Checked.kind_ne_function {σ : Scope} {ns : List Tree} (h : σ.Checked ns) :
    ∀ n ∈ ns, n.kind ≠ .function := by
  induction ns generalizing σ with
  | nil => simp
  | cons n ns ih =>
    intro k hk
    rcases List.mem_cons.mp hk with rfl | hk
    · intro hkind
      have hadmits := h.1
      rw [Admits, hkind] at hadmits
      exact hadmits
    · exact ih h.2 k hk

/-- The declarations of a tree are counted as often as its nodes declare a name. -/
def Tree.Counted (t : Tree) : Prop :=
  t.declarations = (t.walk.filterMap declares?).length

theorem Tree.declarations_mk (kind : Kind) (value : Option String) (attributes : Attributes)
    (children : List Tree) (location : Option Location) (h : kind ≠ .function) :
    declarations ⟨kind, value, attributes, children, location⟩ =
      (if kind = .variableDeclaration then 1 else 0) + declarationsAll children := by
  rw [declarations, if_neg h]

theorem Tree.declarationsAll_eq {ts : List Tree} (h : ∀ t ∈ ts, t.Counted) :
    declarationsAll ts = (declaredNames ts).length := by
  unfold declaredNames
  induction ts with
  | nil => rfl
  | cons t ts ih =>
    rw [declarationsAll, walkAll, List.filterMap_append, List.length_append,
      ih fun u hu => h u (List.mem_cons_of_mem t hu), h t List.mem_cons_self]

/-- A node that declares nothing itself is counted if its children are. -/
theorem Tree.counted_mk {kind : Kind} {value : Option String} {attributes : Attributes}
    {children : List Tree} {location : Option Location} (hfunction : kind ≠ .function)
    (hdeclaration : kind ≠ .variableDeclaration) (h : ∀ t ∈ children, t.Counted) :
    Counted ⟨kind, value, attributes, children, location⟩ := by
  have hnone : declares? ⟨kind, value, attributes, children, location⟩ = none := by
    rw [declares?, if_neg hdeclaration]
  rw [Counted, declarations_mk _ _ _ _ _ hfunction, if_neg hdeclaration, walk_mk,
    List.filterMap_cons_none hnone, declarationsAll_eq h, Nat.zero_add]
  rfl

theorem Tree.IsValue.counted {t : Tree} (h : t.IsValue) : t.Counted := by
  induction h with
  | number digits location => exact counted_mk (by decide) (by decide) (by simp)
  | name name location => exact counted_mk (by decide) (by decide) (by simp)
  | negate operand location _ ih => exact counted_mk (by decide) (by decide) (by simpa using ih)
  | operator kind op left right location _ htakes _ _ ihl ihr =>
    apply counted_mk
    · rintro rfl
      cases htakes
    · rintro rfl
      cases htakes
    · simp [ihl, ihr]
  | call name arguments location _ ih => exact counted_mk (by decide) (by decide) ih

theorem Tree.IsCondition.counted {t : Tree} (h : t.IsCondition) : t.Counted := by
  cases h with
  | mk op left right location htakes hleft hright =>
    exact counted_mk (by decide) (by decide) (by simp [hleft.counted, hright.counted])

theorem Tree.Chain.counted {rest : Chain} (hconditions : ∀ c ∈ rest.conditions, c.IsCondition)
    (h : ∀ t ∈ rest.statements, t.Counted) : ∀ t ∈ rest.trees, t.Counted := by
  induction rest with
  | none => simp [Chain.trees]
  | otherwise location place body =>
    have hblock : (blockNode place body).Counted := counted_mk (by decide) (by decide) h
    have hnode : (Grammar.plainNode .otherwise location [blockNode place body]).Counted :=
      counted_mk (by decide) (by decide) (by simpa using hblock)
    simpa [Chain.trees] using hnode
  | elseIf location place condition body rest ih =>
    have hcondition := (hconditions condition List.mem_cons_self).counted
    have hblock : (blockNode place body).Counted :=
      counted_mk (by decide) (by decide) fun t ht => h t (List.mem_append_left _ ht)
    have hnode : (Grammar.plainNode .elseIf location [condition, blockNode place body]).Counted :=
      counted_mk (by decide) (by decide) (by simp [hcondition, hblock])
    have hrest := ih (fun c hc => hconditions c (List.mem_cons_of_mem _ hc))
      fun t ht => h t (List.mem_append_right _ ht)
    exact List.forall_mem_cons.mpr ⟨hnode, hrest⟩

theorem Tree.walk_eq_cons (t : Tree) : t.walk = t :: walkAll t.children := by
  cases t
  rw [walk_mk]

theorem Tree.mem_walk_self (t : Tree) : t ∈ t.walk := by
  rw [walk_eq_cons]
  exact List.mem_cons_self

theorem Tree.mem_walkAll {n : Tree} {ts : List Tree} : n ∈ walkAll ts ↔ ∃ t ∈ ts, n ∈ t.walk := by
  rw [walkAll_eq_flatMap, List.mem_flatMap]

theorem Tree.forall_mem_walkAll {p : Tree → Prop} {ts : List Tree} :
    (∀ n ∈ walkAll ts, p n) ↔ ∀ t ∈ ts, ∀ n ∈ t.walk, p n := by
  simp only [mem_walkAll]
  exact ⟨fun h t ht n hn => h n ⟨t, ht, hn⟩, fun h n ⟨t, ht, hn⟩ => h t ht n hn⟩

theorem Tree.forall_mem_walk {p : Tree → Prop} {t : Tree} :
    (∀ n ∈ t.walk, p n) ↔ p t ∧ ∀ c ∈ t.children, ∀ n ∈ c.walk, p n := by
  rw [walk_eq_cons, List.forall_mem_cons, forall_mem_walkAll]

theorem Tree.Chain.mem_walkAll_trees {rest : Chain} {t n : Tree} (ht : t ∈ rest.statements)
    (hn : n ∈ t.walk) : n ∈ walkAll rest.trees := by
  induction rest with
  | none => cases ht
  | otherwise location place body =>
    have hbody : n ∈ walkAll body := mem_walkAll.mpr ⟨t, ht, hn⟩
    simp [Chain.trees, walkAll, walk_plainNode, blockNode, hbody]
  | elseIf location place condition body rest ih =>
    rcases List.mem_append.mp ht with ht | ht
    · have hbody : n ∈ walkAll body := mem_walkAll.mpr ⟨t, ht, hn⟩
      simp [Chain.trees, walkAll, walk_plainNode, blockNode, hbody]
    · simp [Chain.trees, walkAll, ih ht]

/-- Without functions inside it, all declarations of a statement are counted. -/
theorem Tree.IsStatement.counted {t : Tree} (h : t.IsStatement)
    (hfree : ∀ n ∈ t.walk, n.kind ≠ .function) : t.Counted := by
  induction h with
  | function location start place name type parameters body =>
    exact absurd rfl (hfree _ (by rw [Grammar.functionNode, walk_mk]; exact List.mem_cons_self))
  | declaration location name type value hvalue =>
    have hvalues : ∀ v ∈ value.toList, v.Counted := fun v hv =>
      (hvalue v (Option.mem_toList.mp hv)).counted
    have hname : declares? (Grammar.declarationNode location name type value) = some name := rfl
    rw [Counted, Grammar.declarationNode, declarations_mk _ _ _ _ _ (by decide), if_pos rfl,
      declarationsAll_eq hvalues, walk_mk, ← Grammar.declarationNode,
      List.filterMap_cons_some hname, List.length_cons, Nat.add_comm]
    rfl
  | assignment location name value hvalue =>
    exact counted_mk (by decide) (by decide) (by simpa using hvalue.counted)
  | conditional location place condition body rest hcondition hbody hconditions hrest ihbody
    ihrest =>
    rw [walk_plainNode] at hfree
    have hblock : (blockNode place body).Counted := by
      refine counted_mk (by decide) (by decide) fun t ht => ihbody t ht fun n hn => hfree n ?_
      have hmem : n ∈ walkAll body := mem_walkAll.mpr ⟨t, ht, hn⟩
      simp [walkAll, blockNode, walk_plainNode, hmem]
    have hchain : ∀ t ∈ rest.trees, t.Counted := by
      refine Chain.counted hconditions fun t ht => ihrest t ht fun n hn => hfree n ?_
      simp [walkAll, Chain.mem_walkAll_trees ht hn]
    apply counted_mk (by decide) (by decide)
    exact List.forall_mem_cons.mpr ⟨hcondition.counted, List.forall_mem_cons.mpr ⟨hblock, hchain⟩⟩
  | loop location place condition body hcondition hbody ihbody =>
    rw [walk_plainNode] at hfree
    have hblock : (blockNode place body).Counted := by
      refine counted_mk (by decide) (by decide) fun t ht => ihbody t ht fun n hn => hfree n ?_
      have hmem : n ∈ walkAll body := mem_walkAll.mpr ⟨t, ht, hn⟩
      simp [walkAll, blockNode, walk_plainNode, hmem]
    exact counted_mk (by decide) (by decide) (by simp [hcondition.counted, hblock])
  | giveBack location value hvalue =>
    exact counted_mk (by decide) (by decide) (by simpa using hvalue.counted)
  | value t hvalue => exact hvalue.counted

end StackLang
