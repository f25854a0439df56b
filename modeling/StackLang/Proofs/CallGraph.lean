import Mathlib.Order.WellFoundedSet
import StackLang.Proofs.Targets
import StackLang.Proofs.WellFormed

/-!
# Calls between functions

Which functions a function calls is read off the tree. The code of statements without loops goes
forward only, and calls only what the tree calls. If no function calls itself, directly or through
others, the calls of a program have an order in which callees come before their callers, and a
quantity that depends on the callees is well defined for all functions.
-/

namespace StackLang

open StackLang.Tree (Parts blockNode)

/-! ## The call graph -/

namespace Tree

/-- Among these nodes there is a call of the function. -/
def Mentions (nodes : List Tree) (callee : String) : Prop :=
  ∃ n ∈ nodes, n.kind = .functionCall ∧ n.get? "name" = some callee

/-- The name is that of a function of the program. -/
def Defines (tree : Tree) (name : String) : Prop :=
  ∃ f ∈ tree.childrenOf .function, f.get? "name" = some name

/-- A function of the program has a call of the function in it. -/
def Mentioning (tree : Tree) (caller callee : String) : Prop :=
  ∃ f ∈ tree.childrenOf .function, f.get? "name" = some caller ∧ Mentions f.walk callee

/-- A function of the program calls a function of the program. -/
def Calls (tree : Tree) (caller callee : String) : Prop :=
  tree.Mentioning caller callee ∧ tree.Defines callee

/-- No function calls itself, directly or through others. -/
def IsAcyclic (tree : Tree) : Prop := ∀ name, ¬Relation.TransGen tree.Calls name name

/-- There is no loop in the tree. -/
def IsLoopFree (tree : Tree) : Prop := ∀ n ∈ tree.walk, n.kind ≠ .loop

instance (nodes : List Tree) (callee : String) : Decidable (Mentions nodes callee) :=
  List.decidableBEx _ _

instance (tree : Tree) (name : String) : Decidable (tree.Defines name) := List.decidableBEx _ _

instance (tree : Tree) (caller callee : String) : Decidable (tree.Mentioning caller callee) :=
  List.decidableBEx _ _

instance (tree : Tree) (caller callee : String) : Decidable (tree.Calls caller callee) :=
  inferInstanceAs (Decidable (_ ∧ _))

instance (tree : Tree) : Decidable tree.IsLoopFree := List.decidableBAll _ _

variable {tree : Tree} {caller callee : String}

/-- Whoever calls is a function of the program. -/
theorem Mentioning.defines (h : tree.Mentioning caller callee) : tree.Defines caller := by
  obtain ⟨f, hf, hname, -⟩ := h
  exact ⟨f, hf, hname⟩

/-- Calls of other names than those of functions lead nowhere. -/
theorem calls_of_mentioning (h : Relation.TransGen tree.Mentioning caller callee)
    (hdefines : tree.Defines callee) : Relation.TransGen tree.Calls caller callee := by
  induction h with
  | single hcall => exact .single ⟨hcall, hdefines⟩
  | tail _ hcall ih => exact (ih hcall.defines).tail ⟨hcall, hdefines⟩

theorem IsAcyclic.not_mentioning (h : tree.IsAcyclic) (name : String) :
    ¬Relation.TransGen tree.Mentioning name name := by
  intro hcycle
  obtain ⟨next, hcall, -⟩ := Relation.TransGen.head'_iff.mp hcycle
  exact h name (calls_of_mentioning hcycle hcall.defines)

/-- The names in functions, those of their own and those of what they call among them. -/
def involvedNames (tree : Tree) : List String :=
  (tree.childrenOf .function).flatMap fun f => f.walk.filterMap (·.get? "name")

theorem Mentioning.mem_involvedNames (h : tree.Mentioning caller callee) :
    caller ∈ tree.involvedNames ∧ callee ∈ tree.involvedNames := by
  obtain ⟨f, hf, hname, n, hn, -, hcallee⟩ := h
  constructor
  · exact List.mem_flatMap.mpr ⟨f, hf, List.mem_filterMap.mpr ⟨f, f.mem_walk_self, hname⟩⟩
  · exact List.mem_flatMap.mpr ⟨f, hf, List.mem_filterMap.mpr ⟨n, hn, hcallee⟩⟩

/-- There is no cycle if callees have lower ranks than their callers. -/
theorem isAcyclic_of_rank (rank : Option String → Nat)
    (h : ∀ f ∈ tree.childrenOf .function, ∀ n ∈ f.walk, n.kind = .functionCall →
      rank (n.get? "name") < rank (f.get? "name")) : tree.IsAcyclic := by
  have hcall {caller callee : String} (hcalls : tree.Calls caller callee) :
      rank (some callee) < rank (some caller) := by
    obtain ⟨⟨f, hf, hname, n, hn, hkind, hcallee⟩, -⟩ := hcalls
    rw [← hname, ← hcallee]
    exact h f hf n hn hkind
  have hpath {first last : String} (hcalls : Relation.TransGen tree.Calls first last) :
      rank (some last) < rank (some first) := by
    induction hcalls with
    | single hcalls => exact hcall hcalls
    | tail _ hcalls ih => exact Nat.lt_trans (hcall hcalls) ih
  exact fun name hcycle => Nat.lt_irrefl _ (hpath hcycle)

/-- Without a cycle callees come before their callers. -/
theorem IsAcyclic.wellFounded (h : tree.IsAcyclic) :
    WellFounded fun callee caller => tree.Mentioning caller callee := by
  let below := Relation.TransGen fun callee caller => tree.Mentioning caller callee
  have hirrefl : Std.Irrefl below :=
    ⟨fun name hcycle => h.not_mentioning name (Relation.transGen_swap.mp hcycle)⟩
  have hstrict : IsStrictOrder String below := { hirrefl with }
  have hfinite : {name | name ∈ tree.involvedNames}.Finite := List.finite_toSet _
  have hon : {name | name ∈ tree.involvedNames}.WellFoundedOn below := hfinite.wellFoundedOn
  refine Subrelation.wf ?_ (Set.wellFoundedOn_iff.mp hon)
  intro callee caller hcall
  have hmem := Mentioning.mem_involvedNames hcall
  exact ⟨.single hcall, hmem.2, hmem.1⟩

end Tree

/-! ## Code that goes forward -/

namespace Draft

/-- An action that goes forward: it jumps ahead, or calls one of these functions. -/
def Action.GoesForward (calls : String → Prop) : Action → Prop
  | .jump distance | .jumpIfZero distance => 0 < distance
  | .call callee _ => calls callee
  | .fixed _ => True

/-- Drafted code goes forward. -/
def GoForward (calls : String → Prop) (ds : List Draft) : Prop :=
  ∀ d ∈ ds, d.action.GoesForward calls

variable {calls : String → Prop} {d : Draft} {ds es condition yes no : List Draft}

theorem GoForward.append (hds : GoForward calls ds) (hes : GoForward calls es) :
    GoForward calls (ds ++ es) :=
  List.forall_mem_append.mpr ⟨hds, hes⟩

theorem GoForward.mono {calls' : String → Prop} (h : GoForward calls ds)
    (hcalls : ∀ callee, calls callee → calls' callee) : GoForward calls' ds := by
  intro d hd
  have hforward := h d hd
  cases haction : d.action <;> rw [haction] at hforward
  case call callee missing => exact hcalls callee hforward
  all_goals exact hforward

theorem goForward_nil : GoForward calls [] := List.forall_mem_nil _

theorem goForward_singleton (h : d.action.GoesForward calls) : GoForward calls [d] :=
  List.forall_mem_singleton.mpr h

theorem goForward_load (place : Place) (comment : String) :
    GoForward calls [load place comment] := by
  cases place <;> exact goForward_singleton trivial

theorem goForward_store (place : Place) (comment : String) :
    GoForward calls [store place comment] := by
  cases place <;> exact goForward_singleton trivial

theorem GoForward.branchCode (chained : Bool) (hcondition : GoForward calls condition)
    (hyes : GoForward calls yes) (hno : GoForward calls no) :
    GoForward calls (branchCode chained condition yes no) := by
  have hpastArm : (0 : Int) < yes.length + 2 := by omega
  have hpastRest : (0 : Int) < no.length + 1 := by omega
  refine (((hcondition.append ?_).append hyes).append ?_).append hno
  · exact goForward_singleton hpastArm
  · exact goForward_singleton hpastRest

end Draft

open Draft (GoForward goForward_nil goForward_singleton goForward_load goForward_store)

theorem Scope.goesForward_callDraft {calls : String → Prop} {name : String} (h : calls name)
    (σ : Scope) : (σ.callDraft (some name)).action.GoesForward calls := by
  unfold Scope.callDraft
  split
  · rename_i hname _
    obtain rfl := Option.some.inj hname
    exact h
  · trivial

namespace Expr

/-- The code of an expression goes forward. -/
def GoesForward (calls : String → Prop) (e : Expr) : Prop := ∀ σ, GoForward calls (e.code σ)

variable {calls : String → Prop} {es : List Expr}

theorem goForward_codeAll (h : ∀ e ∈ es, e.GoesForward calls) (σ : Scope) :
    GoForward calls (codeAll σ es) := by
  induction es with
  | nil => exact goForward_nil
  | cons e es ih =>
    have hes := ih fun e he => h e (List.mem_cons_of_mem _ he)
    exact (h e List.mem_cons_self σ).append hes

theorem goForward_codeDiscarded (h : ∀ e ∈ es, e.GoesForward calls) (σ : Scope) :
    GoForward calls (codeDiscarded σ es) := by
  induction es with
  | nil => exact goForward_nil
  | cons e es ih =>
    have hes := ih fun e he => h e (List.mem_cons_of_mem _ he)
    refine ((h e List.mem_cons_self σ).append ?_).append hes
    exact goForward_singleton trivial

theorem goesForward_call {name : String} (hname : calls name) (h : ∀ e ∈ es, e.GoesForward calls)
    (location : Option Location) : (Expr.call (some name) es location).GoesForward calls := by
  intro σ
  rw [code]
  split
  · split
    · exact (goForward_codeAll h σ).append (goForward_singleton trivial)
    · exact (goForward_codeDiscarded h σ).append (goForward_singleton trivial)
  · exact (goForward_codeAll h σ).append (goForward_singleton (σ.goesForward_callDraft hname))

end Expr

namespace Stmt

/-- The code of a statement goes forward. -/
def GoesForward (calls : String → Prop) (s : Stmt) : Prop := ∀ σ, GoForward calls (s.code σ)

variable {calls : String → Prop}

theorem GoesForward.branch {condition : Expr} {yes no : Stmt} (chained : Bool)
    (hcondition : condition.GoesForward calls) (hyes : yes.GoesForward calls)
    (hno : no.GoesForward calls) : (Stmt.branch chained condition yes no).GoesForward calls :=
  fun σ => .branchCode chained (hcondition σ) (hyes σ) (hno _)

theorem goesForward_ofTrees {ts : List Tree} (h : ∀ t ∈ ts, (ofTree t).GoesForward calls) :
    (ofTrees ts).GoesForward calls := by
  induction ts with
  | nil => exact fun σ => goForward_nil
  | cons t ts ih =>
    have hts := ih fun u hu => h u (List.mem_cons_of_mem _ hu)
    exact fun σ => (h t List.mem_cons_self σ).append (hts _)

end Stmt

namespace Tree

variable {nodes : List Tree} {t c : Tree}

/-- The nodes below a child are nodes of the tree. -/
theorem walk_subset_of_mem (hnodes : t.walk ⊆ nodes) (h : c ∈ t.children) : c.walk ⊆ nodes := by
  intro n hn
  refine hnodes ?_
  rw [walk_eq_cons t]
  exact List.mem_cons_of_mem _ (mem_walkAll.mpr ⟨c, h, hn⟩)

theorem goesForward_operatorNode {kind : Kind} {op : Operator} {left right : Tree}
    {location : Option Location} {calls : String → Prop} (htakes : kind.takes op = true)
    (hleft : (Expr.ofTree left).GoesForward calls)
    (hright : (Expr.ofTree right).GoesForward calls) :
    (Expr.ofTree (operatorNode kind op left right location)).GoesForward calls := by
  rw [Expr.ofTree_operatorNode left right location htakes]
  exact fun σ => ((hleft σ).append (hright σ)).append (goForward_singleton trivial)

/-- Values have no jumps, and their calls are among the nodes. -/
theorem IsValue.goesForward (h : t.IsValue) (hnodes : t.walk ⊆ nodes) :
    (Expr.ofTree t).GoesForward (Mentions nodes) := by
  induction h with
  | number digits location hne hdigits =>
    rw [Expr.ofTree_number location hne hdigits]
    exact fun σ => goForward_singleton trivial
  | name name location =>
    intro σ
    change GoForward _ (Expr.code σ (.variable (some name) location))
    rw [Expr.code]
    split
    · exact goForward_load _ _
    · exact goForward_singleton trivial
  | negate operand location hoperand ih =>
    have hforward := ih (walk_subset_of_mem hnodes List.mem_cons_self)
    exact fun σ => (hforward σ).append (goForward_singleton trivial)
  | operator kind op left right location hkind htakes hleft hright ihleft ihright =>
    exact goesForward_operatorNode htakes
      (ihleft (walk_subset_of_mem hnodes List.mem_cons_self))
      (ihright (walk_subset_of_mem hnodes (List.mem_cons_of_mem _ List.mem_cons_self)))
  | call name arguments location harguments ih =>
    rw [Expr.ofTree_call]
    refine Expr.goesForward_call ⟨_, hnodes (mem_walk_self _), rfl, rfl⟩ ?_ location
    exact List.forall_mem_map.mpr fun a ha => ih a ha (walk_subset_of_mem hnodes ha)

theorem IsCondition.goesForward (h : t.IsCondition) (hnodes : t.walk ⊆ nodes) :
    (Expr.ofTree t).GoesForward (Mentions nodes) := by
  cases h with
  | mk op left right location htakes hleft hright =>
    exact goesForward_operatorNode htakes
      (hleft.goesForward (walk_subset_of_mem hnodes List.mem_cons_self))
      (hright.goesForward (walk_subset_of_mem hnodes (List.mem_cons_of_mem _ List.mem_cons_self)))

theorem goesForward_ofChain {rest : Chain} (hnodes : walkAll rest.trees ⊆ nodes)
    (hconditions : ∀ c ∈ rest.conditions, c.IsCondition)
    (h : ∀ t ∈ rest.statements, (Stmt.ofTree t).GoesForward (Mentions nodes)) :
    (Stmt.ofChain rest).GoesForward (Mentions nodes) := by
  induction rest with
  | none => exact fun σ => goForward_nil
  | otherwise location place body => exact Stmt.goesForward_ofTrees h
  | elseIf location place condition body rest ih =>
    have hcondition : condition.walk ⊆ nodes := fun n hn =>
      hnodes (by simp [Chain.trees, walkAll, walk_plainNode, hn])
    have hrest := ih (fun n hn => hnodes (by simp [Chain.trees, walkAll, hn]))
      (fun c hc => hconditions c (List.mem_cons_of_mem _ hc))
      fun t ht => h t (List.mem_append_right _ ht)
    exact .branch true
      ((hconditions condition List.mem_cons_self).goesForward hcondition)
      (Stmt.goesForward_ofTrees fun t ht => h t (List.mem_append_left _ ht)) hrest

/-- The code of a statement without loops goes forward, and calls what the statement calls. -/
theorem IsStatement.goesForward (h : t.IsStatement) (hnodes : t.walk ⊆ nodes)
    (hloops : ∀ n ∈ nodes, n.kind ≠ .loop) : (Stmt.ofTree t).GoesForward (Mentions nodes) := by
  induction h with
  | function location start place name type formals body hbody ih => exact fun σ => goForward_nil
  | declaration location name type value hvalue =>
    rw [Stmt.ofTree_declaration]
    intro σ
    cases value with
    | none => exact GoForward.append (goForward_singleton trivial) (goForward_store _ _)
    | some v =>
      have hv := (hvalue v rfl).goesForward (walk_subset_of_mem hnodes List.mem_cons_self)
      exact (hv _).append (goForward_store _ _)
  | assignment location name value hvalue =>
    have hv := hvalue.goesForward (walk_subset_of_mem hnodes List.mem_cons_self)
    refine fun σ => (hv σ).append ?_
    split
    · exact goForward_store _ _
    · exact goForward_singleton trivial
  | conditional location place condition body rest hcondition hbody hconditions hrest ihbody
    ihrest =>
    rw [Stmt.ofTree_conditional location place body rest hcondition]
    have hblock : (blockNode place body).walk ⊆ nodes :=
      walk_subset_of_mem hnodes (List.mem_cons_of_mem _ List.mem_cons_self)
    have hchain : walkAll rest.trees ⊆ nodes := by
      refine fun n hn => hnodes ?_
      simp [walk_plainNode, walkAll, hn]
    refine .branch false ?_ ?_ ?_
    · exact hcondition.goesForward (walk_subset_of_mem hnodes List.mem_cons_self)
    · exact Stmt.goesForward_ofTrees fun t ht => ihbody t ht (walk_subset_of_mem hblock ht)
    · exact goesForward_ofChain hchain hconditions fun t ht =>
        ihrest t ht fun n hn => hchain (Chain.mem_walkAll_trees ht hn)
  | loop location place condition body hcondition hbody ihbody =>
    exact absurd rfl (hloops _ (hnodes (mem_walk_self _)))
  | giveBack location value hvalue =>
    have hv := hvalue.goesForward (walk_subset_of_mem hnodes List.mem_cons_self)
    intro σ
    rw [Stmt.ofTree_giveBack, Stmt.code]
    cases σ.inside with
    | none => exact goForward_nil
    | some f => exact (hv σ).append (goForward_singleton trivial)
  | value t hvalue =>
    rw [Stmt.ofTree_value hvalue]
    exact fun σ => (hvalue.goesForward hnodes σ).append (goForward_singleton trivial)

end Tree

namespace Script.Reading

variable {tree : Tree} {statements : List Tree} {fs : List Parts} {s : Script}

/-- The code outside functions goes forward. -/
theorem goForward_entryCode (h : Reading tree statements fs s) (hloops : tree.IsLoopFree) :
    GoForward (fun _ => True) s.entryCode := by
  have hentry : s.entry.GoesForward (Tree.Mentions tree.walk) := by
    rw [h.entry_eq]
    refine Stmt.goesForward_ofTrees fun t ht => (h.isStatement_entry t ht).goesForward ?_ hloops
    exact Tree.walk_subset_of_mem (List.Subset.refl _) (List.mem_of_mem_filter ht)
  refine ((hentry _).mono fun _ _ => trivial).append ?_
  simp only [GoForward, List.forall_mem_cons]
  exact ⟨trivial, trivial, goForward_nil⟩

/-- The code of a function goes forward, and calls what the function calls. -/
theorem goForward_definition (h : Reading tree statements fs s) (hloops : tree.IsLoopFree)
    {f : Parts} (hf : f ∈ fs) (σ : Scope) :
    GoForward (tree.Mentioning f.name) (f.definition.code σ) := by
  have hmem : f.tree ∈ tree.childrenOf .function := by
    rw [h.childrenOf_function]
    exact List.mem_map_of_mem hf
  have hwalk : f.tree.walk ⊆ tree.walk :=
    Tree.walk_subset_of_mem (List.Subset.refl _) (List.mem_of_mem_filter hmem)
  have hblock : (blockNode f.place f.body).walk ⊆ f.tree.walk :=
    Tree.walk_subset_of_mem (List.Subset.refl _) (List.mem_cons_of_mem _ List.mem_cons_self)
  have hbody : (Stmt.ofTrees f.body).GoesForward (Tree.Mentions f.tree.walk) :=
    Stmt.goesForward_ofTrees fun t ht => (h.bodies f hf t ht).goesForward
      (Tree.walk_subset_of_mem hblock ht) fun n hn => hloops n (hwalk hn)
  have hmentioning : ∀ callee, Tree.Mentions f.tree.walk callee → tree.Mentioning f.name callee :=
    fun callee hcallee => ⟨f.tree, hmem, rfl, hcallee⟩
  refine List.forall_mem_cons.mpr ⟨trivial, ((hbody _).mono hmentioning).append ?_⟩
  simp only [GoForward, List.forall_mem_cons]
  exact ⟨trivial, trivial, goForward_nil⟩

end Script.Reading

/-! ## Quantities that depend on callees -/

/-- A quantity that each member derives from those below it is well defined. -/
theorem exists_eq_of_wellFounded {α β : Type} [Inhabited β] {r : α → α → Prop}
    (hwf : WellFounded r) {F : (α → β) → α → β}
    (hF : ∀ a c c', (∀ b, r b a → c b = c' b) → F c a = F c' a) : ∃ c, ∀ a, c a = F c a := by
  classical
  refine ⟨hwf.fix fun a below => F (fun b => if hb : r b a then below b hb else default) a, ?_⟩
  intro a
  rw [hwf.fix_eq]
  refine hF a _ _ fun b hb => ?_
  rw [dif_pos hb]

end StackLang
