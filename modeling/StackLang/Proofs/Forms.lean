import StackLang.Proofs.NodeShapes

/-!
# Forms of parsed trees

What every tree of the parser has, whatever the texts of its tokens are: leaves carry a text, each
kind of node has its attributes, and its children are of the kinds that the grammar allows.
-/

namespace StackLang

namespace Tree

/-! ## Nodes below a node -/

mutual

/-- What holds of a node if it holds of all below it holds of all nodes of a tree. -/
theorem forall_walk {P : Tree → Prop} (h : ∀ t, (∀ n ∈ walkAll t.children, P n) → P t) :
    (t : Tree) → ∀ n ∈ t.walk, P n
  | ⟨kind, value, attributes, children, location⟩ => by
    have hchildren := forall_walkAll h children
    rw [walk_mk]
    exact List.forall_mem_cons.mpr ⟨h _ hchildren, hchildren⟩

theorem forall_walkAll {P : Tree → Prop} (h : ∀ t, (∀ n ∈ walkAll t.children, P n) → P t) :
    (ts : List Tree) → ∀ n ∈ walkAll ts, P n
  | [] => by simp [walkAll]
  | t :: ts => by
    rw [walkAll]
    exact List.forall_mem_append.mpr ⟨forall_walk h t, forall_walkAll h ts⟩

end

theorem mem_walkAll_of_mem {t : Tree} {ts : List Tree} (h : t ∈ ts) : t ∈ walkAll ts :=
  mem_walkAll.mpr ⟨t, h, t.mem_walk_self⟩

/-- Induction over all nodes below a node. -/
theorem walk_induction {P : Tree → Prop} (h : ∀ t, (∀ n ∈ walkAll t.children, P n) → P t)
    (t : Tree) : P t :=
  forall_walk h t t t.mem_walk_self

theorem mem_walkAll_of_mem_children {n t : Tree} {ts : List Tree} (ht : t ∈ ts)
    (hn : n ∈ t.children) : n ∈ walkAll ts := by
  refine mem_walkAll.mpr ⟨t, ht, ?_⟩
  rw [walk_eq_cons]
  exact List.mem_cons_of_mem _ (mem_walkAll_of_mem hn)

/-! ## Forms -/

/-- A node has the text, the attributes and the kinds of children that belong to its kind. -/
structure HasForm (t : Tree) : Prop where
  text : t.value.isSome = t.kind.isTerminal
  attributes : t.attributes.map Prod.fst = t.kind.attributeNames
  children : t.kind.Holds (t.children.map kind)

/-- All nodes of a tree have the form of their kind. -/
def InForm (t : Tree) : Prop := ∀ n ∈ t.walk, n.HasForm

theorem inForm_mk {kind : Kind} {value : Option String} {attributes : Attributes}
    {children : List Tree} {location : Option Location} :
    InForm ⟨kind, value, attributes, children, location⟩ ↔
      HasForm ⟨kind, value, attributes, children, location⟩ ∧ ∀ c ∈ children, c.InForm :=
  forall_mem_walk

theorem InForm.hasForm {t : Tree} (h : t.InForm) : t.HasForm := (forall_mem_walk.mp h).1

theorem InForm.children {t : Tree} (h : t.InForm) : ∀ c ∈ t.children, c.InForm :=
  (forall_mem_walk.mp h).2

end Tree

namespace Grammar

open StackLang.Tree

/-- A tree in form that stands for a value. -/
def IsOperand (t : Tree) : Prop := t.InForm ∧ t.kind.isValue = true

theorem isOperand_binaryNode {kind : Tree.Kind} (hkind : kind = .expression ∨ kind = .term)
    (operator : Token) {left right : Tree} (hleft : IsOperand left) (hright : IsOperand right) :
    IsOperand (Parser.binaryNode kind operator left right) := by
  have hkinds : ∀ k ∈ [left.kind, right.kind], k.isValue = true := by
    simp [hleft.2, hright.2]
  rcases hkind with rfl | rfl
  all_goals
    refine ⟨inForm_mk.mpr ⟨⟨rfl, rfl, rfl, hkinds⟩, ?_⟩, rfl⟩
    simp [hleft.1, hright.1]

mutual

theorem Factor.isOperand (f : Factor) : IsOperand f.tree := by
  cases f with
  | parenthesised left inner right =>
    rw [Factor.tree]
    exact inner.isOperand
  | negative sign operand =>
    have hoperand := operand.isOperand
    rw [Factor.tree]
    refine ⟨inForm_mk.mpr ⟨⟨rfl, rfl, rfl, ?_⟩, ?_⟩, rfl⟩
    · exact List.forall_mem_singleton.mpr hoperand.2
    · exact List.forall_mem_singleton.mpr hoperand.1
  | number digits =>
    rw [Factor.tree]
    exact ⟨inForm_mk.mpr ⟨⟨rfl, rfl, rfl⟩, by simp⟩, rfl⟩
  | name token =>
    rw [Factor.tree]
    exact ⟨inForm_mk.mpr ⟨⟨rfl, rfl, rfl⟩, by simp⟩, rfl⟩
  | call name left arguments right =>
    have harguments := arguments.areOperands
    rw [Factor.tree]
    refine ⟨inForm_mk.mpr ⟨⟨rfl, rfl, ?_⟩, fun a ha => (harguments a ha).1⟩, rfl⟩
    exact List.forall_mem_map.mpr fun a ha => (harguments a ha).2

theorem Term.isOperand (t : Term) : IsOperand t.tree := by
  cases t with
  | mk first others =>
    rw [Term.tree]
    exact others.isOperand_treeFrom first.isOperand

theorem Factors.isOperand_treeFrom {left : Tree} (hleft : IsOperand left) (fs : Factors) :
    IsOperand (fs.treeFrom left) := by
  cases fs with
  | nil =>
    rw [Factors.treeFrom]
    exact hleft
  | cons operator next others =>
    rw [Factors.treeFrom]
    exact others.isOperand_treeFrom
      (isOperand_binaryNode (.inr rfl) operator.1 hleft next.isOperand)

theorem Expression.isOperand (e : Expression) : IsOperand e.tree := by
  cases e with
  | mk first others =>
    rw [Expression.tree]
    exact others.isOperand_treeFrom first.isOperand

theorem Terms.isOperand_treeFrom {left : Tree} (hleft : IsOperand left) (ts : Terms) :
    IsOperand (ts.treeFrom left) := by
  cases ts with
  | nil =>
    rw [Terms.treeFrom]
    exact hleft
  | cons operator next others =>
    rw [Terms.treeFrom]
    exact others.isOperand_treeFrom
      (isOperand_binaryNode (.inl rfl) operator.1 hleft next.isOperand)

theorem Arguments.areOperands (as : Arguments) : ∀ a ∈ as.trees, IsOperand a := by
  cases as with
  | none => simp [Arguments.trees]
  | some first others =>
    rw [Arguments.trees]
    exact List.forall_mem_cons.mpr ⟨first.isOperand, others.areOperands⟩

theorem MoreArguments.areOperands (as : MoreArguments) : ∀ a ∈ as.trees, IsOperand a := by
  cases as with
  | nil => simp [MoreArguments.trees]
  | cons comma next others =>
    rw [MoreArguments.trees]
    exact List.forall_mem_cons.mpr ⟨next.isOperand, others.areOperands⟩

end

theorem Condition.inForm (c : Condition) : c.tree.InForm := by
  have hleft := c.left.isOperand
  have hright := c.right.isOperand
  refine inForm_mk.mpr ⟨⟨rfl, rfl, rfl, ?_⟩, ?_⟩
  · simp [hleft.2, hright.2]
  · simp [hleft.1, hright.1]

theorem Parameters.inForm (location : Location) (ps : Parameters) :
    (parametersNode location ps.trees).InForm := by
  have hparameters : ∀ p ∈ ps.trees, p.InForm ∧ p.kind = .parameter := by
    have hparameter (p : Parameter) : p.tree.InForm ∧ p.tree.kind = .parameter :=
      ⟨inForm_mk.mpr ⟨⟨rfl, rfl, rfl⟩, by simp⟩, rfl⟩
    cases ps with
    | none => simp [Parameters.trees]
    | some first others =>
      refine List.forall_mem_cons.mpr ⟨hparameter first, ?_⟩
      exact List.forall_mem_map.mpr fun next _ => hparameter next.2
  refine inForm_mk.mpr ⟨⟨rfl, rfl, ?_⟩, fun p hp => (hparameters p hp).1⟩
  exact List.forall_mem_map.mpr fun p hp => (hparameters p hp).2

theorem isStatement_of_isValue {kind : Tree.Kind} (h : kind.isValue = true) :
    kind.isStatement = true := by
  cases kind <;> first
    | rfl
    | cases h

/-- The node of a test and a block, as loops and further branches have it. -/
theorem inForm_guarded {kind : Tree.Kind} (hkind : kind = .loop ∨ kind = .elseIf)
    (location : Location) (test : Test) {body : Tree} (hbody : body.InForm)
    (hblock : body.kind = .block) :
    (plainNode kind location [test.condition.tree, body]).InForm := by
  have hkinds : [test.condition.tree, body].map Tree.kind = [.condition, .block] := by
    rw [List.map_cons, List.map_cons, hblock]
    rfl
  have hchildren : ∀ c ∈ [test.condition.tree, body], c.InForm := by
    simp [test.condition.inForm, hbody]
  rcases hkind with rfl | rfl
  · exact inForm_mk.mpr ⟨⟨rfl, rfl, hkinds⟩, hchildren⟩
  · exact inForm_mk.mpr ⟨⟨rfl, rfl, hkinds⟩, hchildren⟩

mutual

theorem Statement.inForm (s : Statement) : s.tree.InForm ∧ s.tree.kind.isStatement = true := by
  cases s with
  | function word name left parameters right arrow type body =>
    have hbody := body.inForm
    rw [Statement.tree]
    refine ⟨inForm_mk.mpr ⟨⟨rfl, rfl, ?_⟩, ?_⟩, rfl⟩
    · exact congrArg (fun kind => [Tree.Kind.parameterList, kind]) hbody.2
    · simp [parameters.inForm, hbody.1]
  | declaration word name colon type value =>
    rw [Statement.tree]
    refine ⟨inForm_mk.mpr ⟨⟨rfl, rfl, ?_⟩, ?_⟩, rfl⟩
    · cases value with
      | none => exact ⟨Nat.zero_le 1, by simp⟩
      | some value => exact ⟨Nat.le_refl 1, List.forall_mem_singleton.mpr value.2.isOperand.2⟩
    · cases value with
      | none => simp
      | some value => exact List.forall_mem_singleton.mpr value.2.isOperand.1
  | conditional word test body others =>
    have hbody := body.inForm
    obtain ⟨hothers, n, hkinds⟩ := others.inForm
    rw [Statement.tree]
    refine ⟨inForm_mk.mpr ⟨⟨rfl, rfl, n, ?_⟩, ?_⟩, rfl⟩
    · refine hkinds.imp (fun hkinds => ?_) fun hkinds => ?_
      · rw [List.map_cons, List.map_cons, hbody.2, hkinds]
        rfl
      · rw [List.map_cons, List.map_cons, hbody.2, hkinds]
        rfl
    · exact List.forall_mem_cons.mpr
        ⟨test.condition.inForm, List.forall_mem_cons.mpr ⟨hbody.1, hothers⟩⟩
  | loop word test body =>
    have hbody := body.inForm
    rw [Statement.tree]
    exact ⟨inForm_guarded (.inl rfl) _ test hbody.1 hbody.2, rfl⟩
  | giveBack word value =>
    have hvalue := value.isOperand
    rw [Statement.tree]
    refine ⟨inForm_mk.mpr ⟨⟨rfl, rfl, rfl, ?_⟩, ?_⟩, rfl⟩
    · exact List.forall_mem_singleton.mpr hvalue.2
    · exact List.forall_mem_singleton.mpr hvalue.1
  | assignment name sign value =>
    have hvalue := value.isOperand
    rw [Statement.tree]
    refine ⟨inForm_mk.mpr ⟨⟨rfl, rfl, rfl, ?_⟩, ?_⟩, rfl⟩
    · exact List.forall_mem_singleton.mpr hvalue.2
    · exact List.forall_mem_singleton.mpr hvalue.1
  | expression value =>
    rw [Statement.tree]
    exact ⟨value.isOperand.1, isStatement_of_isValue value.isOperand.2⟩

theorem Block.inForm (b : Block) : b.tree.InForm ∧ b.tree.kind = .block := by
  cases b with
  | mk left statements right =>
    have hstatements := statements.inForm
    rw [Block.tree]
    refine ⟨inForm_mk.mpr ⟨⟨rfl, rfl, ?_⟩, fun s hs => (hstatements s hs).1⟩, rfl⟩
    exact List.forall_mem_map.mpr fun s hs => (hstatements s hs).2

theorem Statements.inForm (ss : Statements) :
    ∀ s ∈ ss.trees, s.InForm ∧ s.kind.isStatement = true := by
  cases ss with
  | nil => simp [Statements.trees]
  | cons first others =>
    rw [Statements.trees]
    exact List.forall_mem_cons.mpr ⟨first.inForm, others.inForm⟩

theorem Branches.inForm (bs : Branches) :
    (∀ b ∈ bs.trees, b.InForm) ∧ ∃ n, bs.trees.map Tree.kind = List.replicate n .elseIf ∨
      bs.trees.map Tree.kind = List.replicate n .elseIf ++ [.otherwise] := by
  cases bs with
  | nil => exact ⟨by simp [Branches.trees], 0, .inl (by simp [Branches.trees])⟩
  | elseIf word test body others =>
    have hbody := body.inForm
    obtain ⟨hothers, n, hkinds⟩ := others.inForm
    rw [Branches.trees]
    refine ⟨List.forall_mem_cons.mpr ⟨?_, hothers⟩, n + 1, ?_⟩
    · exact inForm_guarded (.inr rfl) _ test hbody.1 hbody.2
    · refine hkinds.imp (fun hkinds => ?_) fun hkinds => ?_
      · exact congrArg (Tree.Kind.elseIf :: ·) hkinds
      · exact congrArg (Tree.Kind.elseIf :: ·) hkinds
  | otherwise word body =>
    have hbody := body.inForm
    rw [Branches.trees]
    refine ⟨List.forall_mem_singleton.mpr ?_, 0, .inr rfl⟩
    refine inForm_mk.mpr ⟨⟨rfl, rfl, ?_⟩, List.forall_mem_singleton.mpr hbody.1⟩
    exact congrArg (fun kind => [kind]) hbody.2

end

/-- A parsed tree is a program node, and all its nodes have their forms. -/
theorem inForm_of_program {file : String} {ts : List Token} {t : Tree}
    (h : Parser.program file ts = .ok t) : t.InForm ∧ t.kind = .program := by
  obtain ⟨d, -, rfl⟩ := exists_derivation_of_program h
  have hstatements := d.inForm
  refine ⟨inForm_mk.mpr ⟨⟨rfl, rfl, ?_⟩, fun s hs => (hstatements s hs).1⟩, rfl⟩
  exact List.forall_mem_map.mpr fun s hs => (hstatements s hs).2

end Grammar

/-! ## Statements in form -/

namespace Tree

theorem ofBlock_eq_ofTree {t : Tree} (h : t.kind = .block) : Stmt.ofBlock t = Stmt.ofTree t := by
  obtain ⟨kind, value, attributes, children, location⟩ := t
  cases h
  rfl

/-- A test and a block, as conditionals, further branches and loops have them. -/
theorem kinds_of_map_eq {ts : List Tree} {kinds : List Kind}
    (h : ts.map Tree.kind = .condition :: .block :: kinds) :
    ∃ condition block rest, ts = condition :: block :: rest ∧ condition.kind = .condition ∧
      block.kind = .block ∧ rest.map Tree.kind = kinds := by
  obtain ⟨condition, ts, rfl, hcondition, h⟩ := List.map_eq_cons_iff.mp h
  obtain ⟨block, rest, rfl, hblock, h⟩ := List.map_eq_cons_iff.mp h
  exact ⟨condition, block, rest, rfl, hcondition, hblock, h⟩

theorem ofBranches_cons_of_ne {t : Tree} (h : t.kind ≠ .elseIf) (location : Option Location)
    (ts : List Tree) (rest : Stmt) :
    Stmt.ofBranches location (t :: ts) rest = Stmt.ofBranches location ts rest := by
  obtain ⟨kind, value, attributes, children, place⟩ := t
  rw [Stmt.ofBranches]
  exact if_neg h

theorem ofElse_cons_of_ne {t : Tree} (h : t.kind ≠ .otherwise) (ts : List Tree) :
    Stmt.ofElse (t :: ts) = Stmt.ofElse ts := by
  obtain ⟨kind, value, attributes, children, place⟩ := t
  have hkind : kind ≠ .otherwise := h
  cases children <;> simp only [Stmt.ofElse, if_neg hkind]

/-- A conditional and what it means without its test and its first block. -/
theorem ofTree_conditional {condition block : Tree} (hcondition : condition.kind = .condition)
    (hblock : block.kind = .block) (value : Option String) (attributes : Attributes)
    (rest : List Tree) (location : Option Location) :
    Stmt.ofTree ⟨.conditional, value, attributes, condition :: block :: rest, location⟩ =
      .branch false (Expr.ofTree condition) (Stmt.ofBlock block)
        (Stmt.ofBranches location rest (Stmt.ofElse rest)) := by
  have hbranches (rest' : Stmt) : Stmt.ofBranches location (condition :: block :: rest) rest' =
      Stmt.ofBranches location rest rest' := by
    rw [ofBranches_cons_of_ne (by rw [hcondition]; rintro ⟨⟩),
      ofBranches_cons_of_ne (by rw [hblock]; rintro ⟨⟩)]
  have helse : Stmt.ofElse (condition :: block :: rest) = Stmt.ofElse rest := by
    rw [ofElse_cons_of_ne (by rw [hcondition]; rintro ⟨⟩),
      ofElse_cons_of_ne (by rw [hblock]; rintro ⟨⟩)]
  rw [← hbranches, ← helse]
  rfl

/-- A further branch in form is a conditional in the other arm. -/
theorem ofBranches_elseIf {condition block : Tree} (value : Option String)
    (attributes : Attributes) (rest : List Tree) (location place : Option Location) :
    let branch : Tree := ⟨.elseIf, value, attributes, [condition, block], place⟩
    Stmt.ofBranches location (branch :: rest) (Stmt.ofElse (branch :: rest)) =
      .branch true (Expr.ofTree condition) (Stmt.ofBlock block)
        (Stmt.ofBranches location rest (Stmt.ofElse rest)) := by
  intro branch
  rw [ofElse_cons_of_ne (by rintro ⟨⟩)]
  rfl

end Tree

theorem eq_ok_of_toOption {ε α : Type} {x : Except ε α} {a : α} (h : x.toOption = some a) :
    x = .ok a := by
  cases x with
  | error e => cases h
  | ok b => exact congrArg Except.ok (Option.some.inj h)

end StackLang
