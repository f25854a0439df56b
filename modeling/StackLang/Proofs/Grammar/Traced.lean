import StackLang.Proofs.Checked

/-!
# Trees are read off along their words

The nodes of the tree of a derivation, each before its children, can be read off the tokens of its
word from left to right: each node stands at a token that is the one of the node before it or a
later one. A leaf has the text of the token at which it stands; all other texts in a tree are texts
of tokens as well, and none of these is a comma.
-/

namespace StackLang

/-- The text of a node and the texts of its attributes. -/
def Tree.texts (n : Tree) : List String := n.value.toList ++ n.attributes.map Prod.snd

namespace Grammar

open Token (Kind)
open StackLang.Parser (binaryNode)
open StackLang.Tree (walkAll walkAll_eq_flatMap walk_eq_cons)

/-- A text is a minus sign, or the text of one of the tokens that is no comma. -/
def IsTextOf (w : List Token) (text : String) : Prop :=
  text = "-" ∨ ∃ u ∈ w, u.kind ≠ .comma ∧ u.lexeme = text

/-- A node stands at the token `t`, and its texts are texts of `t` and the tokens `w` after it. -/
structure ReadAt (t : Token) (w : List Token) (n : Tree) : Prop where
  location : n.location = some t.location
  leaf : n.kind.isTerminal = true → n.value = some t.lexeme
  texts : ∀ text ∈ n.texts, IsTextOf (t :: w) text

/-- The nodes `ns` are read off the tokens from left to right; several may stand at one token. -/
inductive Traced : List Token → List Tree → Prop
  | nil (w : List Token) : Traced w []
  | skip (t : Token) {w : List Token} {ns : List Tree} (h : Traced w ns) : Traced (t :: w) ns
  | node {t : Token} {w : List Token} {n : Tree} {ns : List Tree} (hn : ReadAt t w n)
      (h : Traced (t :: w) ns) : Traced (t :: w) (n :: ns)

variable {t : Token} {w v : List Token} {n l : Tree} {ns ms : List Tree}

theorem IsTextOf.mono {text : String} (h : IsTextOf w text) (hsub : w ⊆ v) : IsTextOf v text := by
  rcases h with h | ⟨u, hu, hkind, htext⟩
  · exact .inl h
  · exact .inr ⟨u, hsub hu, hkind, htext⟩

/-- The text of a token of a kind that commas are not of. -/
theorem isTextOf_oneOf {p : Kind → Bool} (hp : p .comma = false) (u : OneOf p) (hu : u.1 ∈ w) :
    IsTextOf w u.1.lexeme := by
  refine .inr ⟨u.1, hu, fun hk => ?_, rfl⟩
  have hu := u.2
  rw [hk, hp] at hu
  cases hu

theorem isTextOf_name (u : Of .identifier) (hu : u.1 ∈ w) : IsTextOf w u.1.lexeme :=
  .inr ⟨u.1, hu, by rw [u.2]; decide, rfl⟩

/-- Nodes that are no leaves. -/
theorem ReadAt.inner (hkind : n.kind.isTerminal = false) (hlocation : n.location = some t.location)
    (htexts : ∀ text ∈ n.texts, IsTextOf (t :: w) text) : ReadAt t w n := by
  refine ⟨hlocation, fun hterminal => ?_, htexts⟩
  rw [hkind] at hterminal
  cases hterminal

theorem ReadAt.append (h : ReadAt t w n) (v : List Token) : ReadAt t (w ++ v) n :=
  ⟨h.location, h.leaf, fun text htext =>
    (h.texts text htext).mono (List.subset_append_left (t :: w) v)⟩

namespace Traced

theorem skipAll (h : Traced v ms) (w : List Token) : Traced (w ++ v) ms := by
  induction w with
  | nil => exact h
  | cons t w ih => exact .skip t ih

theorem append (h : Traced w ns) (h' : Traced v ms) : Traced (w ++ v) (ns ++ ms) := by
  induction h with
  | nil w => exact h'.skipAll w
  | skip t h ih => exact .skip t ih
  | node hn h ih => exact .node (hn.append v) ih

theorem append_nil (h : Traced w ns) (v : List Token) : Traced (w ++ v) ns := by
  simpa using h.append (.nil v)

/-- Each node is read off at one of the tokens. -/
theorem exists_readAt (h : Traced w ns) {n : Tree} (hn : n ∈ ns) :
    ∃ t v, (t :: v) ⊆ w ∧ ReadAt t v n := by
  induction h with
  | nil w => cases hn
  | skip t h ih =>
    obtain ⟨u, v, hsub, hread⟩ := ih hn
    exact ⟨u, v, List.subset_cons_of_subset t hsub, hread⟩
  | node hread h ih =>
    rcases List.mem_cons.mp hn with rfl | hn
    · exact ⟨_, _, List.Subset.refl _, hread⟩
    · exact ih hn

/-- One more node may stand where the first one stands. -/
theorem above (h : Traced w (l :: ns)) (h' : Traced v ms)
    (hn : ∀ t u, ReadAt t u l → ReadAt t (u ++ v) n) : Traced (w ++ v) (n :: (l :: ns ++ ms)) := by
  generalize hks : l :: ns = ks at h
  induction h with
  | nil w => cases hks
  | skip t h ih => exact .skip t (ih hks)
  | node hl h ih =>
    cases hks
    exact .node (hn _ _ hl) ((Traced.node hl h).append h')

/-- A node at a token before those of its children. -/
theorem tree (hn : ReadAt t w n) (h : Traced w (walkAll n.children)) : Traced (t :: w) n.walk := by
  rw [walk_eq_cons]
  exact .node hn (.skip t h)

theorem walkAll_cons {ts : List Tree} (h : Traced w n.walk) (h' : Traced v (walkAll ts)) :
    Traced (w ++ v) (walkAll (n :: ts)) := by
  rw [walkAll]
  exact h.append h'

theorem walkAll_singleton (h : Traced w n.walk) : Traced w (walkAll [n]) := by
  simpa [walkAll] using h

/-- An operator is read off between its operands, and its node where the left one starts. -/
theorem binary (kind : Tree.Kind) (hkind : kind.isTerminal = false) {p : Kind → Bool}
    (hp : p .comma = false) (operator : OneOf p) {left right : Tree} (hleft : Traced w left.walk)
    (hright : Traced v right.walk) :
    Traced (w ++ operator.1 :: v) (binaryNode kind operator.1 left right).walk := by
  have hwalk : (binaryNode kind operator.1 left right).walk =
      binaryNode kind operator.1 left right ::
        (left :: walkAll left.children ++ right.walk) := by
    rw [walk_eq_cons, ← walk_eq_cons left]
    simp [binaryNode, walkAll]
  rw [walk_eq_cons left] at hleft
  rw [hwalk]
  refine hleft.above (.skip operator.1 hright) fun t u hl => .inner hkind hl.location ?_
  exact List.forall_mem_singleton.mpr (isTextOf_oneOf hp operator (by simp))

end Traced

/-- A node that is no leaf and has no text stands at any token. -/
theorem readAt_plainNode {kind : Tree.Kind} (hkind : kind.isTerminal = false) (t : Token)
    (w : List Token) (children : List Tree) : ReadAt t w (plainNode kind t.location children) :=
  .inner hkind rfl (List.forall_mem_nil _)

/-! ## Expressions -/

mutual

theorem Factor.traced (f : Factor) : Traced f.word f.tree.walk := by
  cases f with
  | parenthesised left inner right =>
    rw [Factor.word, Factor.tree, List.cons_append]
    exact .skip _ (inner.traced.append_nil _)
  | negative sign operand =>
    rw [Factor.word, Factor.tree]
    refine .tree (.inner rfl rfl ?_) (.walkAll_singleton operand.traced)
    exact List.forall_mem_singleton.mpr (.inl rfl)
  | number digits =>
    rw [Factor.word, Factor.tree]
    refine .tree ⟨rfl, fun _ => rfl, ?_⟩ (.nil _)
    exact List.forall_mem_singleton.mpr
      (.inr ⟨digits.1, List.mem_cons_self, by rw [digits.2]; decide, rfl⟩)
  | name token =>
    rw [Factor.word, Factor.tree]
    refine .tree ⟨rfl, fun _ => rfl, ?_⟩ (.nil _)
    exact List.forall_mem_singleton.mpr (isTextOf_name token List.mem_cons_self)
  | call name left arguments right =>
    rw [Factor.word, Factor.tree, List.cons_append, List.cons_append]
    refine .tree (.inner rfl rfl ?_) (.skip _ (arguments.traced.append_nil _))
    exact List.forall_mem_singleton.mpr (isTextOf_name name List.mem_cons_self)

theorem Term.traced (t : Term) : Traced t.word t.tree.walk := by
  cases t with
  | mk first others =>
    rw [Term.word, Term.tree]
    exact others.traced_treeFrom first.traced

theorem Factors.traced_treeFrom {w : List Token} {left : Tree} (hleft : Traced w left.walk)
    (fs : Factors) : Traced (w ++ fs.word) (fs.treeFrom left).walk := by
  cases fs with
  | nil =>
    rw [Factors.word, Factors.treeFrom, List.append_nil]
    exact hleft
  | cons operator next others =>
    have hfirst := Traced.binary .term rfl rfl operator hleft next.traced
    have hall := others.traced_treeFrom hfirst
    rw [List.append_assoc] at hall
    rw [Factors.word, Factors.treeFrom]
    exact hall

theorem Expression.traced (e : Expression) : Traced e.word e.tree.walk := by
  cases e with
  | mk first others =>
    rw [Expression.word, Expression.tree]
    exact others.traced_treeFrom first.traced

theorem Terms.traced_treeFrom {w : List Token} {left : Tree} (hleft : Traced w left.walk)
    (ts : Terms) : Traced (w ++ ts.word) (ts.treeFrom left).walk := by
  cases ts with
  | nil =>
    rw [Terms.word, Terms.treeFrom, List.append_nil]
    exact hleft
  | cons operator next others =>
    have hfirst := Traced.binary .expression rfl rfl operator hleft next.traced
    have hall := others.traced_treeFrom hfirst
    rw [List.append_assoc] at hall
    rw [Terms.word, Terms.treeFrom]
    exact hall

theorem Arguments.traced (as : Arguments) : Traced as.word (walkAll as.trees) := by
  cases as with
  | none =>
    rw [Arguments.trees]
    exact .nil _
  | some first others =>
    rw [Arguments.word, Arguments.trees]
    exact .walkAll_cons first.traced others.traced

theorem MoreArguments.traced (as : MoreArguments) : Traced as.word (walkAll as.trees) := by
  cases as with
  | nil =>
    rw [MoreArguments.trees]
    exact .nil _
  | cons comma next others =>
    rw [MoreArguments.word, MoreArguments.trees, List.cons_append]
    exact .skip _ (.walkAll_cons next.traced others.traced)

end

theorem Test.traced (t : Test) : Traced t.word t.condition.tree.walk := by
  rw [Test.word, Condition.word, Condition.tree, List.cons_append]
  exact .skip _ ((Traced.binary _ rfl rfl t.condition.operator t.condition.left.traced
    t.condition.right.traced).append_nil _)

/-! ## Statements -/

theorem Parameter.traced (p : Parameter) : Traced p.word p.tree.walk := by
  refine .tree (.inner rfl rfl (List.forall_mem_cons.mpr ⟨?_, List.forall_mem_singleton.mpr ?_⟩))
    (.nil _)
  · exact isTextOf_name p.name List.mem_cons_self
  · exact isTextOf_oneOf rfl p.type (by simp)

theorem traced_moreParameters (ps : List (Of .comma × Parameter)) :
    Traced (moreParametersWord ps) (walkAll (ps.map (·.2.tree))) := by
  induction ps with
  | nil => exact .nil _
  | cons p ps ih =>
    have hword : moreParametersWord (p :: ps) = p.1.1 :: (p.2.word ++ moreParametersWord ps) := rfl
    rw [hword]
    exact .skip _ (.walkAll_cons p.2.traced ih)

/-- The node of the parameters stands at the first one, or at the parenthesis after none. -/
theorem Parameters.traced (ps : Parameters) (right : Token) (rest : List Token) :
    Traced (ps.word ++ right :: rest) (parametersNode (ps.start right) ps.trees).walk := by
  cases ps with
  | none => exact .tree (.inner rfl rfl (List.forall_mem_nil _)) (.nil _)
  | some first others =>
    have hchildren : Traced ((Parameters.some first others).word ++ right :: rest)
        (walkAll (Parameters.some first others).trees) :=
      (Traced.walkAll_cons first.traced (traced_moreParameters others)).append_nil _
    rw [walk_eq_cons]
    exact .node (.inner rfl rfl (List.forall_mem_nil _)) hchildren

theorem traced_valueWord (value : Option (Of .assign × Expression)) :
    Traced (valueWord value) (walkAll (value.map (·.2.tree)).toList) := by
  cases value with
  | none => exact .nil _
  | some v => exact .skip _ (.walkAll_singleton v.2.traced)

mutual

theorem Statement.traced (s : Statement) : Traced s.word s.tree.walk := by
  cases s with
  | function word name left parameters right arrow type body =>
    have hparameters := parameters.traced right.1 [arrow.1, type.1]
    have hchildren := hparameters.walkAll_cons (.walkAll_singleton body.traced)
    rw [List.append_assoc] at hchildren
    rw [Statement.word, Statement.tree]
    refine .tree (.inner rfl rfl ?_) (.skip _ (.skip _ hchildren))
    refine List.forall_mem_cons.mpr ⟨?_, List.forall_mem_singleton.mpr ?_⟩
    · exact isTextOf_name name (by simp)
    · exact isTextOf_oneOf rfl type (by simp)
  | declaration word name colon type value =>
    rw [Statement.word, Statement.tree]
    refine .tree (.inner rfl rfl ?_) (.skip _ (.skip _ (.skip _ (traced_valueWord value))))
    refine List.forall_mem_cons.mpr ⟨?_, List.forall_mem_singleton.mpr ?_⟩
    · exact isTextOf_name name (by simp)
    · exact isTextOf_oneOf rfl type (by simp)
  | conditional word test body others =>
    have hchildren := test.traced.walkAll_cons (body.traced.walkAll_cons others.traced)
    rw [Statement.word, Statement.tree, List.append_assoc]
    exact .tree (readAt_plainNode rfl _ _ _) hchildren
  | loop word test body =>
    rw [Statement.word, Statement.tree]
    exact .tree (readAt_plainNode rfl _ _ _)
      (test.traced.walkAll_cons (.walkAll_singleton body.traced))
  | giveBack word value =>
    rw [Statement.word, Statement.tree]
    exact .tree (readAt_plainNode rfl _ _ _) (.walkAll_singleton value.traced)
  | assignment name sign value =>
    rw [Statement.word, Statement.tree]
    refine .tree (.inner rfl rfl ?_) (.skip _ (.walkAll_singleton value.traced))
    exact List.forall_mem_singleton.mpr (isTextOf_name name List.mem_cons_self)
  | expression value =>
    rw [Statement.word, Statement.tree]
    exact value.traced

theorem Block.traced (b : Block) : Traced b.word b.tree.walk := by
  cases b with
  | mk left statements right =>
    rw [Block.word, Block.tree, List.cons_append]
    exact .tree (readAt_plainNode rfl _ _ _) (statements.traced.append_nil _)

theorem Statements.traced (ss : Statements) : Traced ss.word (walkAll ss.trees) := by
  cases ss with
  | nil =>
    rw [Statements.trees]
    exact .nil _
  | cons first others =>
    rw [Statements.word, Statements.trees]
    exact .walkAll_cons first.traced others.traced

theorem Branches.traced (bs : Branches) : Traced bs.word (walkAll bs.trees) := by
  cases bs with
  | nil =>
    rw [Branches.trees]
    exact .nil _
  | elseIf word test body others =>
    have hbranch : Traced (word.1 :: (test.word ++ body.word))
        (plainNode .elseIf word.1.location [test.condition.tree, body.tree]).walk :=
      .tree (readAt_plainNode rfl _ _ _)
        (test.traced.walkAll_cons (.walkAll_singleton body.traced))
    rw [Branches.word, Branches.trees]
    exact hbranch.walkAll_cons others.traced
  | otherwise word body =>
    rw [Branches.word, Branches.trees]
    exact .walkAll_singleton (.tree (readAt_plainNode rfl _ _ _) (.walkAll_singleton body.traced))

end

/-- The node of a program stands at its first token, which may be the one that ends the input. -/
theorem Statements.traced_program (stop : Token) (ss : Statements) :
    Traced (ss.word ++ [stop]) (ss.program stop).walk := by
  have hchildren : Traced (ss.word ++ [stop]) (walkAll ss.trees) := ss.traced.append_nil _
  rw [walk_eq_cons, Statements.program]
  cases hword : ss.word with
  | nil =>
    rw [hword] at hchildren
    exact .node (readAt_plainNode rfl stop [] _) hchildren
  | cons t w =>
    rw [hword] at hchildren
    exact .node (readAt_plainNode rfl t (w ++ [stop]) _) hchildren

end Grammar

end StackLang
