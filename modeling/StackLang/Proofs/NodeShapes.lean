import StackLang.Proofs.Causes

/-!
# What the compiler can meet in a source text

The compiler is prepared for trees of any shape and says what is wrong with a node that has no
meaning. The nodes of a parsed source text all have the shapes of a small table: which text and
which attributes a node of each kind has, which operators, and which kinds of children. So of all
constructs without a meaning only two can be met in a source text: a return outside functions, and a
function inside something.
-/

namespace StackLang

open Grammar (plainNode declarationNode assignmentNode functionNode parametersNode)

/-! ## The table of shapes -/

namespace Tree

namespace Kind

/-- The kinds of nodes that stand for values. -/
def isValue : Kind → Bool
  | expression | term | negate | functionCall | number | identifier => true
  | _ => false

/-- The kinds of nodes that stand for statements. -/
def isStatement : Kind → Bool
  | function | variableDeclaration | assignment | conditional | loop | giveBack => true
  | kind => kind.isValue

/-- The names of the attributes of a node. -/
def attributeNames : Kind → List String
  | function => ["name", "returnType"]
  | parameter | variableDeclaration => ["name", "type"]
  | assignment | functionCall => ["name"]
  | condition | expression | term | negate => ["operator"]
  | _ => []

/-- The operators of a node. -/
def operators : Kind → List String
  | condition => ["==", "!=", "<", ">", "<=", ">="]
  | expression => ["+", "-"]
  | term => ["*", "/"]
  | negate => ["-"]
  | _ => []

/-- The texts of a node: digits for a number, anything for a name. -/
def Spells : Kind → Option String → Prop
  | number, text => ∃ digits, text = some digits ∧ digits ≠ "" ∧
      ∀ c ∈ digits.toList, Text.isAsciiDigit c = true
  | identifier, text => ∃ name, text = some name
  | _, text => text = none

/-- The kinds of the children of a node. -/
def Holds : Kind → List Kind → Prop
  | program, kinds | block, kinds => ∀ k ∈ kinds, k.isStatement = true
  | function, kinds => kinds = [.parameterList, .block]
  | parameterList, kinds => ∀ k ∈ kinds, k = .parameter
  | variableDeclaration, kinds => kinds.length ≤ 1 ∧ ∀ k ∈ kinds, k.isValue = true
  | assignment, kinds | giveBack, kinds | negate, kinds =>
    kinds.length = 1 ∧ ∀ k ∈ kinds, k.isValue = true
  | conditional, kinds => ∃ n, kinds = .condition :: .block :: List.replicate n .elseIf ∨
      kinds = .condition :: .block :: List.replicate n .elseIf ++ [.otherwise]
  | elseIf, kinds | loop, kinds => kinds = [.condition, .block]
  | otherwise, kinds => kinds = [.block]
  | condition, kinds | expression, kinds | term, kinds =>
    kinds.length = 2 ∧ ∀ k ∈ kinds, k.isValue = true
  | functionCall, kinds => ∀ k ∈ kinds, k.isValue = true
  | parameter, kinds | number, kinds | identifier, kinds => kinds = []

end Kind

/-- A node has the text, the attributes, the operator and the children that the table gives. -/
structure HasShape (t : Tree) : Prop where
  text : t.kind.Spells t.value
  attributes : t.attributes.map Prod.fst = t.kind.attributeNames
  operator : ∀ o ∈ t.get? "operator", o ∈ t.kind.operators
  children : t.kind.Holds (t.children.map kind)

/-- All nodes of a tree have the shapes of the table. -/
def WellShaped (t : Tree) : Prop := ∀ n ∈ t.walk, n.HasShape

theorem wellShaped_mk {kind : Kind} {value : Option String} {attributes : Attributes}
    {children : List Tree} {location : Option Location}
    (hnode : HasShape ⟨kind, value, attributes, children, location⟩)
    (hchildren : ∀ c ∈ children, c.WellShaped) :
    WellShaped ⟨kind, value, attributes, children, location⟩ := by
  intro n hn
  rw [walk_mk] at hn
  rcases List.mem_cons.mp hn with rfl | hn
  · exact hnode
  · obtain ⟨c, hc, hn⟩ := mem_walkAll.mp hn
    exact hchildren c hc n hn

/-! ## Values -/

theorem IsValue.isValue_kind {t : Tree} (h : t.IsValue) : t.kind.isValue = true := by
  cases h with
  | operator kind op left right location hkind htakes =>
    cases kind <;> first
      | rfl
      | cases htakes
      | exact absurd rfl hkind
  | _ => rfl

theorem Kind.spelling_mem_operators {kind : Kind} {op : Operator} (h : kind.takes op = true) :
    op.spelling ∈ kind.operators := by
  cases kind <;> cases op <;> first
    | decide
    | cases h

theorem hasShape_operatorNode {kind : Kind} {op : Operator} {left right : Tree}
    (location : Option Location) (htakes : kind.takes op = true) (hleft : left.IsValue)
    (hright : right.IsValue) : (operatorNode kind op left right location).HasShape := by
  have hoperator : ∀ o ∈ some op.spelling, o ∈ kind.operators := by
    rintro o ⟨⟩
    exact Kind.spelling_mem_operators htakes
  have hvalues : ∀ k ∈ [left.kind, right.kind], k.isValue = true := by
    simp [hleft.isValue_kind, hright.isValue_kind]
  cases kind <;> first
    | cases htakes
    | exact ⟨rfl, rfl, hoperator, rfl, hvalues⟩

theorem IsValue.wellShaped {t : Tree} (h : t.IsValue) : t.WellShaped := by
  induction h with
  | number digits location hne hdigits =>
    exact wellShaped_mk ⟨⟨digits, rfl, hne, hdigits⟩, rfl, by rintro o ⟨⟩, rfl⟩ (by simp)
  | name name location =>
    exact wellShaped_mk ⟨⟨name, rfl⟩, rfl, by rintro o ⟨⟩, rfl⟩ (by simp)
  | negate operand location hoperand ih =>
    refine wellShaped_mk ⟨rfl, rfl, ?_, rfl, ?_⟩ (by simpa using ih)
    · rintro o ⟨⟩
      exact List.mem_singleton_self "-"
    · simpa using hoperand.isValue_kind
  | operator kind op left right location hkind htakes hleft hright ihleft ihright =>
    exact wellShaped_mk (hasShape_operatorNode location htakes hleft hright)
      (by simp [ihleft, ihright])
  | call name arguments location harguments ih =>
    refine wellShaped_mk ⟨rfl, rfl, by rintro o ⟨⟩, ?_⟩ ih
    exact List.forall_mem_map.mpr fun a ha => (harguments a ha).isValue_kind

theorem IsCondition.wellShaped {t : Tree} (h : t.IsCondition) : t.WellShaped := by
  cases h with
  | mk op left right location htakes hleft hright =>
    exact wellShaped_mk (hasShape_operatorNode location htakes hleft hright)
      (by simp [hleft.wellShaped, hright.wellShaped])

theorem IsCondition.kind_eq {t : Tree} (h : t.IsCondition) : t.kind = .condition := by
  cases h
  rfl

/-! ## Statements -/

theorem IsStatement.isStatement_kind {t : Tree} (h : t.IsStatement) :
    t.kind.isStatement = true := by
  cases h with
  | value t hvalue =>
    have hkind := hvalue.isValue_kind
    cases hk : t.kind <;> rw [hk] at hkind <;> first
      | rfl
      | cases hkind
  | _ => rfl

theorem wellShaped_blockNode (place : Location) {body : List Tree}
    (hstatements : ∀ s ∈ body, s.IsStatement) (h : ∀ s ∈ body, s.WellShaped) :
    (blockNode place body).WellShaped := by
  refine wellShaped_mk ⟨rfl, rfl, by rintro o ⟨⟩, ?_⟩ h
  exact List.forall_mem_map.mpr fun s hs => (hstatements s hs).isStatement_kind

theorem wellShaped_parametersNode (start : Location) (formals : List Formal) :
    (parametersNode start (formals.map Formal.tree)).WellShaped := by
  refine wellShaped_mk ⟨rfl, rfl, by rintro o ⟨⟩, ?_⟩ ?_
  · simp only [List.map_map]
    exact List.forall_mem_map.mpr fun p _ => rfl
  · exact List.forall_mem_map.mpr fun p _ =>
      wellShaped_mk ⟨rfl, rfl, by rintro o ⟨⟩, rfl⟩ (by simp)

namespace Chain

theorem exists_kinds (rest : Chain) :
    ∃ n, rest.trees.map kind = List.replicate n .elseIf ∨
      rest.trees.map kind = List.replicate n .elseIf ++ [.otherwise] := by
  induction rest with
  | none => exact ⟨0, .inl rfl⟩
  | otherwise location place body => exact ⟨0, .inr rfl⟩
  | elseIf location place condition body rest ih =>
    obtain ⟨n, hn⟩ := ih
    refine ⟨n + 1, hn.imp ?_ ?_⟩
    · exact fun hn => congrArg (Kind.elseIf :: ·) hn
    · exact fun hn => congrArg (Kind.elseIf :: ·) hn

theorem wellShaped {rest : Chain} (hconditions : ∀ c ∈ rest.conditions, c.IsCondition)
    (hstatements : ∀ s ∈ rest.statements, s.IsStatement)
    (h : ∀ s ∈ rest.statements, s.WellShaped) : ∀ t ∈ rest.trees, t.WellShaped := by
  induction rest with
  | none => simp [trees]
  | otherwise location place body =>
    have hblock := wellShaped_blockNode place hstatements h
    refine List.forall_mem_singleton.mpr ?_
    exact wellShaped_mk ⟨rfl, rfl, by rintro o ⟨⟩, rfl⟩ (List.forall_mem_singleton.mpr hblock)
  | elseIf location place condition body rest ih =>
    have hcondition := hconditions condition List.mem_cons_self
    have hblock := wellShaped_blockNode place
      (fun s hs => hstatements s (List.mem_append_left _ hs))
      fun s hs => h s (List.mem_append_left _ hs)
    have hrest := ih (fun c hc => hconditions c (List.mem_cons_of_mem _ hc))
      (fun s hs => hstatements s (List.mem_append_right _ hs))
      fun s hs => h s (List.mem_append_right _ hs)
    refine List.forall_mem_cons.mpr ⟨?_, hrest⟩
    refine wellShaped_mk ⟨rfl, rfl, by rintro o ⟨⟩, ?_⟩ (by simp [hcondition.wellShaped, hblock])
    exact congrArg ([·, .block]) hcondition.kind_eq

end Chain

theorem IsStatement.wellShaped {t : Tree} (h : t.IsStatement) : t.WellShaped := by
  induction h with
  | function location start place name type formals body hbody ih =>
    have hblock := wellShaped_blockNode place hbody ih
    exact wellShaped_mk ⟨rfl, rfl, by rintro o ⟨⟩, rfl⟩
      (by simp [wellShaped_parametersNode, hblock])
  | declaration location name type value hvalue =>
    cases value with
    | none => exact wellShaped_mk ⟨rfl, rfl, by rintro o ⟨⟩, Nat.zero_le 1, by simp⟩ (by simp)
    | some v =>
      have hv : v.IsValue := hvalue v rfl
      refine wellShaped_mk ⟨rfl, rfl, by rintro o ⟨⟩, Nat.le_refl 1, ?_⟩ ?_
      · exact List.forall_mem_singleton.mpr hv.isValue_kind
      · exact List.forall_mem_singleton.mpr hv.wellShaped
  | assignment location name value hvalue =>
    refine wellShaped_mk ⟨rfl, rfl, by rintro o ⟨⟩, rfl, ?_⟩ ?_
    · exact List.forall_mem_singleton.mpr hvalue.isValue_kind
    · exact List.forall_mem_singleton.mpr hvalue.wellShaped
  | conditional location place condition body rest hcondition hbody hconditions hrest ihbody
    ihrest =>
    have hblock := wellShaped_blockNode place hbody ihbody
    have hchain := Chain.wellShaped hconditions hrest ihrest
    refine wellShaped_mk ⟨rfl, rfl, by rintro o ⟨⟩, ?_⟩ ?_
    · obtain ⟨n, hn⟩ := rest.exists_kinds
      have hkinds : (condition :: blockNode place body :: rest.trees).map kind =
          .condition :: .block :: rest.trees.map kind := by
        rw [List.map_cons, hcondition.kind_eq]
        rfl
      refine ⟨n, hn.imp (fun hn => ?_) fun hn => ?_⟩
      · rw [hkinds, hn]
      · rw [hkinds, hn]
        rfl
    · exact List.forall_mem_cons.mpr
        ⟨hcondition.wellShaped, List.forall_mem_cons.mpr ⟨hblock, hchain⟩⟩
  | loop location place condition body hcondition hbody ihbody =>
    have hblock := wellShaped_blockNode place hbody ihbody
    refine wellShaped_mk ⟨rfl, rfl, by rintro o ⟨⟩, ?_⟩ (by simp [hcondition.wellShaped, hblock])
    exact congrArg ([·, .block]) hcondition.kind_eq
  | giveBack location value hvalue =>
    refine wellShaped_mk ⟨rfl, rfl, by rintro o ⟨⟩, rfl, ?_⟩ ?_
    · exact List.forall_mem_singleton.mpr hvalue.isValue_kind
    · exact List.forall_mem_singleton.mpr hvalue.wellShaped
  | value t hvalue => exact hvalue.wellShaped

end Tree

/-- All nodes of a parsed program have the shapes of the table. -/
theorem Script.Reading.wellShaped {tree : Tree} {statements : List Tree}
    {fs : List Tree.Parts} {s : Script} (h : Script.Reading tree statements fs s) :
    tree.WellShaped := by
  obtain ⟨location, rfl⟩ := h.program
  refine Tree.wellShaped_mk ⟨rfl, rfl, by rintro o ⟨⟩, ?_⟩
    fun t ht => (h.isStatement t ht).wellShaped
  exact List.forall_mem_map.mpr fun t ht => (h.isStatement t ht).isStatement_kind

/-! ## What can be found -/

/-- The misuses that can be written in a source text. -/
def Misuse.IsWritten : Misuse → Prop
  | .returnOutsideFunction | .nestedFunction (some _) => True
  | _ => False

/-- The causes of errors that can be written in a source text. -/
def Cause.IsWritten : Cause → Prop
  | .misuse m => m.IsWritten
  | .remark _ _ _ => False
  | _ => True

/-- What is found is a breakdown, or can be written in a source text. -/
def Finding.IsWritten : Finding → Prop
  | .issue cause _ => cause.IsWritten
  | .breakdown _ => True

theorem Finding.isWritten_unknownName {cause : String → List String → Cause}
    (h : ∀ name similar, (cause name similar).IsWritten) (name : Option String)
    (candidates : List (Option String)) (location : Option Location) :
    (Finding.unknownName cause name candidates location).IsWritten := by
  cases name with
  | none => trivial
  | some n =>
    rw [Finding.unknownName]
    split
    · trivial
    · exact h _ _

theorem Scope.isWritten_variableFindings (σ : Scope) (name : Option String)
    (location : Option Location) : ∀ f ∈ σ.variableFindings name location, f.IsWritten := by
  rw [Scope.variableFindings]
  cases σ.resolve? name with
  | some place => simp
  | none =>
    refine List.forall_mem_singleton.mpr (Finding.isWritten_unknownName ?_ _ _ _)
    exact fun _ _ => trivial

theorem Scope.isWritten_callFindings (σ : Scope) (callee : Option String) (count : Nat)
    (location : Option Location) : ∀ f ∈ σ.callFindings callee count location, f.IsWritten := by
  rw [Scope.callFindings]
  cases σ.signature? callee with
  | none =>
    refine List.forall_mem_singleton.mpr (Finding.isWritten_unknownName ?_ _ _ _)
    exact fun _ _ => trivial
  | some f =>
    simp only
    split
    · simp
    · exact List.forall_mem_singleton.mpr trivial

/-- All that can be found in the expression has a property. -/
def Expr.FindsOnly (Q : Finding → Prop) (e : Expr) : Prop := ∀ σ, ∀ f ∈ e.findings σ, Q f

/-- All that can be found in the statement has a property. -/
def Stmt.FindsOnly (Q : Finding → Prop) (s : Stmt) : Prop := ∀ σ, ∀ f ∈ s.findings σ, Q f

section FindsOnly

variable {Q : Finding → Prop}

namespace Expr

theorem findsOnly_findingsAll {es : List Expr} (h : ∀ e ∈ es, e.FindsOnly Q) (σ : Scope) :
    ∀ f ∈ findingsAll σ es, Q f := by
  induction es with
  | nil => exact List.forall_mem_nil _
  | cons e es ih =>
    obtain ⟨he, hes⟩ := List.forall_mem_cons.mp h
    exact List.forall_mem_append.mpr ⟨he σ, ih hes⟩

theorem FindsOnly.binary {left right : Expr} (hleft : left.FindsOnly Q)
    (hright : right.FindsOnly Q) (op : Operator) : (Expr.binary op left right).FindsOnly Q :=
  fun σ => List.forall_mem_append.mpr ⟨hleft σ, hright σ⟩

theorem findsOnly_call {callee : Option String} {arguments : List Expr}
    {location : Option Location} (h : ∀ e ∈ arguments, e.FindsOnly Q)
    (hprint : Q (.issue (.argumentCount printName 1 arguments.length) location))
    (hcall : ∀ σ : Scope, ∀ f ∈ σ.callFindings callee arguments.length location, Q f) :
    (Expr.call callee arguments location).FindsOnly Q := by
  intro σ
  rw [findings]
  split
  · refine List.forall_mem_append.mpr ⟨?_, findsOnly_findingsAll h σ⟩
    split
    · exact List.forall_mem_nil _
    · exact List.forall_mem_singleton.mpr hprint
  · exact List.forall_mem_append.mpr ⟨findsOnly_findingsAll h σ, hcall σ⟩

theorem findsOnly_number (digits : String) (hlong : ∀ n, Q (.breakdown (.longNumeral n))) :
    (Expr.number digits).FindsOnly Q := by
  intro σ
  rw [findings]
  split
  · exact List.forall_mem_singleton.mpr (hlong _)
  · exact List.forall_mem_nil _

end Expr

namespace Stmt

theorem findsOnly_skip : Stmt.skip.FindsOnly Q := fun _ => List.forall_mem_nil _

theorem FindsOnly.seq {first second : Stmt} (hfirst : first.FindsOnly Q)
    (hsecond : second.FindsOnly Q) : (Stmt.seq first second).FindsOnly Q :=
  fun σ => List.forall_mem_append.mpr ⟨hfirst σ, hsecond _⟩

theorem FindsOnly.branch {condition : Expr} {yes no : Stmt} (chained : Bool)
    (hcondition : condition.FindsOnly Q) (hyes : yes.FindsOnly Q) (hno : no.FindsOnly Q) :
    (Stmt.branch chained condition yes no).FindsOnly Q :=
  fun σ => List.forall_mem_append.mpr ⟨List.forall_mem_append.mpr ⟨hcondition σ, hyes σ⟩, hno _⟩

theorem findsOnly_ofTrees {ts : List Tree} (h : ∀ t ∈ ts, (Stmt.ofTree t).FindsOnly Q) :
    (Stmt.ofTrees ts).FindsOnly Q := by
  induction ts with
  | nil => exact findsOnly_skip
  | cons t ts ih =>
    obtain ⟨ht, hts⟩ := List.forall_mem_cons.mp h
    exact ht.seq (ih hts)

end Stmt

end FindsOnly

/-- In the expression nothing can be found that cannot be written. -/
def Expr.Written (e : Expr) : Prop := ∀ σ, ∀ f ∈ e.findings σ, f.IsWritten

/-- In the statement nothing can be found that cannot be written. -/
def Stmt.Written (s : Stmt) : Prop := ∀ σ, ∀ f ∈ s.findings σ, f.IsWritten

namespace Expr

theorem written_ofTree {t : Tree} (h : t.IsValue) : (Expr.ofTree t).Written := by
  induction h with
  | number digits location hne hdigits =>
    rw [ofTree_number location hne hdigits]
    exact findsOnly_number digits fun _ => trivial
  | name name location => exact fun σ => σ.isWritten_variableFindings (some name) location
  | negate operand location hoperand ih => exact ih
  | operator kind op left right location hkind htakes hleft hright ihleft ihright =>
    rw [ofTree_operatorNode left right location htakes]
    exact FindsOnly.binary ihleft ihright op
  | call name arguments location harguments ih =>
    rw [ofTree_call]
    exact findsOnly_call (List.forall_mem_map.mpr ih) trivial
      fun σ => σ.isWritten_callFindings (some name) _ location

theorem written_condition {t : Tree} (h : t.IsCondition) : (Expr.ofTree t).Written := by
  cases h with
  | mk op left right location htakes hleft hright =>
    rw [ofTree_operatorNode left right location htakes]
    exact FindsOnly.binary (written_ofTree hleft) (written_ofTree hright) op

end Expr

namespace Stmt

theorem written_ofChain {rest : Tree.Chain} (hconditions : ∀ c ∈ rest.conditions, c.IsCondition)
    (h : ∀ t ∈ rest.statements, (Stmt.ofTree t).Written) : (Stmt.ofChain rest).Written := by
  induction rest with
  | none => exact findsOnly_skip
  | otherwise location place body => exact findsOnly_ofTrees h
  | elseIf location place condition body rest ih =>
    have hcondition := hconditions condition List.mem_cons_self
    have hrest := ih (fun c hc => hconditions c (List.mem_cons_of_mem _ hc))
      fun t ht => h t (List.mem_append_right _ ht)
    exact FindsOnly.branch true (Expr.written_condition hcondition)
      (findsOnly_ofTrees fun t ht => h t (List.mem_append_left _ ht)) hrest

/-- Of the misuses, a statement of a source text has only nested functions and returns. -/
theorem written_ofTree {t : Tree} (h : t.IsStatement) : (Stmt.ofTree t).Written := by
  induction h with
  | function location start place name type formals body hbody ih =>
    exact fun σ => List.forall_mem_singleton.mpr trivial
  | declaration location name type value hvalue =>
    rw [ofTree_declaration]
    intro σ
    cases value with
    | none => simp [findings, Expr.findings?]
    | some v => exact Expr.written_ofTree (hvalue v rfl) _
  | assignment location name value hvalue =>
    exact fun σ => List.forall_mem_append.mpr
      ⟨Expr.written_ofTree hvalue σ, σ.isWritten_variableFindings (some name) _⟩
  | conditional location place condition body rest hcondition hbody hconditions hrest ihbody
    ihrest =>
    rw [ofTree_conditional location place body rest hcondition]
    exact FindsOnly.branch false (Expr.written_condition hcondition) (findsOnly_ofTrees ihbody)
      (written_ofChain hconditions ihrest)
  | loop location place condition body hcondition hbody ihbody =>
    exact fun σ => List.forall_mem_append.mpr
      ⟨Expr.written_condition hcondition σ, findsOnly_ofTrees ihbody σ⟩
  | giveBack location value hvalue =>
    intro σ
    rw [ofTree_giveBack, findings]
    cases σ.inside with
    | none => exact List.forall_mem_singleton.mpr trivial
    | some f => exact Expr.written_ofTree hvalue σ
  | value t hvalue =>
    rw [ofTree_value hvalue]
    exact Expr.written_ofTree hvalue

end Stmt

/-! ## Functions -/

namespace Script

/-- A function gets code for its own body, lacks its name or its body, or repeats a name. -/
theorem mem_fatesFrom {signatures : List Signature} {seen : List String} {fs : List Function}
    {fate : Fate} (h : fate ∈ fatesFrom signatures seen fs) :
    ∃ f ∈ fs, (∃ d, fate = .defined d ∧ d.written = f ∧ f.body = some d.body) ∨
      (fate = .incomplete f.location ∧ (f.name = none ∨ f.body = none)) ∨
      ∃ name, fate = .repeated name f.location := by
  induction fs generalizing seen with
  | nil => cases h
  | cons f fs ih =>
    have hrest {seen : List String} (h : fate ∈ fatesFrom signatures seen fs) :=
      (ih h).imp fun g => And.imp_left (List.mem_cons_of_mem f)
    rw [fatesFrom] at h
    split at h
    · rename_i name body hname hbody
      split at h
      · rcases List.mem_cons.mp h with rfl | h
        · exact ⟨f, List.mem_cons_self, .inr (.inr ⟨name, rfl⟩)⟩
        · exact hrest h
      · rcases List.mem_cons.mp h with rfl | h
        · exact ⟨f, List.mem_cons_self, .inl ⟨_, rfl, rfl, hbody⟩⟩
        · exact hrest h
    · rename_i hnone
      rcases List.mem_cons.mp h with rfl | h
      · refine ⟨f, List.mem_cons_self, .inr (.inl ⟨rfl, ?_⟩)⟩
        cases hname : f.name with
        | none => exact .inl rfl
        | some name =>
          cases hbody : f.body with
          | none => exact .inr rfl
          | some body => exact absurd hbody (hnone name body hname)
      · exact hrest h

/-- In a parsed program nothing is found that cannot be written. -/
theorem Reading.isWritten_findings {tree : Tree} {statements : List Tree} {fs : List Tree.Parts}
    {s : Script} (h : Reading tree statements fs s) : ∀ f ∈ s.findings, f.IsWritten := by
  rw [findings, entryFindings, h.script_eq]
  refine List.forall_mem_append.mpr ⟨List.forall_mem_append.mpr ⟨?_, ?_⟩, ?_⟩
  · exact List.forall_mem_map.mpr fun d _ => trivial
  · refine Stmt.findsOnly_ofTrees (fun t ht => Stmt.written_ofTree ?_) _
    exact h.isStatement t (List.mem_filter.mp ht).1
  · intro f hf
    obtain ⟨fate, hfate, hf⟩ := List.mem_flatMap.mp hf
    obtain ⟨g, hg, hfates⟩ := mem_fatesFrom hfate
    obtain ⟨parts, hparts, rfl⟩ := List.mem_map.mp hg
    rcases hfates with ⟨d, rfl, -, hbody⟩ | ⟨-, hnone⟩ | ⟨name, rfl⟩
    · have hwritten : d.body.Written := by
        rw [← Option.some.inj hbody]
        exact Stmt.findsOnly_ofTrees fun t ht => Stmt.written_ofTree (h.bodies parts hparts t ht)
      rcases List.mem_append.mp hf with hf | hf
      · obtain ⟨p, -, rfl⟩ := List.mem_map.mp hf
        trivial
      · exact hwritten _ f hf
    · -- Every function of a parsed program has its name and its body.
      rcases hnone with hnone | hnone <;> cases hnone
    · rw [List.mem_singleton.mp hf]
      trivial

end Script

/-- A written cause in the class of invalid statements is one of two. -/
theorem Cause.IsWritten.eq_of_category {cause : Cause} (h : cause.IsWritten)
    (hcategory : cause.category = .family .statement) :
    cause = .misuse .returnOutsideFunction ∨
      ∃ name, cause = .misuse (.nestedFunction (some name)) := by
  cases cause with
  | misuse m =>
    cases m with
    | returnOutsideFunction => exact .inl rfl
    | nestedFunction name =>
      cases name with
      | none => cases h
      | some name => exact .inr ⟨name, rfl⟩
    | _ => cases h
  | remark family text hint => cases h
  | _ => cases hcategory

/-- All nodes of the tree of a source text have the shapes of the table, and the errors about
invalid statements that are found in it, and so those that a report keeps, are about returns outside
of functions and functions inside something. -/
theorem shape_diagnostics_unreachable {file source : String} {tree : Tree}
    (h : Source.tree file source = .ok tree) :
    tree.kind = .program ∧ tree.WellShaped ∧
      (∃ s, Script.ofTree? tree = some s ∧
        ∀ cause ∈ s.causes, cause.category = .family .statement →
          cause = .misuse .returnOutsideFunction ∨
            ∃ name, cause = .misuse (.nestedFunction (some name))) ∧
      ∀ options lines program report,
        (Generation.ofTree options lines tree).result = .ok (program, report) →
        ∀ d ∈ report.errors, d.cause.category = .family .statement →
          d.text = "'return' outside of a function" ∨
            ∃ name, d.text = "function '" ++ name ++ "' must be defined at top level" := by
  obtain ⟨statements, fs, s, hreading⟩ := Source.exists_reading h
  have hkind : tree.kind = .program := by
    obtain ⟨location, rfl⟩ := hreading.program
    rfl
  have hcauses : ∀ cause ∈ s.causes, cause.category = .family .statement →
      cause = .misuse .returnOutsideFunction ∨
        ∃ name, cause = .misuse (.nestedFunction (some name)) := by
    intro cause hcause
    obtain ⟨f, hf, hf'⟩ := List.mem_filterMap.mp hcause
    have hwritten := hreading.isWritten_findings f hf
    cases f with
    | issue cause location =>
      obtain rfl := Option.some.inj hf'
      exact Cause.IsWritten.eq_of_category hwritten
    | breakdown b => cases hf'
  refine ⟨hkind, hreading.wellShaped, ⟨s, hreading.script, hcauses⟩, ?_⟩
  intro options lines program report hresult d hd hcategory
  have hmem : d.cause ∈ s.causes := by
    rw [Generation.ofTree, hreading.script] at hresult
    cases hbreakdown : s.breakdown? with
    | some b =>
      rw [Generation.result_ofScript_of_breakdown? hbreakdown] at hresult
      cases hresult
    | none =>
      obtain ⟨report', hresult', hreports⟩ :=
        Generation.exists_result_ofScript hbreakdown options lines
      obtain ⟨-, rfl⟩ := Prod.mk.inj (Except.ok.inj (hresult.symm.trans hresult'))
      have hkept : d.cause ∈ report.errors.map Diagnostic.cause := List.mem_map_of_mem hd
      rw [hreports.kept] at hkept
      exact List.mem_of_mem_take hkept
  rcases hcauses d.cause hmem hcategory with heq | ⟨name, heq⟩
  · left
    rw [Diagnostic.text, heq]
    rfl
  · right
    refine ⟨name, ?_⟩
    rw [Diagnostic.text, heq]
    rfl

/-- A return outside of functions, and a function inside a branch. -/
def misplaced : String := "return 1 if (1 == 1) \x7b fn f() -> int \x7b return 2 \x7d \x7d"

theorem shape_diagnostics_unreachable_misplaced :
    ∃ tree s, Source.tree "misplaced" misplaced = .ok tree ∧ Script.ofTree? tree = some s ∧
      s.causes = [.misuse .returnOutsideFunction, .misuse (.nestedFunction (some "f"))] ∧
      tree.kind = .program ∧ tree.WellShaped ∧
      (∃ s, Script.ofTree? tree = some s ∧
        ∀ cause ∈ s.causes, cause.category = .family .statement →
          cause = .misuse .returnOutsideFunction ∨
            ∃ name, cause = .misuse (.nestedFunction (some name))) ∧
      ∀ options lines program report,
        (Generation.ofTree options lines tree).result = .ok (program, report) →
        ∀ d ∈ report.errors, d.cause.category = .family .statement →
          d.text = "'return' outside of a function" ∨
            ∃ name, d.text = "function '" ++ name ++ "' must be defined at top level" := by
  have hcheck : ((Source.tree "misplaced" misplaced).toOption.bind Script.ofTree?).map
      Script.causes = some [.misuse .returnOutsideFunction,
        .misuse (.nestedFunction (some "f"))] := by
    decide +kernel
  cases htree : Source.tree "misplaced" misplaced with
  | error d =>
    rw [htree] at hcheck
    cases hcheck
  | ok tree =>
    rw [htree, Except.toOption, Option.bind_some] at hcheck
    obtain ⟨s, hs, hcauses⟩ := Option.map_eq_some_iff.mp hcheck
    exact ⟨tree, s, rfl, hs, hcauses, shape_diagnostics_unreachable htree⟩

end StackLang
