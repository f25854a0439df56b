import StackLang.Proofs.Accepted
import StackLang.Proofs.Unplaced

/-!
# Places do not matter to the compiler

The places in a script are there for messages: without them the script has the same code, and the
same is found in it in the same order. So trees that are equal without places get the same program
and the same causes of errors.
-/

namespace StackLang

/-! ## Scripts without places -/

mutual

/-- An expression without its places. -/
def Expr.unplaced : Expr → Expr
  | .number digits => .number digits
  | .variable name _ => .variable name none
  | .binary op left right => .binary op left.unplaced right.unplaced
  | .unknown operator left right _ => .unknown operator left.unplaced right.unplaced none
  | .negate operand => .negate operand.unplaced
  | .call callee arguments _ => .call callee (Expr.unplacedAll arguments) none
  | .hole m _ => .hole m none

/-- Several expressions without their places. -/
def Expr.unplacedAll : List Expr → List Expr
  | [] => []
  | e :: es => e.unplaced :: Expr.unplacedAll es

end

/-- A statement without its places. -/
def Stmt.unplaced : Stmt → Stmt
  | .skip => .skip
  | .seq first second => .seq first.unplaced second.unplaced
  | .declare name value => .declare name (value.map Expr.unplaced)
  | .assign name value _ => .assign name value.unplaced none
  | .discard value => .discard value.unplaced
  | .branch chained condition yes no =>
    .branch chained condition.unplaced yes.unplaced no.unplaced
  | .loop condition body => .loop condition.unplaced body.unplaced
  | .giveBack value _ => .giveBack (value.map Expr.unplaced) none
  | .misuse m _ => .misuse m none

/-- A parameter without its place. -/
def Parameter.unplaced (p : Parameter) : Parameter := { p with location := none }

/-- A function without its places. -/
def Function.unplaced (f : Function) : Function :=
  { f with
    location := none
    parameters := f.parameters.map Parameter.unplaced
    body := f.body.map Stmt.unplaced }

/-- A script without its places. -/
def Script.unplaced (s : Script) : Script :=
  { declared := s.declared.map fun d => (d.1, none)
    entry := s.entry.unplaced
    functions := s.functions.map Function.unplaced }

/-- A finding without its place. -/
def Finding.unplaced : Finding → Finding
  | .issue cause _ => .issue cause none
  | .breakdown b => .breakdown b

/-! ## Reading trees without places -/

section Reading

theorem Expr.unplacedAll_eq_map (es : List Expr) : Expr.unplacedAll es = es.map Expr.unplaced := by
  induction es with
  | nil => rfl
  | cons e es ih => rw [Expr.unplacedAll, ih, List.map_cons]

theorem Expr.ofNumber_unplaced (text : String) (location : Option Location) :
    Expr.ofNumber text none = (Expr.ofNumber text location).unplaced := by
  rw [Expr.ofNumber, Expr.ofNumber]
  split <;> rfl

theorem Expr.ofOperator_unplaced (operator : Option String) (left right : Expr)
    (location : Option Location) :
    Expr.ofOperator operator left.unplaced right.unplaced none =
      (Expr.ofOperator operator left right location).unplaced := by
  rw [Expr.ofOperator, Expr.ofOperator]
  cases operator.bind Operator.ofSpelling? <;> rfl

mutual

theorem Expr.ofTree_unplaced : (t : Tree) → Expr.ofTree t.unplaced = (Expr.ofTree t).unplaced
  | ⟨kind, value, attributes, children, location⟩ => by
    have hchildren := Expr.ofTrees_unplaced children
    cases kind with
    | number => exact Expr.ofNumber_unplaced _ _
    | identifier => rfl
    | functionCall => simp only [Tree.unplaced, Expr.ofTree, hchildren, Expr.unplaced]
    | negate =>
      simp only [Tree.unplaced, Expr.ofTree, hchildren]
      cases Expr.ofTrees children <;> rfl
    | expression | term | condition =>
      simp only [Tree.unplaced, Expr.ofTree, hchildren]
      cases Expr.ofTrees children with
      | nil => rfl
      | cons left rest =>
        cases rest with
        | nil => rfl
        | cons right rest =>
          cases rest with
          | nil => exact Expr.ofOperator_unplaced _ _ _ _
          | cons => rfl
    | _ => rfl

theorem Expr.ofTrees_unplaced : (ts : List Tree) →
    Expr.ofTrees (Tree.unplacedAll ts) = Expr.unplacedAll (Expr.ofTrees ts)
  | [] => rfl
  | t :: ts => by
    rw [Tree.unplacedAll, Expr.ofTrees, Expr.ofTree_unplaced t, Expr.ofTrees_unplaced ts,
      Expr.ofTrees, Expr.unplacedAll]

end

theorem Expr.head?_unplaced (ts : List Tree) :
    (Tree.unplacedAll ts).head?.map Expr.ofTree =
      (ts.head?.map Expr.ofTree).map Expr.unplaced := by
  cases ts with
  | nil => rfl
  | cons t ts => exact congrArg some (Expr.ofTree_unplaced t)

mutual

theorem Stmt.ofTree_unplaced : (t : Tree) → Stmt.ofTree t.unplaced = (Stmt.ofTree t).unplaced
  | ⟨kind, value, attributes, children, location⟩ => by
    simp only [Tree.unplaced]
    cases kind with
    | variableDeclaration =>
      simp only [Stmt.ofTree, Expr.head?_unplaced]
      cases attributes.get? "name" <;> rfl
    | assignment =>
      cases children with
      | nil => rfl
      | cons value rest =>
        simp only [Tree.unplacedAll, Stmt.ofTree, Expr.ofTree_unplaced value, Stmt.unplaced]
    | conditional =>
      simp only [Stmt.ofTree]
      rw [Stmt.ofElse_unplaced children, Stmt.ofBranches_unplaced location children,
        Stmt.ofArms_unplaced false location children]
    | loop =>
      cases children with
      | nil => rfl
      | cons condition rest =>
        cases rest with
        | nil => rfl
        | cons body rest =>
          simp only [Tree.unplacedAll, Stmt.ofTree, Expr.ofTree_unplaced condition,
            Stmt.ofBlock_unplaced body, Stmt.unplaced]
    | giveBack => simp only [Stmt.ofTree, Expr.head?_unplaced, Stmt.unplaced]
    | block => exact Stmt.ofTrees_unplaced children
    | function | program | parameterList | parameter | elseIf | otherwise => rfl
    | condition | expression | term | negate | functionCall | number | identifier =>
      exact congrArg Stmt.discard (Expr.ofTree_unplaced ⟨_, value, attributes, children, location⟩)

theorem Stmt.ofTrees_unplaced : (ts : List Tree) →
    Stmt.ofTrees (Tree.unplacedAll ts) = (Stmt.ofTrees ts).unplaced
  | [] => rfl
  | t :: ts => by
    rw [Tree.unplacedAll, Stmt.ofTrees, Stmt.ofTree_unplaced t, Stmt.ofTrees_unplaced ts,
      Stmt.ofTrees, Stmt.unplaced]

theorem Stmt.ofBlock_unplaced : (t : Tree) → Stmt.ofBlock t.unplaced = (Stmt.ofBlock t).unplaced
  | ⟨_, _, _, children, _⟩ => Stmt.ofTrees_unplaced children

theorem Stmt.ofArms_unplaced (chained : Bool) (location : Option Location) :
    (ts : List Tree) → (rest : Stmt) →
      Stmt.ofArms chained none (Tree.unplacedAll ts) rest.unplaced =
        (Stmt.ofArms chained location ts rest).unplaced
  | [], _ => rfl
  | [_], _ => rfl
  | condition :: block :: _, rest => by
    rw [Tree.unplacedAll, Tree.unplacedAll, Stmt.ofArms, Stmt.ofArms,
      Expr.ofTree_unplaced condition, Stmt.ofBlock_unplaced block, Stmt.unplaced]

theorem Stmt.ofBranches_unplaced (location : Option Location) :
    (ts : List Tree) → (rest : Stmt) →
      Stmt.ofBranches none (Tree.unplacedAll ts) rest.unplaced =
        (Stmt.ofBranches location ts rest).unplaced
  | [], _ => rfl
  | ⟨kind, _, _, children, _⟩ :: ts, rest => by
    have hrest := Stmt.ofBranches_unplaced location ts rest
    simp only [Tree.unplacedAll, Tree.unplaced, Stmt.ofBranches]
    by_cases hkind : kind = .elseIf
    · rw [if_pos hkind, if_pos hkind, hrest]
      exact Stmt.ofArms_unplaced true location children _
    · rw [if_neg hkind, if_neg hkind, hrest]

theorem Stmt.ofElse_unplaced : (ts : List Tree) →
    Stmt.ofElse (Tree.unplacedAll ts) = (Stmt.ofElse ts).unplaced
  | [] => rfl
  | ⟨kind, _, _, [], _⟩ :: ts => by
    have hrest := Stmt.ofElse_unplaced ts
    simp only [Tree.unplacedAll, Tree.unplaced, Stmt.ofElse]
    split
    · rfl
    · exact hrest
  | ⟨kind, _, _, block :: _, _⟩ :: ts => by
    have hblock := Stmt.ofBlock_unplaced block
    have hrest := Stmt.ofElse_unplaced ts
    simp only [Tree.unplacedAll, Tree.unplaced, Stmt.ofElse]
    split
    · exact hblock
    · exact hrest

end

theorem Tree.children_unplaced (t : Tree) : t.unplaced.children = t.children.map Tree.unplaced := by
  cases t
  exact Tree.unplacedAll_eq_map _

theorem Tree.first?_unplaced (t : Tree) (k : Tree.Kind) :
    t.unplaced.first? k = (t.first? k).map Tree.unplaced := by
  rw [Tree.first?, Tree.first?, Tree.children_unplaced, List.find?_map]
  congr 2
  funext u
  simp only [Function.comp_apply, Tree.kind_unplaced]

theorem Tree.childrenOf_unplaced (t : Tree) (k : Tree.Kind) :
    t.unplaced.childrenOf k = (t.childrenOf k).map Tree.unplaced := by
  rw [Tree.childrenOf, Tree.childrenOf, Tree.children_unplaced, List.filter_map]
  congr 2
  funext u
  simp only [Function.comp_apply, Tree.kind_unplaced]

theorem Parameter.ofTree_unplaced (t : Tree) :
    Parameter.ofTree t.unplaced = (Parameter.ofTree t).unplaced := by
  cases t
  rfl

theorem Function.ofTree_unplaced (t : Tree) :
    Function.ofTree t.unplaced = (Function.ofTree t).unplaced := by
  have hlocation : t.unplaced.location = none := by cases t; rfl
  simp only [Function.ofTree, Function.unplaced, Tree.get?_unplaced, Tree.first?_unplaced,
    hlocation, Function.mk.injEq, true_and]
  refine ⟨?_, ?_, ?_⟩
  · cases t.first? .parameterList with
    | none => rfl
    | some list =>
      simp only [Option.map_some, Option.getD_some, Tree.children_unplaced, List.map_map]
      exact List.map_congr_left fun p _ => Parameter.ofTree_unplaced p
  · cases t.first? .block with
    | none => rfl
    | some body => exact Tree.declarations_unplaced body
  · cases t.first? .block with
    | none => rfl
    | some body => exact congrArg some (Stmt.ofBlock_unplaced body)

theorem Script.declared?_unplaced (t : Tree) :
    Script.declared? t.unplaced = (Script.declared? t).map fun d => (d.1, none) := by
  have hlocation : t.unplaced.location = none := by cases t; rfl
  rw [Script.declared?, Script.declared?, Tree.kind_unplaced, Tree.get?_unplaced, hlocation]
  split
  · rw [Option.map_map]
    rfl
  · rfl

theorem Script.ofTree?_unplaced (t : Tree) :
    Script.ofTree? t.unplaced = (Script.ofTree? t).map Script.unplaced := by
  rw [Script.ofTree?, Script.ofTree?, Tree.kind_unplaced]
  split
  · simp only [Option.map_some, Option.some.injEq, Script.unplaced, Script.mk.injEq,
      Tree.children_unplaced, Tree.childrenOf_unplaced]
    refine ⟨?_, ?_, ?_⟩
    · rw [List.filterMap_map, List.map_filterMap]
      exact List.filterMap_congr fun u _ => Script.declared?_unplaced u
    · rw [List.filter_map, ← Tree.unplacedAll_eq_map, Stmt.ofTrees_unplaced]
      simp only [Function.comp_def, Tree.kind_unplaced]
    · rw [List.map_map, List.map_map]
      exact List.map_congr_left fun f _ => Function.ofTree_unplaced f
  · rfl

end Reading

/-! ## Code and findings without places -/

mutual

theorem Expr.code_unplaced (σ : Scope) (e : Expr) : e.unplaced.code σ = e.code σ := by
  cases e with
  | number digits => rfl
  | «variable» name location => rfl
  | binary op left right =>
    rw [Expr.unplaced, Expr.code, Expr.code, Expr.code_unplaced σ left, Expr.code_unplaced σ right]
  | unknown operator left right location =>
    rw [Expr.unplaced, Expr.code, Expr.code, Expr.code_unplaced σ left, Expr.code_unplaced σ right]
  | negate operand => rw [Expr.unplaced, Expr.code, Expr.code, Expr.code_unplaced σ operand]
  | call callee arguments location =>
    rw [Expr.unplaced, Expr.code, Expr.code, Expr.codeAll_unplaced σ arguments,
      Expr.codeDiscarded_unplaced σ arguments, Expr.unplacedAll_eq_map, List.length_map]
  | hole m location => rfl

theorem Expr.codeAll_unplaced (σ : Scope) (es : List Expr) :
    Expr.codeAll σ (Expr.unplacedAll es) = Expr.codeAll σ es := by
  cases es with
  | nil => rfl
  | cons e es =>
    rw [Expr.unplacedAll, Expr.codeAll, Expr.codeAll, Expr.code_unplaced σ e,
      Expr.codeAll_unplaced σ es]

theorem Expr.codeDiscarded_unplaced (σ : Scope) (es : List Expr) :
    Expr.codeDiscarded σ (Expr.unplacedAll es) = Expr.codeDiscarded σ es := by
  cases es with
  | nil => rfl
  | cons e es =>
    rw [Expr.unplacedAll, Expr.codeDiscarded, Expr.codeDiscarded, Expr.code_unplaced σ e,
      Expr.codeDiscarded_unplaced σ es]

end

theorem Finding.unknownName_unplaced (cause : String → List String → Cause) (name : Option String)
    (candidates : List (Option String)) (location : Option Location) :
    Finding.unknownName cause name candidates none =
      (Finding.unknownName cause name candidates location).unplaced := by
  cases name with
  | none => rfl
  | some n =>
    rw [Finding.unknownName, Finding.unknownName]
    split <;> rfl

theorem Scope.variableFindings_unplaced (σ : Scope) (name : Option String)
    (location : Option Location) :
    σ.variableFindings name none = (σ.variableFindings name location).map Finding.unplaced := by
  rw [Scope.variableFindings, Scope.variableFindings]
  cases σ.resolve? name with
  | some place => rfl
  | none => exact congrArg ([·]) (Finding.unknownName_unplaced _ _ _ _)

theorem Scope.callFindings_unplaced (σ : Scope) (callee : Option String) (count : Nat)
    (location : Option Location) :
    σ.callFindings callee count none =
      (σ.callFindings callee count location).map Finding.unplaced := by
  rw [Scope.callFindings, Scope.callFindings]
  cases σ.signature? callee with
  | none => exact congrArg ([·]) (Finding.unknownName_unplaced _ _ _ _)
  | some f =>
    simp only
    split <;> rfl

mutual

theorem Expr.findings_unplaced (σ : Scope) (e : Expr) :
    e.unplaced.findings σ = (e.findings σ).map Finding.unplaced := by
  cases e with
  | number digits =>
    rw [Expr.unplaced, Expr.findings]
    split <;> rfl
  | «variable» name location => exact σ.variableFindings_unplaced name location
  | binary op left right =>
    rw [Expr.unplaced, Expr.findings, Expr.findings, Expr.findings_unplaced σ left,
      Expr.findings_unplaced σ right, List.map_append]
  | unknown operator left right location =>
    rw [Expr.unplaced, Expr.findings, Expr.findings, Expr.findings_unplaced σ left,
      Expr.findings_unplaced σ right, List.map_append, List.map_append]
    rfl
  | negate operand => exact Expr.findings_unplaced σ operand
  | call callee arguments location =>
    have harguments := Expr.findingsAll_unplaced σ arguments
    have hlength : (Expr.unplacedAll arguments).length = arguments.length := by
      rw [Expr.unplacedAll_eq_map, List.length_map]
    simp only [Expr.unplaced, Expr.findings, harguments, hlength]
    split
    · rw [List.map_append]
      split <;> rfl
    · rw [List.map_append, σ.callFindings_unplaced callee arguments.length location]
  | hole m location => rfl

theorem Expr.findingsAll_unplaced (σ : Scope) (es : List Expr) :
    Expr.findingsAll σ (Expr.unplacedAll es) = (Expr.findingsAll σ es).map Finding.unplaced := by
  cases es with
  | nil => rfl
  | cons e es =>
    rw [Expr.unplacedAll, Expr.findingsAll, Expr.findingsAll, Expr.findings_unplaced σ e,
      Expr.findingsAll_unplaced σ es, List.map_append]

end

theorem Expr.findings?_unplaced (σ : Scope) (e : Option Expr) :
    Expr.findings? σ (e.map Expr.unplaced) = (Expr.findings? σ e).map Finding.unplaced := by
  cases e with
  | none => rfl
  | some e => exact Expr.findings_unplaced σ e

theorem Stmt.scopeAfter_unplaced (σ : Scope) (s : Stmt) :
    s.unplaced.scopeAfter σ = s.scopeAfter σ := by
  induction s generalizing σ with
  | seq first second ih₁ ih₂ =>
    rw [Stmt.unplaced, Stmt.scopeAfter, Stmt.scopeAfter, ih₁, ih₂]
  | branch chained condition yes no ih₁ ih₂ =>
    rw [Stmt.unplaced, Stmt.scopeAfter, Stmt.scopeAfter, ih₁, ih₂]
  | loop condition body ih => exact ih σ
  | _ => rfl

theorem Stmt.code_unplaced (σ : Scope) (s : Stmt) : s.unplaced.code σ = s.code σ := by
  induction s generalizing σ with
  | skip => rfl
  | seq first second ih₁ ih₂ =>
    rw [Stmt.unplaced, Stmt.code, Stmt.code, ih₁, ih₂, Stmt.scopeAfter_unplaced]
  | declare name value =>
    cases value with
    | none => rfl
    | some e =>
      simp only [Stmt.unplaced, Stmt.code, Option.map_some, Expr.code_unplaced]
  | assign name value location => simp only [Stmt.unplaced, Stmt.code, Expr.code_unplaced]
  | discard value => rw [Stmt.unplaced, Stmt.code, Stmt.code, Expr.code_unplaced]
  | branch chained condition yes no ih₁ ih₂ =>
    rw [Stmt.unplaced, Stmt.code, Stmt.code, ih₁, ih₂, Stmt.scopeAfter_unplaced,
      Expr.code_unplaced]
  | loop condition body ih => rw [Stmt.unplaced, Stmt.code, Stmt.code, ih, Expr.code_unplaced]
  | giveBack value location =>
    cases value with
    | none => rfl
    | some e => simp only [Stmt.unplaced, Stmt.code, Option.map_some, Expr.code_unplaced]
  | misuse m location => rfl

theorem Stmt.findings_unplaced (σ : Scope) (s : Stmt) :
    s.unplaced.findings σ = (s.findings σ).map Finding.unplaced := by
  induction s generalizing σ with
  | skip => rfl
  | seq first second ih₁ ih₂ =>
    rw [Stmt.unplaced, Stmt.findings, Stmt.findings, ih₁, ih₂, Stmt.scopeAfter_unplaced,
      List.map_append]
  | declare name value => exact Expr.findings?_unplaced _ value
  | assign name value location =>
    rw [Stmt.unplaced, Stmt.findings, Stmt.findings, Expr.findings_unplaced,
      σ.variableFindings_unplaced name location, List.map_append]
  | discard value => exact Expr.findings_unplaced σ value
  | branch chained condition yes no ih₁ ih₂ =>
    rw [Stmt.unplaced, Stmt.findings, Stmt.findings, ih₁, ih₂, Stmt.scopeAfter_unplaced,
      Expr.findings_unplaced, List.map_append, List.map_append]
  | loop condition body ih =>
    rw [Stmt.unplaced, Stmt.findings, Stmt.findings, ih, Expr.findings_unplaced, List.map_append]
  | giveBack value location =>
    simp only [Stmt.unplaced, Stmt.findings]
    cases σ.inside with
    | none => rfl
    | some f => exact Expr.findings?_unplaced σ value
  | misuse m location => rfl

/-! ## Functions without places -/

/-- A definition without its places. -/
def Definition.unplaced (d : Definition) : Definition :=
  { d with written := d.written.unplaced, body := d.body.unplaced }

/-- A fate without its places. -/
def Fate.unplaced : Fate → Fate
  | .defined d => .defined d.unplaced
  | .incomplete _ => .incomplete none
  | .repeated name _ => .repeated name none

theorem Scope.enter_unplaced (σ : Scope) (f : Signature) (ps : List Parameter) :
    σ.enter f (ps.map Parameter.unplaced) = σ.enter f ps := by
  simp only [Scope.enter, List.zipIdx_map, List.foldl_map, List.length_map, Prod.map]
  rfl

namespace Definition

theorem scope_unplaced (σ : Scope) (d : Definition) : d.unplaced.scope σ = d.scope σ :=
  σ.enter_unplaced d.signature d.written.parameters

theorem code_unplaced (σ : Scope) (d : Definition) : d.unplaced.code σ = d.code σ := by
  refine code_congr rfl rfl (List.length_map _) rfl ?_
  rw [scope_unplaced]
  exact Stmt.code_unplaced _ _

theorem repeatedFrom_unplaced (seen : List (Option String)) (ps : List Parameter) :
    Parameter.repeatedFrom seen (ps.map Parameter.unplaced) =
      (Parameter.repeatedFrom seen ps).map Parameter.unplaced := by
  induction ps generalizing seen with
  | nil => rfl
  | cons p ps ih =>
    have hname : p.unplaced.name = p.name := rfl
    rw [List.map_cons, Parameter.repeatedFrom, Parameter.repeatedFrom, hname, ih, ih]
    split <;> rfl

theorem findings_unplaced (σ : Scope) (d : Definition) :
    d.unplaced.findings σ = (d.findings σ).map Finding.unplaced := by
  have hbody : d.unplaced.body.findings (d.scope σ) =
      (d.body.findings (d.scope σ)).map Finding.unplaced := Stmt.findings_unplaced _ _
  have hrepeated : Parameter.repeatedFrom [] d.unplaced.written.parameters =
      (Parameter.repeatedFrom [] d.written.parameters).map Parameter.unplaced :=
    repeatedFrom_unplaced [] d.written.parameters
  rw [findings, findings, hrepeated, scope_unplaced, hbody, List.map_append, List.map_map,
    List.map_map]
  rfl

end Definition

theorem Fate.findings_unplaced (σ : Scope) (fate : Fate) :
    fate.unplaced.findings σ = (fate.findings σ).map Finding.unplaced := by
  cases fate with
  | defined d => exact d.findings_unplaced σ
  | incomplete location => rfl
  | repeated name location => rfl

namespace Script

theorem fatesFrom_unplaced (signatures : List Signature) (seen : List String)
    (fs : List Function) :
    fatesFrom signatures seen (fs.map Function.unplaced) =
      (fatesFrom signatures seen fs).map Fate.unplaced := by
  induction fs generalizing seen with
  | nil => rfl
  | cons f fs ih =>
    obtain ⟨name, location, returnType, parameters, locals, body⟩ := f
    cases name with
    | none => cases body <;> exact congrArg (Fate.incomplete none :: ·) (ih seen)
    | some name =>
      cases body with
      | none => exact congrArg (Fate.incomplete none :: ·) (ih seen)
      | some body =>
        simp only [List.map_cons, Function.unplaced, Option.map_some, fatesFrom, ih,
          List.length_map]
        split <;> rfl

theorem signatures_unplaced (s : Script) : s.unplaced.signatures = s.signatures := by
  rw [signatures, signatures, unplaced, List.filterMap_map]
  congr 2
  funext f
  simp only [Function.comp_apply, Function.signature?, Function.unplaced, List.length_map]

theorem startScope_unplaced (s : Script) : s.unplaced.startScope = s.startScope := by
  have hglobals : s.unplaced.globals = s.globals := by
    rw [globals, globals, unplaced, List.map_map]
    rfl
  rw [startScope, startScope, signatures_unplaced, hglobals]

theorem functionScope_unplaced (s : Script) : s.unplaced.functionScope = s.functionScope := by
  rw [functionScope, functionScope, startScope_unplaced]
  exact Stmt.scopeAfter_unplaced _ _

theorem fates_unplaced (s : Script) : s.unplaced.fates = s.fates.map Fate.unplaced := by
  rw [fates, fates, signatures_unplaced]
  exact fatesFrom_unplaced _ _ _

theorem definitions_unplaced (s : Script) :
    s.unplaced.definitions = s.definitions.map Definition.unplaced := by
  rw [definitions, definitions, fates_unplaced, List.filterMap_map, List.map_filterMap]
  refine List.filterMap_congr fun fate _ => ?_
  cases fate <;> rfl

theorem entryCode_unplaced (s : Script) : s.unplaced.entryCode = s.entryCode := by
  rw [entryCode, entryCode, startScope_unplaced]
  exact congrArg (· ++ _) (Stmt.code_unplaced _ _)

theorem entriesFrom_unplaced (σ : Scope) (address : Nat) (ds : List Definition) :
    entriesFrom σ address (ds.map Definition.unplaced) = entriesFrom σ address ds := by
  induction ds generalizing address with
  | nil => rfl
  | cons d ds ih =>
    rw [List.map_cons, entriesFrom, entriesFrom, ih, d.code_unplaced]
    rfl

theorem program_unplaced (comments : Bool) (s : Script) :
    s.unplaced.program comments = s.program comments := by
  have hentries : s.unplaced.entries = s.entries := by
    rw [entries, entries, functionScope_unplaced, entryCode_unplaced, definitions_unplaced,
      entriesFrom_unplaced]
  have hcode : s.unplaced.code = s.code := by
    rw [code, code, entryCode_unplaced, functionScope_unplaced, definitions_unplaced,
      List.flatMap_map]
    simp only [Definition.code_unplaced]
  rw [program, program, hentries, hcode, functionScope_unplaced]

theorem repeatedFrom_unplaced (seen : List String) (ds : List (String × Option Location)) :
    repeatedFrom seen (ds.map fun d => (d.1, none)) =
      (repeatedFrom seen ds).map fun d => (d.1, none) := by
  induction ds generalizing seen with
  | nil => rfl
  | cons d ds ih =>
    simp only [List.map_cons, repeatedFrom, ih]
    split <;> rfl

theorem entryFindings_unplaced (s : Script) :
    s.unplaced.entryFindings = s.entryFindings.map Finding.unplaced := by
  have hentry : s.unplaced.entry.findings s.startScope =
      (s.entry.findings s.startScope).map Finding.unplaced := Stmt.findings_unplaced _ _
  have hrepeated : repeatedFrom [] s.unplaced.declared =
      (repeatedFrom [] s.declared).map fun d => (d.1, none) := repeatedFrom_unplaced _ _
  rw [entryFindings, entryFindings, startScope_unplaced, hentry, hrepeated, List.map_append,
    List.map_map, List.map_map]
  rfl

end Script

/-! ## Programs without places -/

namespace Generation

/-- An event without its place. -/
def Event.unplaced : Event → Event
  | .found f => .found f.unplaced
  | .finished name entry parameters locals => .finished name entry parameters locals

theorem eventsFrom_unplaced (σ : Scope) (address : Nat) (fates : List Fate) :
    eventsFrom σ address (fates.map Fate.unplaced) =
      (eventsFrom σ address fates).map Event.unplaced := by
  have hfound (fs : List Finding) :
      (fs.map Finding.unplaced).map Event.found = (fs.map Event.found).map Event.unplaced := by
    rw [List.map_map, List.map_map]
    rfl
  induction fates generalizing address with
  | nil => rfl
  | cons fate fates ih =>
    have hfindings := Fate.findings_unplaced σ fate
    cases fate with
    | defined d =>
      have hparameters : d.unplaced.written.parameters.length = d.written.parameters.length :=
        List.length_map _
      rw [Fate.unplaced] at hfindings
      rw [List.map_cons, Fate.unplaced, eventsFrom, eventsFrom, hfindings, hfound,
        List.map_append, List.map_cons, ih, d.code_unplaced, hparameters]
      rfl
    | incomplete location =>
      exact congrArg (Event.found (.misuse .incompleteFunction none) :: ·) (ih address)
    | repeated name location =>
      exact congrArg
        (Event.found (.issue (.duplicateDeclaration "function" (some name)) none) :: ·)
        (ih address)

theorem events_unplaced (s : Script) : events s.unplaced = (events s).map Event.unplaced := by
  rw [events, events, s.entryFindings_unplaced, s.functionScope_unplaced, s.entryCode_unplaced,
    s.fates_unplaced, eventsFrom_unplaced, List.map_append, List.map_map, List.map_map]
  rfl

@[simp] theorem Event.breakdown?_unplaced (e : Event) : e.unplaced.breakdown? = e.breakdown? := by
  rcases e with (_ | _) | _ <;> rfl

/-- The cause that an event reports. -/
def Event.cause? : Event → Option Cause
  | found (.issue cause _) => some cause
  | _ => none

@[simp] theorem Event.cause?_unplaced (e : Event) : e.unplaced.cause? = e.cause? := by
  rcases e with (_ | _) | _ <;> rfl

theorem Event.cause_diagnostic? (lines : List String) (e : Event) :
    (e.diagnostic? lines).map Diagnostic.cause = e.cause? := by
  rcases e with (_ | _) | _ <;> rfl

end Generation

namespace Report

variable {ε δ : Type}

/-- A report with its errors changed. -/
def map (f : ε → δ) (r : Report ε) : Report δ :=
  { limit := r.limit, errors := r.errors.map f, warnings := r.warnings, dropped := r.dropped }

theorem map_add (f : ε → δ) (r : Report ε) (e : ε) : (r.add e).map f = (r.map f).add (f e) := by
  have hfull : (r.map f).isFull = r.isFull := by simp [isFull, map]
  rw [add, add, hfull]
  split
  · rfl
  · simp only [map, List.map_append, List.map_cons, List.map_nil]

theorem map_addAll (f : ε → δ) (r : Report ε) (es : List ε) :
    (r.addAll es).map f = (r.map f).addAll (es.map f) := by
  induction es generalizing r with
  | nil => rfl
  | cons e es ih =>
    rw [addAll, List.foldl_cons, ← addAll, ih, map_add]
    rfl

theorem hasErrors_map (f : ε → δ) (r : Report ε) : (r.map f).hasErrors = r.hasErrors := by
  simp [hasErrors, map]

end Report

namespace Generation

/-- A program and a report without places. -/
def gist (generated : Program × Report Diagnostic) : Program × Report Cause :=
  (generated.1, generated.2.map Diagnostic.cause)

/-- What generating the code of a script comes to, without places. -/
def outcome (options : CompileOptions) (s : Script) : Except Breakdown (Program × Report Cause) :=
  match (events s).findSome? Event.breakdown? with
  | some b => .error b
  | none =>
    let report := Report.addAll { limit := options.limit } ((events s).filterMap Event.cause?)
    let program := s.program options.comments
    .ok (program,
      if (program.functions.lookup entryName).isSome then report else report.warn noEntry none)

theorem map_gist_ofScript (options : CompileOptions) (lines : List String) (s : Script) :
    (ofScript options lines s).result.map gist = outcome options s := by
  cases hbreakdown : (events s).findSome? Event.breakdown? with
  | some b =>
    simp only [ofScript, outcome, hbreakdown]
    rfl
  | none =>
    have hcauses : (Report.addAll { limit := options.limit }
        ((events s).filterMap (Event.diagnostic? lines))).map Diagnostic.cause =
        Report.addAll { limit := options.limit } ((events s).filterMap Event.cause?) := by
      rw [Report.map_addAll, List.map_filterMap]
      simp only [Event.cause_diagnostic?]
      rfl
    simp only [ofScript, outcome, hbreakdown, takeWhile_eq_self_of_findSome? hbreakdown, ← hcauses]
    by_cases hentry : ((s.program options.comments).functions.lookup entryName).isSome = true
    · simp only [if_pos hentry]
      rfl
    · simp only [if_neg hentry]
      rfl

theorem outcome_unplaced (options : CompileOptions) (s : Script) :
    outcome options s.unplaced = outcome options s := by
  have hbreakdown : (events s.unplaced).findSome? Event.breakdown? =
      (events s).findSome? Event.breakdown? := by
    rw [events_unplaced, List.findSome?_map]
    congr 1
    funext e
    exact e.breakdown?_unplaced
  have hcauses : (events s.unplaced).filterMap Event.cause? =
      (events s).filterMap Event.cause? := by
    rw [events_unplaced, List.filterMap_map]
    congr 1
    funext e
    exact e.cause?_unplaced
  rw [outcome, outcome, hbreakdown, hcauses, s.program_unplaced]

/-- Trees that are equal without places come to the same, without places. -/
theorem map_gist_ofTree {t u : Tree} (h : t.unplaced = u.unplaced) (options : CompileOptions)
    (lines lines' : List String) :
    (ofTree options lines t).result.map gist = (ofTree options lines' u).result.map gist := by
  have hscript : (Script.ofTree? t).map Script.unplaced =
      (Script.ofTree? u).map Script.unplaced := by
    rw [← Script.ofTree?_unplaced, h, Script.ofTree?_unplaced]
  have hkind : t.kind = u.kind := by rw [← t.kind_unplaced, h, u.kind_unplaced]
  unfold ofTree
  cases ht : Script.ofTree? t with
  | none =>
    rw [ht] at hscript
    rw [Option.map_eq_none_iff.mp hscript.symm]
    simp only [Except.map, gist, hkind, Report.map_add]
    rfl
  | some s =>
    rw [ht] at hscript
    obtain ⟨s', hs', hunplaced⟩ := Option.map_eq_some_iff.mp hscript.symm
    rw [hs']
    simp only
    rw [map_gist_ofScript, map_gist_ofScript, ← outcome_unplaced, ← hunplaced, outcome_unplaced]

end Generation

end StackLang
