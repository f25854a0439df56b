import Mathlib.Data.Option.Basic
import Mathlib.Logic.Equiv.Basic
import StackLang.Proofs.Types

/-!
# Renamed scripts

A renaming changes the names of variables and those of functions, each kind on its own, and keeps
different names different. What is read off a renamed tree is the renamed script.
-/

namespace StackLang

/-- A renaming of variables and one of functions. Different names stay different, and the functions
with a meaning of their own keep their names. -/
structure Renaming where
  ofVariable : String → String
  ofFunction : String → String
  ofVariable_injective : Function.Injective ofVariable
  ofFunction_injective : Function.Injective ofFunction
  entry_fixed : ofFunction entryName = entryName
  print_fixed : ofFunction printName = printName

variable (ρ : Renaming)

/-! ## Names under a renaming -/

section Names

variable {α β : Type} [BEq α] [LawfulBEq α] [BEq β] [LawfulBEq β] {f : α → β}

theorem beq_of_injective (hf : Function.Injective f) (a b : α) : (f a == f b) = (a == b) := by
  rw [Bool.eq_iff_iff, beq_iff_eq, beq_iff_eq, hf.eq_iff]

theorem lookup_map_of_injective {γ : Type} (hf : Function.Injective f) (l : List (α × γ)) (a : α) :
    (l.map fun x => (f x.1, x.2)).lookup (f a) = l.lookup a := by
  induction l with
  | nil => rfl
  | cons x l ih =>
    rw [List.map_cons, List.lookup_cons, List.lookup_cons, beq_of_injective hf, ih]

theorem idxOf?_map_of_injective (hf : Function.Injective f) (l : List α) (a : α) :
    (l.map f).idxOf? (f a) = l.idxOf? a := by
  rw [List.idxOf?, List.idxOf?, List.findIdx?_map]
  exact congrArg l.findIdx? (funext fun b => beq_of_injective hf b a)

theorem contains_map_of_injective (hf : Function.Injective f) (l : List α) (a : α) :
    (l.map f).contains (f a) = l.contains a := by
  rw [Bool.eq_iff_iff, List.contains_iff_mem, List.contains_iff_mem, List.mem_map_of_injective hf]

theorem eraseDups_map_of_injective (hf : Function.Injective f) (l : List α) :
    (l.map f).eraseDups = l.eraseDups.map f :=
  eraseDupsBy_map (beq_of_injective hf) l

end Names

theorem Renaming.map_ofVariable_injective : Function.Injective (Option.map ρ.ofVariable) :=
  Option.map_injective ρ.ofVariable_injective

theorem Renaming.map_ofFunction_injective : Function.Injective (Option.map ρ.ofFunction) :=
  Option.map_injective ρ.ofFunction_injective

/-! ## Trees -/

namespace Tree

/-- How the name of a node is renamed. -/
def Kind.renaming : Kind → String → String
  | .variableDeclaration | .assignment | .parameter => ρ.ofVariable
  | .function | .functionCall => ρ.ofFunction
  | _ => id

/-- The attributes with the name changed. -/
def Attributes.renamed (f : String → String) (as : Attributes) : Attributes :=
  as.mapTexts fun key text => if key = "name" then f text else text

theorem Attributes.get?_name_renamed (f : String → String) (as : Attributes) :
    (as.renamed f).get? "name" = (as.get? "name").map f := by
  rw [renamed, get?_mapTexts]
  simp

theorem Attributes.get?_renamed (f : String → String) (as : Attributes) {key : String}
    (h : key ≠ "name") : (as.renamed f).get? key = as.get? key := by
  rw [renamed, get?_mapTexts]
  simp [h]

mutual

/-- A tree with its variables and functions renamed. -/
def renamed : Tree → Tree
  | ⟨kind, value, attributes, children, location⟩ =>
    ⟨kind, if kind = .identifier then value.map ρ.ofVariable else value,
      attributes.renamed (kind.renaming ρ), renamedAll children, location⟩

/-- Several trees with their variables and functions renamed. -/
def renamedAll : List Tree → List Tree
  | [] => []
  | t :: ts => renamed t :: renamedAll ts

end

@[simp] theorem renamedAll_eq_map (ts : List Tree) : renamedAll ρ ts = ts.map (renamed ρ) := by
  induction ts with
  | nil => rfl
  | cons t ts ih => rw [renamedAll, ih, List.map_cons]

@[simp] theorem kind_renamed (t : Tree) : (t.renamed ρ).kind = t.kind := by
  cases t
  rfl

@[simp] theorem location_renamed (t : Tree) : (t.renamed ρ).location = t.location := by
  cases t
  rfl

theorem children_renamed (t : Tree) : (t.renamed ρ).children = t.children.map (renamed ρ) := by
  cases t
  exact renamedAll_eq_map ρ _

theorem get?_name_renamed (t : Tree) :
    (t.renamed ρ).get? "name" = (t.get? "name").map (t.kind.renaming ρ) := by
  cases t
  exact Attributes.get?_name_renamed _ _

theorem get?_renamed (t : Tree) {key : String} (h : key ≠ "name") :
    (t.renamed ρ).get? key = t.get? key := by
  cases t
  exact Attributes.get?_renamed _ _ h

theorem first?_renamed (t : Tree) (k : Kind) :
    (t.renamed ρ).first? k = (t.first? k).map (renamed ρ) := by
  rw [first?, first?, children_renamed, List.find?_map]
  congr 2
  funext u
  simp only [Function.comp_apply, kind_renamed]

theorem childrenOf_renamed (t : Tree) (k : Kind) :
    (t.renamed ρ).childrenOf k = (t.childrenOf k).map (renamed ρ) := by
  rw [childrenOf, childrenOf, children_renamed, List.filter_map]
  congr 2
  funext u
  simp only [Function.comp_apply, kind_renamed]

mutual

theorem declarations_renamed : (t : Tree) → (t.renamed ρ).declarations = t.declarations
  | ⟨kind, value, attributes, children, location⟩ => by
    rw [renamed, declarations, declarations, declarationsAll_renamedAll children]

theorem declarationsAll_renamedAll : (ts : List Tree) →
    declarationsAll (renamedAll ρ ts) = declarationsAll ts
  | [] => rfl
  | t :: ts => by
    rw [renamedAll, declarationsAll, declarationsAll, declarations_renamed t,
      declarationsAll_renamedAll ts]

end

end Tree

/-! ## Scripts -/

/-- A misuse with its name changed. -/
def Misuse.renamed : Misuse → Misuse
  | .nestedFunction name => .nestedFunction (name.map ρ.ofFunction)
  | .missingValue name => .missingValue (name.map ρ.ofVariable)
  | m => m

mutual

/-- An expression with its variables and functions renamed. -/
def Expr.renamed : Expr → Expr
  | .number digits => .number digits
  | .variable name location => .variable (name.map ρ.ofVariable) location
  | .binary op left right => .binary op left.renamed right.renamed
  | .unknown operator left right location => .unknown operator left.renamed right.renamed location
  | .negate operand => .negate operand.renamed
  | .call callee arguments location =>
    .call (callee.map ρ.ofFunction) (Expr.renamedAll arguments) location
  | .hole m location => .hole m location

/-- Several expressions with their variables and functions renamed. -/
def Expr.renamedAll : List Expr → List Expr
  | [] => []
  | e :: es => e.renamed :: Expr.renamedAll es

end

/-- A statement with its variables and functions renamed. -/
def Stmt.renamed : Stmt → Stmt
  | .skip => .skip
  | .seq first second => .seq first.renamed second.renamed
  | .declare name value => .declare (ρ.ofVariable name) (value.map (Expr.renamed ρ))
  | .assign name value location => .assign (name.map ρ.ofVariable) (value.renamed ρ) location
  | .discard value => .discard (value.renamed ρ)
  | .branch chained condition yes no =>
    .branch chained (condition.renamed ρ) yes.renamed no.renamed
  | .loop condition body => .loop (condition.renamed ρ) body.renamed
  | .giveBack value location => .giveBack (value.map (Expr.renamed ρ)) location
  | .misuse m location => .misuse (m.renamed ρ) location

/-- A renamed parameter. -/
def Parameter.renamed (p : Parameter) : Parameter := { p with name := p.name.map ρ.ofVariable }

/-- A function with its variables and functions renamed. -/
def Function.renamed (f : Function) : Function :=
  { f with
    name := f.name.map ρ.ofFunction
    parameters := f.parameters.map (Parameter.renamed ρ)
    body := f.body.map (Stmt.renamed ρ) }

/-- A script with its variables and functions renamed. -/
def Script.renamed (s : Script) : Script :=
  { declared := s.declared.map fun d => (ρ.ofVariable d.1, d.2)
    entry := s.entry.renamed ρ
    functions := s.functions.map (Function.renamed ρ) }

/-! ## Reading renamed trees -/

section Reading

theorem Expr.renamedAll_eq_map (es : List Expr) :
    Expr.renamedAll ρ es = es.map (Expr.renamed ρ) := by
  induction es with
  | nil => rfl
  | cons e es ih => rw [Expr.renamedAll, ih, List.map_cons]

theorem Expr.renamed_ofNumber (text : String) (location : Option Location) :
    (Expr.ofNumber text location).renamed ρ = Expr.ofNumber text location := by
  rw [Expr.ofNumber]
  split <;> rfl

theorem Expr.renamed_ofOperator (operator : Option String) (left right : Expr)
    (location : Option Location) :
    (Expr.ofOperator operator left right location).renamed ρ =
      Expr.ofOperator operator (left.renamed ρ) (right.renamed ρ) location := by
  rw [Expr.ofOperator, Expr.ofOperator]
  cases operator.bind Operator.ofSpelling? <;> rfl

mutual

theorem Expr.ofTree_renamed : (t : Tree) → Expr.ofTree (t.renamed ρ) = (Expr.ofTree t).renamed ρ
  | ⟨kind, value, attributes, children, location⟩ => by
    have hchildren := Expr.ofTrees_renamed children
    have hname (f : String → String) := attributes.get?_name_renamed f
    have hoperator (f : String → String) :=
      attributes.get?_renamed f (show "operator" ≠ "name" by decide)
    cases kind with
    | number => exact (Expr.renamed_ofNumber ρ _ _).symm
    | identifier => rfl
    | functionCall => simp only [Tree.renamed, Expr.ofTree, hchildren, hname, Expr.renamed]; rfl
    | negate =>
      simp only [Tree.renamed, Expr.ofTree, hchildren]
      cases Expr.ofTrees children <;> rfl
    | expression | term | condition =>
      simp only [Tree.renamed, Expr.ofTree, hchildren, hoperator]
      cases Expr.ofTrees children with
      | nil => rfl
      | cons left rest =>
        cases rest with
        | nil => rfl
        | cons right rest =>
          cases rest with
          | nil => exact (Expr.renamed_ofOperator ρ _ _ _ _).symm
          | cons => rfl
    | _ => rfl

theorem Expr.ofTrees_renamed : (ts : List Tree) →
    Expr.ofTrees (Tree.renamedAll ρ ts) = Expr.renamedAll ρ (Expr.ofTrees ts)
  | [] => rfl
  | t :: ts => by
    rw [Tree.renamedAll, Expr.ofTrees, Expr.ofTree_renamed t, Expr.ofTrees_renamed ts,
      Expr.ofTrees, Expr.renamedAll]

end

theorem Expr.head?_renamed (ts : List Tree) :
    (Tree.renamedAll ρ ts).head?.map Expr.ofTree =
      (ts.head?.map Expr.ofTree).map (Expr.renamed ρ) := by
  cases ts with
  | nil => rfl
  | cons t ts => exact congrArg some (Expr.ofTree_renamed ρ t)

mutual

theorem Stmt.ofTree_renamed : (t : Tree) → Stmt.ofTree (t.renamed ρ) = (Stmt.ofTree t).renamed ρ
  | ⟨kind, value, attributes, children, location⟩ => by
    have hname (f : String → String) := attributes.get?_name_renamed f
    simp only [Tree.renamed]
    cases kind with
    | variableDeclaration =>
      simp only [Stmt.ofTree, Expr.head?_renamed, hname]
      cases attributes.get? "name" <;> rfl
    | assignment =>
      cases children with
      | nil =>
        simp only [Tree.renamedAll, Stmt.ofTree, hname]
        rfl
      | cons value rest =>
        simp only [Tree.renamedAll, Stmt.ofTree, Expr.ofTree_renamed ρ value, hname, Stmt.renamed]
        rfl
    | conditional =>
      simp only [Stmt.ofTree]
      rw [Stmt.ofElse_renamed children, Stmt.ofBranches_renamed location children,
        Stmt.ofArms_renamed false location children]
    | loop =>
      cases children with
      | nil => rfl
      | cons condition rest =>
        cases rest with
        | nil => rfl
        | cons body rest =>
          simp only [Tree.renamedAll, Stmt.ofTree, Expr.ofTree_renamed ρ condition,
            Stmt.ofBlock_renamed body, Stmt.renamed]
    | giveBack => simp only [Stmt.ofTree, Expr.head?_renamed, Stmt.renamed]
    | block => exact Stmt.ofTrees_renamed children
    | function =>
      simp only [Stmt.ofTree, hname]
      rfl
    | program | parameterList | parameter | elseIf | otherwise => rfl
    | condition | expression | term | negate | functionCall | number | identifier =>
      exact congrArg Stmt.discard (Expr.ofTree_renamed ρ ⟨_, value, attributes, children, location⟩)

theorem Stmt.ofTrees_renamed : (ts : List Tree) →
    Stmt.ofTrees (Tree.renamedAll ρ ts) = (Stmt.ofTrees ts).renamed ρ
  | [] => rfl
  | t :: ts => by
    rw [Tree.renamedAll, Stmt.ofTrees, Stmt.ofTree_renamed t, Stmt.ofTrees_renamed ts,
      Stmt.ofTrees, Stmt.renamed]

theorem Stmt.ofBlock_renamed : (t : Tree) →
    Stmt.ofBlock (t.renamed ρ) = (Stmt.ofBlock t).renamed ρ
  | ⟨_, _, _, children, _⟩ => Stmt.ofTrees_renamed children

theorem Stmt.ofArms_renamed (chained : Bool) (location : Option Location) :
    (ts : List Tree) → (rest : Stmt) →
      Stmt.ofArms chained location (Tree.renamedAll ρ ts) (rest.renamed ρ) =
        (Stmt.ofArms chained location ts rest).renamed ρ
  | [], _ => rfl
  | [_], _ => rfl
  | condition :: block :: _, rest => by
    rw [Tree.renamedAll, Tree.renamedAll, Stmt.ofArms, Stmt.ofArms,
      Expr.ofTree_renamed ρ condition, Stmt.ofBlock_renamed block, Stmt.renamed]

theorem Stmt.ofBranches_renamed (location : Option Location) :
    (ts : List Tree) → (rest : Stmt) →
      Stmt.ofBranches location (Tree.renamedAll ρ ts) (rest.renamed ρ) =
        (Stmt.ofBranches location ts rest).renamed ρ
  | [], _ => rfl
  | ⟨kind, _, _, children, _⟩ :: ts, rest => by
    have hrest := Stmt.ofBranches_renamed location ts rest
    simp only [Tree.renamedAll, Tree.renamed, Stmt.ofBranches]
    by_cases hkind : kind = .elseIf
    · rw [if_pos hkind, if_pos hkind, hrest]
      exact Stmt.ofArms_renamed true location children _
    · rw [if_neg hkind, if_neg hkind, hrest]

theorem Stmt.ofElse_renamed : (ts : List Tree) →
    Stmt.ofElse (Tree.renamedAll ρ ts) = (Stmt.ofElse ts).renamed ρ
  | [] => rfl
  | ⟨kind, _, _, [], _⟩ :: ts => by
    have hrest := Stmt.ofElse_renamed ts
    simp only [Tree.renamedAll, Tree.renamed, Stmt.ofElse]
    split
    · rfl
    · exact hrest
  | ⟨kind, _, _, block :: _, _⟩ :: ts => by
    have hblock := Stmt.ofBlock_renamed block
    have hrest := Stmt.ofElse_renamed ts
    simp only [Tree.renamedAll, Tree.renamed, Stmt.ofElse]
    split
    · exact hblock
    · exact hrest

end

/-- The parameter lists of the functions outside all blocks hold parameters only. -/
def Tree.ListsParameters (t : Tree) : Prop :=
  ∀ f ∈ t.childrenOf .function, ∀ list ∈ f.first? .parameterList, ∀ p ∈ list.children,
    p.kind = .parameter

theorem Parameter.ofTree_renamed {t : Tree} (h : t.kind = .parameter) :
    Parameter.ofTree (t.renamed ρ) = (Parameter.ofTree t).renamed ρ := by
  rw [Parameter.ofTree, Parameter.ofTree, Tree.get?_name_renamed, Tree.location_renamed, h]
  rfl

theorem Function.ofTree_renamed {t : Tree} (hkind : t.kind = .function)
    (h : ∀ list ∈ t.first? .parameterList, ∀ p ∈ list.children, p.kind = .parameter) :
    Function.ofTree (t.renamed ρ) = (Function.ofTree t).renamed ρ := by
  have hreturnType := t.get?_renamed ρ (show "returnType" ≠ "name" by decide)
  simp only [Function.ofTree, Function.renamed, Tree.get?_name_renamed, hreturnType, hkind,
    Tree.first?_renamed, Tree.location_renamed, Function.mk.injEq, true_and]
  refine ⟨rfl, ?_, ?_, ?_⟩
  · cases hlist : t.first? .parameterList with
    | none => rfl
    | some list =>
      simp only [Option.map_some, Option.getD_some, Tree.children_renamed, List.map_map]
      exact List.map_congr_left fun p hp => Parameter.ofTree_renamed ρ (h list hlist p hp)
  · cases t.first? .block with
    | none => rfl
    | some body => exact Tree.declarations_renamed ρ body
  · cases t.first? .block with
    | none => rfl
    | some body => exact congrArg some (Stmt.ofBlock_renamed ρ body)

theorem Script.declared?_renamed (t : Tree) :
    Script.declared? (t.renamed ρ) =
      (Script.declared? t).map fun d => (ρ.ofVariable d.1, d.2) := by
  rw [Script.declared?, Script.declared?, Tree.kind_renamed, Tree.get?_name_renamed,
    Tree.location_renamed]
  split
  · rename_i hkind
    rw [hkind, Option.map_map, Option.map_map]
    rfl
  · rfl

theorem Script.ofTree?_renamed {t : Tree} (h : t.ListsParameters) :
    Script.ofTree? (t.renamed ρ) = (Script.ofTree? t).map (Script.renamed ρ) := by
  rw [Script.ofTree?, Script.ofTree?, Tree.kind_renamed]
  split
  · simp only [Option.map_some, Option.some.injEq, Script.renamed, Script.mk.injEq,
      Tree.children_renamed, Tree.childrenOf_renamed]
    refine ⟨?_, ?_, ?_⟩
    · rw [List.filterMap_map, List.map_filterMap]
      exact List.filterMap_congr fun u _ => Script.declared?_renamed ρ u
    · rw [List.filter_map, ← Tree.renamedAll_eq_map, Stmt.ofTrees_renamed]
      simp only [Function.comp_def, Tree.kind_renamed]
    · rw [List.map_map, List.map_map]
      refine List.map_congr_left fun f hf => Function.ofTree_renamed ρ ?_ (h f hf)
      simpa using (List.mem_filter.mp hf).2
  · rfl

end Reading

end StackLang
