import StackLang.Proofs.Forms
import StackLang.Proofs.Targets

/-!
# Uses of variables

The uses of variables in the text of a function, in the order of the code for them, each with the
variables declared so far. Its place is that of the latest declaration of its name, else that of its
parameter, else a global one. The code loads and stores exactly at these places.
-/

namespace StackLang

/-! ## Uses of variables -/

/-- What a use does with its variable. -/
inductive Use.Kind where
  | read
  | assign
  /-- The value that a declaration gives. -/
  | init
deriving DecidableEq

/-- A use of a variable in the text of a function. -/
structure Use where
  kind : Use.Kind
  name : String
  /-- The variables declared so far, the newest first. -/
  declared : List String

namespace Use

/-- Where the variable lives: in the slot of its latest declaration, else in that of its parameter,
else in a global slot. -/
def place? (parameters globals : List String) (u : Use) : Option Place :=
  match Simulation.offset? parameters u.declared u.name with
  | some offset => some (.frame offset)
  | none => (globals.idxOf? u.name).map .global

/-- The operation for a use, if the name means anything. -/
def operation? (parameters globals : List String) (u : Use) : Option Operation :=
  (u.place? parameters globals).map
    (if u.kind = .read then Simulation.loadOf else Simulation.storeOf)

end Use

namespace Tree

mutual

/-- The variables that a tree declares, in the order of the text, those of functions inside it left
out. -/
def ownNames : Tree → List String
  | ⟨kind, _, attributes, children, _⟩ =>
    match kind with
    | .function => []
    | .variableDeclaration => (attributes.get? "name").toList ++ ownNamesAll children
    | _ => ownNamesAll children

/-- The variables that several trees declare. -/
def ownNamesAll : List Tree → List String
  | [] => []
  | t :: ts => ownNames t ++ ownNamesAll ts

end

mutual

/-- The uses of variables in a tree after declarations, each after the uses for its value; those in
functions inside it are left out. A declaration counts for its own value. -/
def uses (declared : List String) : Tree → List Use
  | ⟨kind, value, attributes, children, _⟩ =>
    match kind with
    | .function => []
    | .identifier => value.toList.map (⟨.read, ·, declared⟩)
    | .assignment =>
      usesAll declared children ++ (attributes.get? "name").toList.map (⟨.assign, ·, declared⟩)
    | .variableDeclaration =>
      let name := (attributes.get? "name").toList
      usesAll (name ++ declared) children ++ name.map (⟨.init, ·, name ++ declared⟩)
    | _ => usesAll declared children

/-- The uses of variables in several trees. -/
def usesAll (declared : List String) : List Tree → List Use
  | [] => []
  | t :: ts => uses declared t ++ usesAll ((ownNames t).reverse ++ declared) ts

end

/-! ## Names in trees in form -/

/-- The kinds of nodes that expressions are made of. -/
def Kind.isOperation (kind : Kind) : Bool := kind.isValue || kind == .condition

/-- Below a node of an expression there are only values. -/
theorem InForm.isValue_children {t : Tree} (h : t.InForm) (hkind : t.kind.isOperation = true) :
    ∀ c ∈ t.children, c.kind.isValue = true := by
  have hchildren := h.hasForm.children
  have hvalues : ∀ k ∈ t.children.map Tree.kind, k.isValue = true := by
    cases hk : t.kind <;> rw [hk] at hkind hchildren <;> first
      | exact hchildren.2
      | exact hchildren
      | (rw [hchildren]; exact List.forall_mem_nil _)
      | cases hkind
  exact List.forall_mem_map.mp hvalues

theorem ownNamesAll_eq_nil {ts : List Tree} (h : ∀ t ∈ ts, t.ownNames = []) :
    ownNamesAll ts = [] := by
  induction ts with
  | nil => rfl
  | cons t ts ih =>
    obtain ⟨ht, hts⟩ := List.forall_mem_cons.mp h
    rw [ownNamesAll, ht, ih hts, List.append_nil]

theorem ownNames_eq_nil (t : Tree) (h : t.InForm) (hkind : t.kind.isOperation = true) :
    t.ownNames = [] := by
  induction t using walk_induction with
  | h t ih =>
    have hnil : ownNamesAll t.children = [] := ownNamesAll_eq_nil fun c hc =>
      ih c (mem_walkAll_of_mem hc) (h.children c hc)
        (by simp [Kind.isOperation, h.isValue_children hkind c hc])
    obtain ⟨kind, value, attributes, children, location⟩ := t
    cases kind <;> first
      | exact hnil
      | cases hkind

end Tree

/-! ## Operations on variables -/

/-- Whether an operation reads or writes a variable. -/
def Operation.isAccess : Operation → Bool
  | load _ | store _ | loadGlobal _ | storeGlobal _ => true
  | _ => false

namespace Draft

/-- The operation of a draft if it reads or writes a variable. -/
def access? (d : Draft) : Option Operation :=
  match d.action with
  | .fixed operation => if operation.isAccess then some operation else none
  | _ => none

/-- The operations of code that read or write variables. -/
def accesses (ds : List Draft) : List Operation := ds.filterMap access?

@[simp] theorem accesses_nil : accesses [] = [] := rfl

@[simp] theorem accesses_append (ds es : List Draft) :
    accesses (ds ++ es) = accesses ds ++ accesses es :=
  List.filterMap_append

@[simp] theorem accesses_load (place : Place) (comment : String) :
    accesses [load place comment] = [Simulation.loadOf place] := by
  cases place <;> rfl

@[simp] theorem accesses_store (place : Place) (comment : String) :
    accesses [store place comment] = [Simulation.storeOf place] := by
  cases place <;> rfl

/-- Putting addresses in keeps the operations on variables. -/
theorem filter_isAccess_link (comments : Bool) (entries : List (String × Nat)) (address : Nat)
    (ds : List Draft) :
    ((link comments entries address ds).map Instruction.operation).filter Operation.isAccess =
      accesses ds := by
  induction ds generalizing address with
  | nil => rfl
  | cons d ds ih =>
    obtain ⟨action, label, comment⟩ := d
    rw [link, List.map_cons, List.filter_cons, ih, accesses, accesses, List.filterMap_cons]
    cases action with
    | fixed operation => cases h : operation.isAccess <;> simp [access?, Action.operation, h]
    | jump distance => rfl
    | jumpIfZero distance => rfl
    | call callee missing => rfl

end Draft

/-! ## Scopes that know the text -/

/-- Inside a function, a scope gives names the places that the text gives them. -/
structure Scope.Knows (parameters globals declared : List String) (σ : Scope) : Prop where
  inside : σ.inside.isSome = true
  globals : σ.globals = globals
  frameSize : σ.frameSize = declared.length
  lookup : ∀ name, σ.locals.lookup (some name) = Simulation.offset? parameters declared name

variable {parameters globals declared : List String} {σ : Scope}

namespace Scope.Knows

theorem resolve? (h : σ.Knows parameters globals declared) (kind : Use.Kind) (name : String) :
    σ.resolve? (some name) = Use.place? parameters globals ⟨kind, name, declared⟩ := by
  rw [Scope.resolve?, h.lookup, h.globals]
  rfl

theorem placeOf (h : σ.Knows parameters globals declared) (name : String) :
    some (σ.placeOf name) = Use.place? parameters globals ⟨.init, name, name :: declared⟩ := by
  obtain ⟨f, hf⟩ := Option.isSome_iff_exists.mp h.inside
  simp [Scope.placeOf, hf, Use.place?, Simulation.offset?, Meaning.latest?, h.frameSize]

theorem declare (h : σ.Knows parameters globals declared) (name : String) :
    (σ.declare name).Knows parameters globals (name :: declared) := by
  obtain ⟨f, hf⟩ := Option.isSome_iff_exists.mp h.inside
  rw [Scope.declare_of_inside hf]
  refine ⟨h.inside, h.globals, by simp [h.frameSize], fun n => ?_⟩
  by_cases hn : n = name
  · subst hn
    simp [Simulation.offset?, Meaning.latest?, h.frameSize]
  · have hne : (some n == some name) = false := by simpa using hn
    rw [List.lookup_cons, hne, h.lookup]
    simp [Simulation.offset?, Meaning.latest?, Ne.symm hn]

end Scope.Knows

/-! ## Expressions -/

variable (parameters globals)

/-- The code of an expression does what these uses call for. -/
def Expr.Renders (uses : List String → List Use) (e : Expr) : Prop :=
  ∀ declared σ, σ.Knows parameters globals declared →
    Draft.accesses (e.code σ) = (uses declared).filterMap (Use.operation? parameters globals)

/-- The code of a statement does what these uses call for, and the statement declares these
variables. -/
def Stmt.Renders (names : List String) (uses : List String → List Use) (s : Stmt) : Prop :=
  ∀ declared σ, σ.Knows parameters globals declared →
    Draft.accesses (s.code σ) = (uses declared).filterMap (Use.operation? parameters globals) ∧
      (s.scopeAfter σ).Knows parameters globals (names.reverse ++ declared)

variable {parameters globals}

namespace Expr

theorem accesses_codeAll (σ : Scope) (es : List Expr) :
    Draft.accesses (codeAll σ es) = es.flatMap fun e => Draft.accesses (e.code σ) := by
  induction es with
  | nil => rfl
  | cons e es ih => rw [codeAll, Draft.accesses_append, ih, List.flatMap_cons]

theorem accesses_codeDiscarded (σ : Scope) (es : List Expr) :
    Draft.accesses (codeDiscarded σ es) = es.flatMap fun e => Draft.accesses (e.code σ) := by
  induction es with
  | nil => rfl
  | cons e es ih =>
    have hpop : Draft.accesses [.bare .pop] = [] := rfl
    rw [codeDiscarded, Draft.accesses_append, Draft.accesses_append, hpop, List.append_nil, ih,
      List.flatMap_cons]

theorem accesses_call (σ : Scope) (callee : Option String) (arguments : List Expr)
    (location : Option Location) :
    Draft.accesses ((Expr.call callee arguments location).code σ) =
      arguments.flatMap fun e => Draft.accesses (e.code σ) := by
  have hcall : Draft.accesses [σ.callDraft callee] = [] := by
    unfold Scope.callDraft
    split <;> rfl
  rw [code]
  split
  · split
    · rw [Draft.accesses_append, accesses_codeAll]
      exact List.append_nil _
    · rw [Draft.accesses_append, accesses_codeDiscarded]
      exact List.append_nil _
  · rw [Draft.accesses_append, accesses_codeAll, hcall, List.append_nil]

theorem accesses_ofOperator (σ : Scope) (operator : Option String) (left right : Expr)
    (location : Option Location) :
    Draft.accesses ((Expr.ofOperator operator left right location).code σ) =
      Draft.accesses (left.code σ) ++ Draft.accesses (right.code σ) := by
  rw [ofOperator]
  split
  · rw [code, Draft.accesses_append, Draft.accesses_append]
    exact List.append_nil _
  · rw [code, Draft.accesses_append, Draft.accesses_append]
    exact List.append_nil _

end Expr

namespace Tree

/-- Among trees that declare nothing, all uses are after the same declarations. -/
theorem usesAll_eq_flatMap {ts : List Tree} (h : ∀ t ∈ ts, t.ownNames = [])
    (declared : List String) : usesAll declared ts = ts.flatMap (uses declared) := by
  induction ts with
  | nil => rfl
  | cons t ts ih =>
    obtain ⟨ht, hts⟩ := List.forall_mem_cons.mp h
    rw [usesAll, ht, List.reverse_nil, List.nil_append, ih hts, List.flatMap_cons]

/-- The code of an expression in form uses variables as the text does. -/
theorem renders_expr (t : Tree) (h : t.InForm) (hkind : t.kind.isOperation = true) :
    (Expr.ofTree t).Renders parameters globals fun declared => t.uses declared := by
  induction t using walk_induction with
  | h t ih =>
    have hvalue : ∀ c ∈ t.children, c.kind.isOperation = true := fun c hc => by
      simp [Kind.isOperation, h.isValue_children hkind c hc]
    have hnames : ∀ c ∈ t.children, c.ownNames = [] := fun c hc =>
      ownNames_eq_nil c (h.children c hc) (hvalue c hc)
    intro declared σ hσ
    have hall : (t.children.map Expr.ofTree).flatMap (fun e => Draft.accesses (e.code σ)) =
        (usesAll declared t.children).filterMap (Use.operation? parameters globals) := by
      rw [usesAll_eq_flatMap hnames, List.flatMap_map, List.filterMap_flatMap]
      exact List.flatMap_congr fun c hc =>
        ih c (mem_walkAll_of_mem hc) (h.children c hc) (hvalue c hc) declared σ hσ
    have hform := h.hasForm
    have hlength : (t.children.map Tree.kind).length = t.children.length := List.length_map _
    obtain ⟨kind, value, attributes, children, location⟩ := t
    cases kind with
    | number =>
      cases List.map_eq_nil_iff.mp hform.children
      simp only [Expr.ofTree, Expr.ofNumber]
      split <;> rfl
    | identifier =>
      obtain ⟨name, rfl⟩ := Option.isSome_iff_exists.mp hform.text
      have hresolve := hσ.resolve? .read name
      simp only [Expr.ofTree, Expr.code, uses, hresolve]
      cases hplace : Use.place? parameters globals ⟨.read, name, declared⟩ with
      | none => simp [Use.operation?, hplace]; rfl
      | some place => simp [Use.operation?, hplace]
    | functionCall =>
      rw [← Expr.ofTrees_eq_map] at hall
      simp only [Expr.ofTree, Expr.accesses_call, hall, uses]
    | negate =>
      obtain ⟨operand, rfl⟩ := List.length_eq_one_iff.mp (hlength.symm.trans hform.children.1)
      have hcode : Draft.accesses ((Expr.ofTree operand).code σ ++ [.bare .negate]) =
          Draft.accesses ((Expr.ofTree operand).code σ) := by
        rw [Draft.accesses_append]
        exact List.append_nil _
      exact hcode.trans (by simpa [uses] using hall)
    | expression | term | condition =>
      obtain ⟨left, right, rfl⟩ := List.length_eq_two.mp (hlength.symm.trans hform.children.1)
      exact (Expr.accesses_ofOperator σ _ _ _ location).trans (by simpa [uses] using hall)
    | _ => cases hkind

end Tree

/-! ## Statements -/

namespace Stmt

theorem renders_skip : Stmt.skip.Renders parameters globals [] fun _ => [] :=
  fun _ _ hσ => ⟨rfl, hσ⟩

theorem renders_misuse (m : Misuse) (location : Option Location) :
    (Stmt.misuse m location).Renders parameters globals [] fun _ => [] :=
  fun _ _ hσ => ⟨rfl, hσ⟩

theorem Renders.seq {names names' : List String} {uses uses' : List String → List Use}
    {first second : Stmt} (h : first.Renders parameters globals names uses)
    (h' : second.Renders parameters globals names' uses') :
    (Stmt.seq first second).Renders parameters globals (names ++ names') fun declared =>
      uses declared ++ uses' (names.reverse ++ declared) := by
  intro declared σ hσ
  obtain ⟨hcode, hafter⟩ := h declared σ hσ
  obtain ⟨hcode', hafter'⟩ := h' _ _ hafter
  refine ⟨?_, ?_⟩
  · rw [code, Draft.accesses_append, hcode, hcode', List.filterMap_append]
  · rw [List.reverse_append, List.append_assoc]
    exact hafter'

theorem Renders.branch {condition : Expr} {names names' : List String}
    {tested uses uses' : List String → List Use} {yes no : Stmt} (chained : Bool)
    (hcondition : condition.Renders parameters globals tested)
    (h : yes.Renders parameters globals names uses)
    (h' : no.Renders parameters globals names' uses') :
    (Stmt.branch chained condition yes no).Renders parameters globals (names ++ names')
      fun declared => tested declared ++ (uses declared ++ uses' (names.reverse ++ declared)) := by
  intro declared σ hσ
  obtain ⟨hcode, hafter⟩ := h declared σ hσ
  obtain ⟨hcode', hafter'⟩ := h' _ _ hafter
  refine ⟨?_, ?_⟩
  · have hjumps (condition yes no : List Draft) :
        Draft.accesses (branchCode chained condition yes no) =
          Draft.accesses condition ++ (Draft.accesses yes ++ Draft.accesses no) := by
      simp only [branchCode, Draft.accesses_append, List.append_assoc]
      rfl
    rw [code, hjumps, hcondition declared σ hσ, hcode, hcode', List.filterMap_append,
      List.filterMap_append]
  · rw [List.reverse_append, List.append_assoc]
    exact hafter'

theorem Renders.loop {condition : Expr} {names : List String}
    {tested uses : List String → List Use} {body : Stmt}
    (hcondition : condition.Renders parameters globals tested)
    (h : body.Renders parameters globals names uses) :
    (Stmt.loop condition body).Renders parameters globals names
      fun declared => tested declared ++ uses declared := by
  intro declared σ hσ
  obtain ⟨hcode, hafter⟩ := h declared σ hσ
  refine ⟨?_, hafter⟩
  have hjumps (condition body : List Draft) : Draft.accesses (loopCode condition body) =
      Draft.accesses condition ++ Draft.accesses body := by
    simp only [loopCode, Draft.accesses_append]
    change (Draft.accesses condition ++ [] ++ Draft.accesses body) ++ [] = _
    rw [List.append_nil, List.append_nil]
  rw [code, hjumps, hcondition declared σ hσ, hcode, List.filterMap_append]

theorem renders_discard {e : Expr} {uses : List String → List Use}
    (h : e.Renders parameters globals uses) :
    (Stmt.discard e).Renders parameters globals [] uses := by
  intro declared σ hσ
  refine ⟨?_, hσ⟩
  rw [code, Draft.accesses_append, h declared σ hσ]
  exact List.append_nil _

theorem renders_giveBack {e : Expr} {uses : List String → List Use}
    (h : e.Renders parameters globals uses) (location : Option Location) :
    (Stmt.giveBack (some e) location).Renders parameters globals [] uses := by
  intro declared σ hσ
  refine ⟨?_, hσ⟩
  obtain ⟨f, hf⟩ := Option.isSome_iff_exists.mp hσ.inside
  simp only [code, hf, Draft.accesses_append, h declared σ hσ]
  exact List.append_nil _

theorem renders_assign {e : Expr} {uses : List String → List Use}
    (h : e.Renders parameters globals uses) (name : String) (location : Option Location) :
    (Stmt.assign (some name) e location).Renders parameters globals [] fun declared =>
      uses declared ++ [⟨.assign, name, declared⟩] := by
  intro declared σ hσ
  refine ⟨?_, hσ⟩
  rw [code, Draft.accesses_append, h declared σ hσ, List.filterMap_append, hσ.resolve? .assign]
  cases hplace : Use.place? parameters globals ⟨.assign, name, declared⟩ with
  | none =>
    simp only [List.filterMap_cons, Use.operation?, hplace, Option.map_none, List.filterMap_nil]
    rfl
  | some place => simp [Use.operation?, hplace]

/-- A declaration counts for its own value. -/
theorem renders_declare {value : Option Expr} {uses : List String → List Use} (name : String)
    (h : ∀ e ∈ value, e.Renders parameters globals uses)
    (hnone : value = none → ∀ declared, uses declared = []) :
    (Stmt.declare name value).Renders parameters globals [name] fun declared =>
      uses (name :: declared) ++ [⟨.init, name, name :: declared⟩] := by
  intro declared σ hσ
  have hafter := hσ.declare name
  have hstore : Draft.accesses [.store (σ.placeOf name) ("init " ++ name)] =
      [⟨.init, name, name :: declared⟩].filterMap (Use.operation? parameters globals) := by
    simp [Use.operation?, ← hσ.placeOf name]
  refine ⟨?_, hafter⟩
  cases value with
  | none =>
    rw [code, Draft.accesses_append, hstore, List.filterMap_append, hnone rfl]
    rfl
  | some e =>
    rw [code, Draft.accesses_append, hstore, List.filterMap_append, h e rfl _ _ hafter]

end Stmt

namespace Tree

theorem HasForm.exists_name {t : Tree} (h : t.HasForm) {rest : List String}
    (hnames : t.kind.attributeNames = "name" :: rest) :
    ∃ name, t.attributes.get? "name" = some name := by
  have hattributes := h.attributes.trans hnames
  obtain ⟨a, as, hcons, ha, -⟩ := List.map_eq_cons_iff.mp hattributes
  obtain ⟨key, text⟩ := a
  cases ha
  exact ⟨text, by rw [hcons]; rfl⟩

theorem renders_ofTrees {ts : List Tree}
    (h : ∀ t ∈ ts, (Stmt.ofTree t).Renders parameters globals t.ownNames fun declared =>
      t.uses declared) :
    (Stmt.ofTrees ts).Renders parameters globals (ownNamesAll ts) fun declared =>
      usesAll declared ts := by
  induction ts with
  | nil => exact Stmt.renders_skip
  | cons t ts ih =>
    obtain ⟨ht, hts⟩ := List.forall_mem_cons.mp h
    exact ht.seq (ih hts)

/-- A test and a block before the rest of a chain. -/
theorem renders_guarded {condition block : Tree} {names : List String}
    {uses' : List String → List Use} {rest : Stmt} (chained : Bool)
    (hcondition : condition.InForm) (hkind : condition.kind = .condition)
    (hblock : (Stmt.ofBlock block).Renders parameters globals block.ownNames fun declared =>
      block.uses declared)
    (hrest : rest.Renders parameters globals names uses') :
    (Stmt.branch chained (Expr.ofTree condition) (Stmt.ofBlock block) rest).Renders parameters
      globals (condition.ownNames ++ (block.ownNames ++ names)) fun declared =>
        condition.uses declared ++ (block.uses (condition.ownNames.reverse ++ declared) ++
          uses' (block.ownNames.reverse ++ (condition.ownNames.reverse ++ declared))) := by
  have hoperation : condition.kind.isOperation = true := by rw [hkind]; rfl
  have hnames := ownNames_eq_nil condition hcondition hoperation
  simp only [hnames, List.nil_append, List.reverse_nil]
  exact .branch chained (renders_expr condition hcondition hoperation) hblock hrest

/-- The further branches and the last arm, given what the blocks in them do. -/
theorem renders_chain {rest : List Tree} (hforms : ∀ t ∈ rest, t.InForm)
    (hkinds : ∃ n, rest.map Tree.kind = List.replicate n .elseIf ∨
      rest.map Tree.kind = List.replicate n .elseIf ++ [.otherwise])
    (h : ∀ t ∈ rest, ∀ b ∈ t.children, b.kind = .block →
      (Stmt.ofBlock b).Renders parameters globals b.ownNames fun declared => b.uses declared)
    (location : Option Location) :
    (Stmt.ofBranches location rest (Stmt.ofElse rest)).Renders parameters globals
      (ownNamesAll rest) fun declared => usesAll declared rest := by
  induction rest with
  | nil => exact Stmt.renders_skip
  | cons t rest ih =>
    obtain ⟨hform, hothers⟩ := List.forall_mem_cons.mp hforms
    obtain ⟨hblocks, hlater⟩ := List.forall_mem_cons.mp h
    have hchildren := hform.hasForm.children
    have hparts := hform.children
    obtain ⟨kind, value, attributes, children, place⟩ := t
    obtain ⟨n, hkinds⟩ := hkinds
    cases n with
    | zero =>
      rcases hkinds with hkinds | hkinds
      · cases hkinds
      · obtain ⟨hkind, hnil⟩ := List.cons.inj hkinds
        cases hkind
        cases List.map_eq_nil_iff.mp hnil
        obtain ⟨block, others, rfl, hblock, hnone⟩ := List.map_eq_cons_iff.mp hchildren
        cases List.map_eq_nil_iff.mp hnone
        simp only [ownNamesAll, ownNames, usesAll, uses, List.append_nil]
        exact hblocks block List.mem_cons_self hblock
    | succ n =>
      have hkind : kind = .elseIf := by
        rcases hkinds with hkinds | hkinds <;> exact (List.cons.inj hkinds).1
      cases hkind
      obtain ⟨condition, block, others, rfl, hcondition, hblock, hnone⟩ :=
        kinds_of_map_eq hchildren
      cases List.map_eq_nil_iff.mp hnone
      have hrest := ih hothers ⟨n, hkinds.imp (fun h => (List.cons.inj h).2)
        fun h => (List.cons.inj h).2⟩ hlater
      rw [ofBranches_elseIf]
      simp only [ownNamesAll, ownNames, usesAll, uses, List.append_nil, List.append_assoc,
        List.reverse_append]
      exact renders_guarded true (hparts condition List.mem_cons_self) hcondition
        (hblocks block (List.mem_cons_of_mem _ List.mem_cons_self) hblock) hrest

/-- A conditional has a test and a block, further branches and at most one last arm. -/
theorem kinds_of_conditional {ts : List Tree} (h : Kind.Holds .conditional (ts.map Tree.kind)) :
    ∃ condition block rest, ts = condition :: block :: rest ∧ condition.kind = .condition ∧
      block.kind = .block ∧ ∃ n, rest.map Tree.kind = List.replicate n .elseIf ∨
        rest.map Tree.kind = List.replicate n .elseIf ++ [.otherwise] := by
  obtain ⟨n, hkinds | hkinds⟩ := h
  · obtain ⟨condition, block, rest, rfl, hcondition, hblock, hrest⟩ := kinds_of_map_eq hkinds
    exact ⟨condition, block, rest, rfl, hcondition, hblock, n, .inl hrest⟩
  · obtain ⟨condition, block, rest, rfl, hcondition, hblock, hrest⟩ := kinds_of_map_eq hkinds
    exact ⟨condition, block, rest, rfl, hcondition, hblock, n, .inr hrest⟩

/-- The code of a statement in form uses variables as the text does. -/
theorem renders_stmt (t : Tree) (h : t.InForm)
    (hkind : t.kind.isStatement = true ∨ t.kind = .block) :
    (Stmt.ofTree t).Renders parameters globals t.ownNames fun declared => t.uses declared := by
  induction t using walk_induction with
  | h t ih =>
    have hform := h.hasForm
    have hparts := h.children
    have hlength : (t.children.map Tree.kind).length = t.children.length := List.length_map _
    have hvalue {c : Tree} (hc : c ∈ t.children) (hkind : c.kind.isValue = true) :
        (Expr.ofTree c).Renders parameters globals (fun declared => c.uses declared) ∧
          c.ownNames = [] := by
      have hoperation : c.kind.isOperation = true := by simp [Kind.isOperation, hkind]
      exact ⟨renders_expr c (hparts c hc) hoperation,
        ownNames_eq_nil c (hparts c hc) hoperation⟩
    have hblocks {b : Tree} (hb : b ∈ walkAll t.children) (hform : b.InForm)
        (hkind : b.kind = .block) :
        (Stmt.ofBlock b).Renders parameters globals b.ownNames fun declared => b.uses declared := by
      rw [ofBlock_eq_ofTree hkind]
      exact ih b hb hform (.inr hkind)
    obtain ⟨kind, value, attributes, children, location⟩ := t
    cases kind with
    | function => exact Stmt.renders_misuse _ _
    | variableDeclaration =>
      obtain ⟨name, hname⟩ := hform.exists_name rfl
      obtain ⟨hsize, hvalues⟩ := hform.children
      simp only [Stmt.ofTree, ownNames, uses, hname]
      cases children with
      | nil => exact Stmt.renders_declare name (by rintro e ⟨⟩) fun _ _ => rfl
      | cons c others =>
        cases List.eq_nil_of_length_eq_zero (Nat.le_zero.mp (by simpa using hsize))
        obtain ⟨hrenders, hnil⟩ := hvalue List.mem_cons_self (hvalues _ List.mem_cons_self)
        have hsome : ∀ e ∈ some (Expr.ofTree c), e.Renders parameters globals fun declared =>
            c.uses declared := by
          rintro e ⟨⟩
          exact hrenders
        simp only [ownNamesAll, usesAll, hnil, List.append_nil]
        exact Stmt.renders_declare name hsome (by rintro ⟨⟩)
    | assignment =>
      obtain ⟨name, hname⟩ := hform.exists_name rfl
      obtain ⟨hsize, hvalues⟩ := hform.children
      obtain ⟨c, rfl⟩ := List.length_eq_one_iff.mp (hlength.symm.trans hsize)
      obtain ⟨hrenders, hnil⟩ := hvalue List.mem_cons_self (hvalues _ List.mem_cons_self)
      simp only [Stmt.ofTree, ownNames, ownNamesAll, uses, usesAll, hname, hnil, List.append_nil]
      exact Stmt.renders_assign hrenders name location
    | conditional =>
      obtain ⟨condition, block, rest, rfl, hcondition, hblock, hkinds⟩ :=
        kinds_of_conditional hform.children
      simp only [List.forall_mem_cons] at hparts
      obtain ⟨hcform, hbform, hforms⟩ := hparts
      rw [ofTree_conditional hcondition hblock]
      refine renders_guarded false hcform hcondition (hblocks ?_ hbform hblock)
        (renders_chain hforms hkinds ?_ location)
      · exact mem_walkAll_of_mem (List.mem_cons_of_mem _ List.mem_cons_self)
      · intro branch hbranch b hb hbkind
        refine hblocks ?_ ((hforms branch hbranch).children b hb) hbkind
        exact mem_walkAll_of_mem_children
          (List.mem_cons_of_mem _ (List.mem_cons_of_mem _ hbranch)) hb
    | loop =>
      obtain ⟨condition, block, others, rfl, hcondition, hblock, hnone⟩ :=
        kinds_of_map_eq hform.children
      cases List.map_eq_nil_iff.mp hnone
      simp only [List.forall_mem_cons] at hparts
      obtain ⟨hcform, hbform, -⟩ := hparts
      have hoperation : condition.kind.isOperation = true := by rw [hcondition]; rfl
      have hbody := hblocks (mem_walkAll_of_mem (List.mem_cons_of_mem _ List.mem_cons_self))
        hbform hblock
      simp only [Stmt.ofTree, ownNames, ownNamesAll, uses, usesAll,
        ownNames_eq_nil condition hcform hoperation, List.nil_append, List.append_nil,
        List.reverse_nil]
      exact .loop (renders_expr condition hcform hoperation) hbody
    | giveBack =>
      obtain ⟨hsize, hvalues⟩ := hform.children
      obtain ⟨c, rfl⟩ := List.length_eq_one_iff.mp (hlength.symm.trans hsize)
      obtain ⟨hrenders, hnil⟩ := hvalue List.mem_cons_self (hvalues _ List.mem_cons_self)
      simp only [Stmt.ofTree, ownNames, ownNamesAll, uses, usesAll, hnil, List.append_nil]
      exact Stmt.renders_giveBack hrenders location
    | block =>
      refine renders_ofTrees fun c hc => ih c (mem_walkAll_of_mem hc) (hparts c hc) (.inl ?_)
      exact hform.children c.kind (List.mem_map_of_mem hc)
    | expression | term | negate | functionCall | number | identifier =>
      rw [ownNames_eq_nil _ h rfl]
      exact Stmt.renders_discard (renders_expr _ h rfl)
    | _ => rcases hkind with hkind | hkind <;> cases hkind

end Tree

end StackLang
