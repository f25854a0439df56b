import StackLang.Script.Code
import StackLang.Script.OfTree

/-!
# What code depends on

The places in a tree are there for messages, so trees are compared without them. The code of a
statement depends on what the names in it mean: what matters of the signatures in a scope is which
names are found among them, not their order or their types.
-/

namespace StackLang

mutual

/-- A tree without its places. -/
def Tree.unplaced : Tree → Tree
  | ⟨kind, value, attributes, children, _⟩ =>
    ⟨kind, value, attributes, Tree.unplacedAll children, none⟩

/-- Several trees without their places. -/
def Tree.unplacedAll : List Tree → List Tree
  | [] => []
  | t :: ts => Tree.unplaced t :: Tree.unplacedAll ts

end

namespace Tree

@[simp] theorem kind_unplaced (t : Tree) : t.unplaced.kind = t.kind := by
  cases t
  rfl

@[simp] theorem get?_unplaced (t : Tree) (key : String) : t.unplaced.get? key = t.get? key := by
  cases t
  rfl

@[simp] theorem unplacedAll_eq_map (ts : List Tree) : unplacedAll ts = ts.map unplaced := by
  induction ts with
  | nil => rfl
  | cons t ts ih => rw [unplacedAll, ih, List.map_cons]

mutual

theorem declarations_unplaced : (t : Tree) → t.unplaced.declarations = t.declarations
  | ⟨kind, value, attributes, children, location⟩ => by
    rw [unplaced, declarations, declarations, declarationsAll_unplacedAll children]

theorem declarationsAll_unplacedAll : (ts : List Tree) →
    declarationsAll (unplacedAll ts) = declarationsAll ts
  | [] => rfl
  | t :: ts => by
    rw [unplacedAll, declarationsAll, declarationsAll, declarations_unplaced t,
      declarationsAll_unplacedAll ts]

end

mutual

/-- Trees are compared node by node. -/
def decEq : (t u : Tree) → Decidable (t = u)
  | ⟨kind, value, attributes, children, location⟩,
    ⟨kind', value', attributes', children', location'⟩ =>
    have := decEqAll children children'
    decidable_of_iff (kind = kind' ∧ value = value' ∧ attributes = attributes' ∧
      children = children' ∧ location = location') (by simp)

def decEqAll : (ts us : List Tree) → Decidable (ts = us)
  | [], [] => isTrue rfl
  | [], _ :: _ => isFalse (by simp)
  | _ :: _, [] => isFalse (by simp)
  | t :: ts, u :: us =>
    have := decEq t u
    have := decEqAll ts us
    decidable_of_iff (t = u ∧ ts = us) (by simp)

end

instance : DecidableEq Tree := decEq

end Tree

/-! ## Scopes with the same names -/

/-- What a call has to know of a function, without its type. -/
def Signature.untyped (f : Signature) : Signature := { f with returnType := none }

/-- Two scopes give every name the same meaning, types apart. -/
structure Scope.Alike (σ τ : Scope) : Prop where
  calls : ∀ name, (σ.signature? name).isSome = (τ.signature? name).isSome
  globals : σ.globals = τ.globals
  locals : σ.locals = τ.locals
  frameSize : σ.frameSize = τ.frameSize
  inside : σ.inside.map Signature.untyped = τ.inside.map Signature.untyped

theorem Scope.locals_enter (σ : Scope) (f : Signature) (ps : List Parameter) :
    (σ.enter f ps).locals = (ps.map Parameter.name).zipIdx.foldl (fun locals p =>
      if (locals.lookup p.1).isSome then locals
      else (p.1, -(((ps.map Parameter.name).length : Int) - p.2 + 2)) :: locals) [] := by
  simp only [Scope.enter, List.zipIdx_map, List.foldl_map, List.length_map, Prod.map, id]

namespace Scope.Alike

variable {σ τ : Scope}

/-- Both scopes stand outside functions, or in functions that differ in their types at most. -/
theorem inside_cases (h : σ.Alike τ) :
    (σ.inside = none ∧ τ.inside = none) ∨
      ∃ f g, σ.inside = some f ∧ τ.inside = some g ∧ f.untyped = g.untyped := by
  have hinside := h.inside
  cases hτ : τ.inside with
  | none =>
    rw [hτ, Option.map_none, Option.map_eq_none_iff] at hinside
    exact .inl ⟨hinside, rfl⟩
  | some g =>
    rw [hτ, Option.map_some, Option.map_eq_some_iff] at hinside
    obtain ⟨f, hf, hsame⟩ := hinside
    exact .inr ⟨f, g, hf, rfl, hsame⟩

theorem resolve?_eq (h : σ.Alike τ) (name : Option String) :
    σ.resolve? name = τ.resolve? name := by
  rw [resolve?, resolve?, h.locals, h.globals]

theorem prints_eq (h : σ.Alike τ) (callee : Option String) : σ.prints callee = τ.prints callee := by
  rw [prints, prints, ← Option.not_isSome, ← Option.not_isSome, h.calls]

theorem callDraft_eq (h : σ.Alike τ) (callee : Option String) :
    σ.callDraft callee = τ.callDraft callee := by
  have hcalls := h.calls callee
  cases callee with
  | none => rfl
  | some name =>
    simp only [callDraft]
    generalize σ.signature? (some name) = f, τ.signature? (some name) = g at hcalls
    cases f <;> cases g <;> first | rfl | cases hcalls

theorem placeOf_eq (h : σ.Alike τ) (name : String) : σ.placeOf name = τ.placeOf name := by
  rw [placeOf, placeOf, h.frameSize, h.globals]
  rcases h.inside_cases with ⟨hσ, hτ⟩ | ⟨f, g, hσ, hτ, -⟩ <;> rw [hσ, hτ]

theorem declare (h : σ.Alike τ) (name : String) : (σ.declare name).Alike (τ.declare name) := by
  rcases h.inside_cases with ⟨hσ, hτ⟩ | ⟨f, g, hσ, hτ, hsame⟩
  · simp only [Scope.declare, hσ, hτ, h.globals]
    by_cases hknown : τ.globals.contains name
    · rwa [if_pos hknown, if_pos hknown]
    · rw [if_neg hknown, if_neg hknown]
      exact ⟨h.calls, rfl, h.locals, h.frameSize, rfl⟩
  · simp only [Scope.declare, hσ, hτ, h.locals, h.frameSize]
    exact ⟨h.calls, h.globals, rfl, rfl, congrArg some hsame⟩

/-- What a function knows at its start depends on the names of its parameters only. -/
theorem enter (h : σ.Alike τ) (f : Signature) {ps qs : List Parameter}
    (hnames : ps.map Parameter.name = qs.map Parameter.name) :
    (σ.enter f ps).Alike (τ.enter f qs) := by
  refine ⟨h.calls, h.globals, ?_, rfl, rfl⟩
  rw [locals_enter, locals_enter, hnames]

end Scope.Alike

/-! ## The same code -/

mutual

/-- The code of an expression depends on what the names mean. -/
theorem Expr.code_congr {σ τ : Scope} (h : σ.Alike τ) (e : Expr) : e.code σ = e.code τ := by
  cases e with
  | number digits => rfl
  | «variable» name location => rw [Expr.code, Expr.code, h.resolve?_eq]
  | binary op left right =>
    rw [Expr.code, Expr.code, Expr.code_congr h left, Expr.code_congr h right]
  | unknown operator left right location =>
    rw [Expr.code, Expr.code, Expr.code_congr h left, Expr.code_congr h right]
  | negate operand => rw [Expr.code, Expr.code, Expr.code_congr h operand]
  | call callee arguments location =>
    rw [Expr.code, Expr.code, Expr.codeAll_congr h arguments, Expr.codeDiscarded_congr h arguments,
      h.prints_eq, h.callDraft_eq]
  | hole m location => rfl

theorem Expr.codeAll_congr {σ τ : Scope} (h : σ.Alike τ) (es : List Expr) :
    Expr.codeAll σ es = Expr.codeAll τ es := by
  cases es with
  | nil => rfl
  | cons e es => rw [Expr.codeAll, Expr.codeAll, Expr.code_congr h e, Expr.codeAll_congr h es]

theorem Expr.codeDiscarded_congr {σ τ : Scope} (h : σ.Alike τ) (es : List Expr) :
    Expr.codeDiscarded σ es = Expr.codeDiscarded τ es := by
  cases es with
  | nil => rfl
  | cons e es =>
    rw [Expr.codeDiscarded, Expr.codeDiscarded, Expr.code_congr h e,
      Expr.codeDiscarded_congr h es]

end

namespace Stmt

variable {σ τ : Scope}

/-- Behind a statement names have the same meaning if they have it before. -/
theorem alike_scopeAfter (h : σ.Alike τ) (s : Stmt) :
    (s.scopeAfter σ).Alike (s.scopeAfter τ) := by
  induction s generalizing σ τ with
  | seq first second ih₁ ih₂ => exact ih₂ (ih₁ h)
  | declare name value => exact h.declare name
  | branch chained condition yes no ih₁ ih₂ => exact ih₂ (ih₁ h)
  | loop condition body ih => exact ih h
  | _ => exact h

/-- The code of a statement depends on what the names mean. -/
theorem code_congr (h : σ.Alike τ) (s : Stmt) : s.code σ = s.code τ := by
  induction s generalizing σ τ with
  | skip => rfl
  | seq first second ih₁ ih₂ => rw [code, code, ih₁ h, ih₂ (alike_scopeAfter h first)]
  | declare name value =>
    cases value with
    | none => simp only [code, h.placeOf_eq]
    | some e => simp only [code, h.placeOf_eq, e.code_congr (h.declare name)]
  | assign name value location => rw [code, code, value.code_congr h, h.resolve?_eq]
  | discard value => rw [code, code, value.code_congr h]
  | branch chained condition yes no ih₁ ih₂ =>
    rw [code, code, condition.code_congr h, ih₁ h, ih₂ (alike_scopeAfter h yes)]
  | loop condition body ih => rw [code, code, condition.code_congr h, ih h]
  | giveBack value location =>
    rcases h.inside_cases with ⟨hσ, hτ⟩ | ⟨f, g, hσ, hτ, hsame⟩
    · simp only [code, hσ, hτ]
    · have hname : f.name = g.name := (Signature.mk.inj hsame).1
      have harity : f.arity = g.arity := (Signature.mk.inj hsame).2.2
      cases value with
      | none => simp only [code, hσ, hτ, hname, harity]
      | some e => simp only [code, hσ, hτ, hname, harity, e.code_congr h]
  | misuse m location => rfl

end Stmt

theorem Definition.code_congr {σ τ : Scope} {d e : Definition} (hname : d.name = e.name)
    (hlocals : d.written.locals = e.written.locals)
    (hparameters : d.written.parameters.length = e.written.parameters.length)
    (hshown : d.shownType = e.shownType)
    (hbody : d.body.code (d.scope σ) = e.body.code (e.scope τ)) :
    d.code σ = e.code τ := by
  rw [code, code, hname, hlocals, hparameters, hshown, hbody]

end StackLang
