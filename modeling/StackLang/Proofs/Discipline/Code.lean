import StackLang.Proofs.Discipline
import StackLang.Proofs.Simulation.Program

/-!
# The code of scripts is disciplined

Each draft changes the number of words on the stack by a fixed amount, so the number of words at a
position of a draft is the sum of the effects before it. An expression in which nothing is found
adds one word and a statement none, whatever stands around them, and all jumps lead to positions
with the right number of words. Hence the program of a script in which nothing is found is
disciplined, with or without a first function and whatever its parameters are.
-/

namespace StackLang.Discipline

open StackLang.Tree (Parts)

/-! ## Effects -/

/-- How many words an operation adds to those of its region. -/
def operationEffect : Operation → Int
  | .push _ | .load _ | .loadGlobal _ => 1
  | .store _ | .storeGlobal _ | .pop | .compute _ | .giveBack _ => -1
  | _ => 0

/-- How many words a drafted instruction adds, given the numbers of parameters. -/
def actionEffect (arity : String → Nat) : Draft.Action → Int
  | .fixed operation => operationEffect operation
  | .jump _ => 0
  | .jumpIfZero _ => -1
  | .call callee _ => 1 - arity callee

/-- How many words drafted code adds if it is gone through from the first to the last. -/
def effect (arity : String → Nat) : List Draft → Int
  | [] => 0
  | d :: ds => actionEffect arity d.action + effect arity ds

section Effect

variable (arity : String → Nat)

@[simp] theorem effect_nil : effect arity [] = 0 := rfl

theorem effect_singleton (d : Draft) : effect arity [d] = actionEffect arity d.action :=
  Int.add_zero _

theorem effect_append (ds es : List Draft) :
    effect arity (ds ++ es) = effect arity ds + effect arity es := by
  induction ds with
  | nil => exact (Int.zero_add _).symm
  | cons d ds ih =>
    rw [List.cons_append, effect, effect, ih]
    omega

end Effect

/-! ## Code in its place -/

variable {At : Nat → Point → Prop} {g : Nat} {entries : List (String × Nat)}
  {arity : String → Nat} {r : Region}

/-- Control can come to all positions of drafted code, the one after its end included, with the
words that the code before them adds. -/
def Covers (At : Nat → Point → Prop) (arity : String → Nat) (r : Region) (address : Nat)
    (depth : Int) (ds : List Draft) : Prop :=
  ∀ k ≤ ds.length, At (address + k) (.within r (depth + effect arity (ds.take k)))

/-- The instructions of drafted code may stand at their points. -/
def Laid (At : Nat → Point → Prop) (g : Nat) (entries : List (String × Nat))
    (arity : String → Nat) (r : Region) (address : Nat) (depth : Int) (ds : List Draft) : Prop :=
  ∀ k d, ds[k]? = some d → Obeys At g (address + k)
    (.within r (depth + effect arity (ds.take k))) (d.action.operation entries (address + k))

section Place

variable {address : Nat} {depth : Int} {d : Draft} {ds es : List Draft}

theorem Covers.first (h : Covers At arity r address depth ds) : At address (.within r depth) := by
  have hfirst := h 0 (Nat.zero_le _)
  rwa [Nat.add_zero, List.take_zero, effect_nil, Int.add_zero] at hfirst

theorem Covers.last (h : Covers At arity r address depth ds) :
    At (address + ds.length) (.within r (depth + effect arity ds)) := by
  have hlast := h ds.length (Nat.le_refl _)
  rwa [List.take_length] at hlast

theorem Covers.append (h : Covers At arity r address depth (ds ++ es)) :
    Covers At arity r address depth ds ∧
      Covers At arity r (address + ds.length) (depth + effect arity ds) es := by
  constructor
  · intro k hk
    have hpoint := h k (by rw [List.length_append]; omega)
    rwa [List.take_append_of_le_length hk] at hpoint
  · intro k hk
    have hpoint := h (ds.length + k) (by rw [List.length_append]; omega)
    rwa [List.take_length_add_append, effect_append, ← Nat.add_assoc, ← Int.add_assoc] at hpoint

theorem Laid.append (h : Laid At g entries arity r address depth ds)
    (h' : Laid At g entries arity r (address + ds.length) (depth + effect arity ds) es) :
    Laid At g entries arity r address depth (ds ++ es) := by
  intro k d hd
  by_cases hk : k < ds.length
  · rw [List.getElem?_append_left hk] at hd
    rw [List.take_append_of_le_length (Nat.le_of_lt hk)]
    exact h k d hd
  · obtain ⟨j, rfl⟩ : ∃ j, k = ds.length + j := ⟨k - ds.length, by omega⟩
    rw [List.getElem?_append_right (Nat.le_add_right _ _), Nat.add_sub_cancel_left] at hd
    rw [List.take_length_add_append, effect_append, ← Nat.add_assoc, ← Int.add_assoc]
    exact h' j d hd

theorem laid_singleton
    (h : Obeys At g address (.within r depth) (d.action.operation entries address)) :
    Laid At g entries arity r address depth [d] := by
  intro k e he
  have hk : k = 0 := by
    have hlt := (List.getElem?_eq_some_iff.mp he).1
    rw [List.length_singleton] at hlt
    omega
  subst hk
  obtain rfl : d = e := Option.some.inj he
  rw [Nat.add_zero, List.take_zero, effect_nil, Int.add_zero]
  exact h

end Place

/-! ## Balanced code -/

/-- Code that adds `n` words and may stand wherever control can come to all its positions. -/
structure Balanced (At : Nat → Point → Prop) (g : Nat) (entries : List (String × Nat))
    (arity : String → Nat) (r : Region) (n : Int) (ds : List Draft) : Prop where
  effect_eq : effect arity ds = n
  laid : ∀ address depth, 0 ≤ depth → Covers At arity r address depth ds →
    Laid At g entries arity r address depth ds

section Balanced

variable {n k : Int} {ds es : List Draft} {d : Draft}

theorem balanced_nil : Balanced At g entries arity r 0 [] :=
  ⟨rfl, fun _ _ _ _ _ _ hd => nomatch hd⟩

theorem Balanced.append (h : Balanced At g entries arity r n ds) (hn : 0 ≤ n)
    (h' : Balanced At g entries arity r k es) :
    Balanced At g entries arity r (n + k) (ds ++ es) := by
  refine ⟨by rw [effect_append, h.effect_eq, h'.effect_eq], fun address depth hdepth hcovers => ?_⟩
  obtain ⟨hds, hes⟩ := hcovers.append
  refine (h.laid address depth hdepth hds).append (h'.laid _ _ ?_ hes)
  rw [h.effect_eq]
  omega

/-- One more instruction that takes from what the code before it adds. -/
theorem Balanced.concat (h : Balanced At g entries arity r n ds)
    (heffect : n + actionEffect arity d.action = k)
    (hlast : ∀ address depth, 0 ≤ depth → At (address + 1) (.within r (depth + k)) →
      Obeys At g address (.within r (depth + n)) (d.action.operation entries address)) :
    Balanced At g entries arity r k (ds ++ [d]) := by
  have heffects : effect arity (ds ++ [d]) = k := by
    rw [effect_append, h.effect_eq, effect_singleton, heffect]
  refine ⟨heffects, fun address depth hdepth hcovers => ?_⟩
  have hnext := hcovers.last
  rw [heffects, List.length_append, List.length_singleton, ← Nat.add_assoc] at hnext
  refine (h.laid address depth hdepth hcovers.append.1).append (laid_singleton ?_)
  rw [h.effect_eq]
  exact hlast _ depth hdepth hnext

/-- A single instruction. -/
theorem balanced_singleton (heffect : actionEffect arity d.action = k)
    (hlast : ∀ address depth, 0 ≤ depth → At (address + 1) (.within r (depth + k)) →
      Obeys At g address (.within r depth) (d.action.operation entries address)) :
    Balanced At g entries arity r k [d] := by
  refine ⟨(effect_singleton arity d).trans heffect, fun address depth hdepth hcovers => ?_⟩
  have hnext := hcovers.last
  rw [effect_singleton, heffect, List.length_singleton] at hnext
  exact laid_singleton (hlast address depth hdepth hnext)

theorem point_congr {a a' : Nat} {depth depth' : Int} (h : At a (.within r depth)) (ha : a' = a)
    (hdepth : depth' = depth) : At a' (.within r depth') := by
  rw [ha, hdepth]
  exact h

/-- A jump over a distance leads to a point if the point is at that distance. -/
theorem obeys_jump {address target : Nat} {depth distance : Int}
    (hgoal : At target (.within r depth)) (hdistance : (address : Int) + distance = target) :
    Obeys At g address (.within r depth) (.jump (address + distance)) := by
  rw [hdistance]
  exact .jump hgoal

theorem obeys_jumpIfZero {address target : Nat} {depth distance : Int} (hdepth : 1 ≤ depth)
    (hgoal : At target (.within r (depth - 1))) (hdistance : (address : Int) + distance = target)
    (hnext : At (address + 1) (.within r (depth - 1))) :
    Obeys At g address (.within r depth) (.jumpIfZero (address + distance)) := by
  rw [hdistance]
  exact .jumpIfZero hdepth hgoal hnext

/-- Where balanced code stands in a program, its instructions may stand at their points. -/
theorem Balanced.exists_obeys {p : Program} {address j : Nat}
    (h : Balanced At g entries arity r n ds) (hhas : p.Has entries address ds)
    (hcovers : Covers At arity r address 0 ds) (hj : j < ds.length) :
    ∃ i, p.code[address + j]? = some i ∧
      Obeys At g (address + j) (.within r (effect arity (ds.take j))) i.operation := by
  have hd := List.getElem?_eq_getElem hj
  obtain ⟨i, hi, hoperation⟩ := hhas j _ hd
  have hobeys := h.laid address 0 le_rfl hcovers j _ hd
  rw [Int.zero_add, ← hoperation] at hobeys
  exact ⟨i, hi, hobeys⟩

/-- Both arms of a branch go on at its end with the words from before its condition. -/
theorem balanced_branchCode (chained : Bool) {condition yes no : List Draft}
    (hcondition : Balanced At g entries arity r 1 condition)
    (hyes : Balanced At g entries arity r 0 yes) (hno : Balanced At g entries arity r 0 no) :
    Balanced At g entries arity r 0 (branchCode chained condition yes no) := by
  have heffects := And.intro hcondition.effect_eq (And.intro hyes.effect_eq hno.effect_eq)
  constructor
  · simp only [branchCode, effect_append, effect_singleton, actionEffect, heffects]
    rfl
  · intro address depth hdepth hcovers
    obtain ⟨hcovers, hcoversNo⟩ := hcovers.append
    obtain ⟨hcovers, hcoversDone⟩ := hcovers.append
    obtain ⟨hcovers, hcoversYes⟩ := hcovers.append
    obtain ⟨hcoversCondition, hcoversJump⟩ := hcovers.append
    have htrue := hcoversYes.first
    have hfalse := hcoversNo.first
    have hend := hcoversNo.last
    simp only [List.length_append, List.length_singleton, effect_append, effect_singleton,
      actionEffect, heffects] at htrue hfalse hend
    refine Laid.append (Laid.append (Laid.append (Laid.append
      (hcondition.laid _ _ hdepth hcoversCondition) (laid_singleton ?_))
      (hyes.laid _ _ ?_ hcoversYes)) (laid_singleton ?_)) (hno.laid _ _ ?_ hcoversNo)
    · rw [hcondition.effect_eq]
      exact obeys_jumpIfZero (by omega) (point_congr hfalse rfl (by omega)) (by omega)
        (point_congr htrue (by omega) (by omega))
    · simp only [effect_append, effect_singleton, actionEffect, heffects]
      omega
    · refine obeys_jump (point_congr hend rfl ?_) ?_
      · simp only [effect_append, effect_singleton, actionEffect, heffects]
        omega
      · simp only [List.length_append, List.length_singleton]
        omega
    · simp only [effect_append, effect_singleton, actionEffect, heffects]
      omega

/-- A loop goes back to its condition with the words from before. -/
theorem balanced_loopCode {condition body : List Draft}
    (hcondition : Balanced At g entries arity r 1 condition)
    (hbody : Balanced At g entries arity r 0 body) :
    Balanced At g entries arity r 0 (loopCode condition body) := by
  have heffects := And.intro hcondition.effect_eq hbody.effect_eq
  constructor
  · simp only [loopCode, effect_append, effect_singleton, actionEffect, heffects]
    rfl
  · intro address depth hdepth hcovers
    have hend := hcovers.last
    have hstart := hcovers.first
    obtain ⟨hcovers, hcoversBack⟩ := hcovers.append
    obtain ⟨hcovers, hcoversBody⟩ := hcovers.append
    obtain ⟨hcoversCondition, hcoversJump⟩ := hcovers.append
    have htrue := hcoversBody.first
    simp only [loopCode, List.length_append, List.length_singleton, effect_append,
      effect_singleton, actionEffect, heffects] at hend htrue
    refine Laid.append (Laid.append (Laid.append (hcondition.laid _ _ hdepth hcoversCondition)
      (laid_singleton ?_)) (hbody.laid _ _ ?_ hcoversBody)) (laid_singleton ?_)
    · rw [hcondition.effect_eq]
      exact obeys_jumpIfZero (by omega) (point_congr hend rfl (by omega)) (by omega)
        (point_congr htrue (by omega) (by omega))
    · simp only [effect_append, effect_singleton, actionEffect, heffects]
      omega
    · refine obeys_jump (point_congr hstart rfl ?_) ?_
      · simp only [effect_append, effect_singleton, actionEffect, heffects]
        omega
      · simp only [List.length_append, List.length_singleton]
        omega

end Balanced

/-! ## Scopes -/

/-- The places that a region has. -/
def HasPlace (g : Nat) (r : Region) : Place → Prop
  | .global slot => slot < g
  | .frame offset => r.HasOffset offset

/-- There is room for the variables of a scope. -/
structure Room (g : Nat) (r : Region) (σ : Scope) : Prop where
  globals : σ.globals.length ≤ g
  frame : ∀ parameters locals, r = .inside parameters locals → σ.frameSize ≤ locals

/-- What a scope knows is there: the functions at their entrances, the variables at their places. -/
structure Setting (At : Nat → Point → Prop) (g : Nat) (entries : List (String × Nat))
    (arity : String → Nat) (r : Region) (σ : Scope) : Prop where
  calls : ∀ name f, σ.signature? (some name) = some f → arity name = f.arity ∧
    ∃ entry locals, entries.lookup name = some entry ∧ At entry (.entrance f.arity locals)
  globals : σ.globals.length ≤ g
  locals : ∀ name offset, σ.locals.lookup name = some offset → r.HasOffset offset
  inside : ∀ f, σ.inside = some f → ∃ locals, r = .inside f.arity locals

section Setting

variable {σ : Scope}

theorem Room.of_grows {τ : Scope} (h : Room g r τ) (hgrows : Simulation.Grows σ τ) :
    Room g r σ :=
  ⟨hgrows.globals.length_le.trans h.globals,
    fun parameters locals hr => hgrows.frameSize.trans (h.frame parameters locals hr)⟩

theorem Setting.hasPlace (h : Setting At g entries arity r σ) {name : Option String}
    {place : Place} (hplace : σ.resolve? name = some place) : HasPlace g r place := by
  unfold Scope.resolve? at hplace
  split at hplace
  · rename_i offset hlookup
    obtain rfl := Option.some.inj hplace
    exact h.locals name offset hlookup
  · obtain ⟨n, -, hindex⟩ := Option.bind_eq_some_iff.mp hplace
    obtain ⟨slot, hslot, rfl⟩ := Option.map_eq_some_iff.mp hindex
    have hlt := (List.findIdx?_eq_some_iff_getElem.mp hslot).1
    exact Nat.lt_of_lt_of_le hlt h.globals

/-- A declared variable has a place if there is room for it. -/
theorem Setting.hasPlace_placeOf (h : Setting At g entries arity r σ) {name : String}
    (hroom : Room g r (σ.declare name)) : HasPlace g r (σ.placeOf name) := by
  unfold Scope.placeOf
  cases hinside : σ.inside with
  | some f =>
    obtain ⟨locals, rfl⟩ := h.inside f hinside
    have hframe := hroom.frame _ _ rfl
    rw [Scope.declare_of_inside hinside] at hframe
    exact .inr ⟨Int.natCast_nonneg _, Int.ofNat_lt.mpr hframe⟩
  | none =>
    cases hindex : σ.globals.idxOf? name with
    | some slot =>
      have hlt := (List.findIdx?_eq_some_iff_getElem.mp hindex).1
      exact Nat.lt_of_lt_of_le hlt h.globals
    | none =>
      have hmem : name ∉ σ.globals := List.idxOf?_eq_none_iff.mp hindex
      have hglobals := hroom.globals
      simp only [Scope.declare, hinside, List.contains_eq_mem, hmem, decide_false,
        Bool.false_eq_true, if_false, List.length_append, List.length_singleton] at hglobals
      exact hglobals

theorem inside_declare (σ : Scope) (name : String) : (σ.declare name).inside = σ.inside := by
  unfold Scope.declare
  split
  · rfl
  · split <;> rfl

theorem Setting.declare (h : Setting At g entries arity r σ) {name : String}
    (hroom : Room g r (σ.declare name)) : Setting At g entries arity r (σ.declare name) := by
  have hplace := h.hasPlace_placeOf hroom
  refine ⟨fun callee f hf => h.calls callee f ?_, hroom.globals, ?_, ?_⟩
  · rw [Scope.signature?, (Simulation.grows_declare σ name).signatures] at hf
    exact hf
  · cases hinside : σ.inside with
    | some f =>
      rw [Scope.placeOf, hinside] at hplace
      rw [Scope.declare_of_inside hinside]
      intro other offset hlookup
      rw [List.lookup_cons] at hlookup
      split at hlookup
      · exact Option.some.inj hlookup ▸ hplace
      · exact h.locals other offset hlookup
    | none =>
      simp only [Scope.declare, hinside]
      split <;> exact h.locals
  · intro f hf
    rw [inside_declare] at hf
    exact h.inside f hf

theorem Setting.scopeAfter {s : Stmt} (h : Setting At g entries arity r σ)
    (hroom : Room g r (s.scopeAfter σ)) : Setting At g entries arity r (s.scopeAfter σ) := by
  induction s generalizing σ with
  | seq first second ih₁ ih₂ =>
    exact ih₂ (ih₁ h (hroom.of_grows (Simulation.grows_scopeAfter _ second))) hroom
  | declare name value => exact h.declare hroom
  | branch chained condition yes no ih₁ ih₂ =>
    exact ih₂ (ih₁ h (hroom.of_grows (Simulation.grows_scopeAfter _ no))) hroom
  | loop condition body ih => exact ih h hroom
  | _ => exact h

end Setting

/-! ## Expressions and statements -/

theorem balanced_load {place : Place} (hplace : HasPlace g r place) (comment : String) :
    Balanced At g entries arity r 1 [.load place comment] := by
  cases place with
  | global slot => exact balanced_singleton rfl fun _ _ _ hnext => .loadGlobal hplace hnext
  | frame offset => exact balanced_singleton rfl fun _ _ _ hnext => .load hplace hnext

theorem balanced_push (v : Int) (comment : String) :
    Balanced At g entries arity r 1 [.of (.push v) comment] :=
  balanced_singleton rfl fun _ _ _ hnext => .push v hnext

theorem Balanced.store {place : Place} {ds : List Draft}
    (h : Balanced At g entries arity r 1 ds) (hplace : HasPlace g r place) (comment : String) :
    Balanced At g entries arity r 0 (ds ++ [.store place comment]) := by
  cases place with
  | global slot =>
    refine h.concat rfl fun address depth hdepth hnext => .storeGlobal hplace (by omega) ?_
    exact point_congr hnext rfl (by omega)
  | frame offset =>
    refine h.concat rfl fun address depth hdepth hnext => .store hplace (by omega) ?_
    exact point_congr hnext rfl (by omega)

section Script

variable {σ : Scope}

/-- A call takes its arguments and leaves the value. -/
theorem Setting.balanced_callDraft (h : Setting At g entries arity r σ) {callee : Option String}
    {f : Signature} {ds : List Draft} (hf : σ.signature? callee = some f)
    (hds : Balanced At g entries arity r f.arity ds) :
    Balanced At g entries arity r 1 (ds ++ [σ.callDraft callee]) := by
  cases callee with
  | none =>
    have hnone := List.find?_some hf
    simp at hnone
  | some name =>
    obtain ⟨harity, entry, locals, hentry, hpoint⟩ := h.calls name f hf
    have hdraft : (σ.callDraft (some name)).action = .call name 0 := by
      simp only [Scope.callDraft, hf]
    refine hds.concat ?_ fun address depth hdepth hnext => ?_
    · rw [hdraft, actionEffect, harity]
      omega
    · rw [hdraft, Draft.Action.operation, hentry]
      exact .call hpoint (by omega) (point_congr hnext rfl (by omega))

mutual

/-- An expression in which nothing is found adds one word. -/
theorem Setting.balanced_code (h : Setting At g entries arity r σ) (e : Expr)
    (he : e.findings σ = []) : Balanced At g entries arity r 1 (e.code σ) := by
  cases e with
  | number digits => exact balanced_push _ _
  | «variable» name location =>
    rw [Expr.findings, Scope.variableFindings_eq_nil, Option.isSome_iff_exists] at he
    obtain ⟨place, hplace⟩ := he
    rw [Expr.code, hplace]
    exact balanced_load (h.hasPlace hplace) _
  | binary op left right =>
    rw [Expr.findings, List.append_eq_nil_iff] at he
    have hboth := (h.balanced_code left he.1).append (by decide) (h.balanced_code right he.2)
    refine hboth.concat rfl fun address depth hdepth hnext => .compute op (by omega) ?_
    exact point_congr hnext rfl (by omega)
  | unknown operator left right location => simp [Expr.findings] at he
  | negate operand =>
    rw [Expr.findings] at he
    refine (h.balanced_code operand he).concat rfl fun address depth hdepth hnext => ?_
    exact .negate (by omega) hnext
  | call callee arguments location =>
    rw [Expr.findings] at he
    rw [Expr.code]
    split at he
    · rename_i hprints
      rw [List.append_eq_nil_iff] at he
      have hone : arguments.length = 1 := by
        by_contra hne
        simp [hne] at he
      have hall := h.balanced_codeAll arguments he.2
      rw [hone] at hall
      rw [if_pos hprints, if_pos hone]
      exact hall.concat rfl fun address depth hdepth hnext => .print (by omega) hnext
    · rename_i hprints
      rw [List.append_eq_nil_iff, Scope.callFindings_eq_nil] at he
      obtain ⟨hfound, f, hf, hcount⟩ := he
      have hall := h.balanced_codeAll arguments hfound
      rw [hcount] at hall
      rw [if_neg hprints]
      exact h.balanced_callDraft hf hall
  | hole m location => simp [Expr.findings] at he

/-- Several expressions add one word each. -/
theorem Setting.balanced_codeAll (h : Setting At g entries arity r σ) (es : List Expr)
    (hes : Expr.findingsAll σ es = []) :
    Balanced At g entries arity r es.length (Expr.codeAll σ es) := by
  cases es with
  | nil => exact balanced_nil
  | cons e es =>
    rw [Expr.findingsAll, List.append_eq_nil_iff] at hes
    have hall := (h.balanced_code e hes.1).append (by decide) (h.balanced_codeAll es hes.2)
    rw [Int.add_comm] at hall
    exact hall

end

/-- A value that may be absent, with a zero in its place. -/
theorem Setting.balanced_value (h : Setting At g entries arity r σ) (value : Option Expr)
    (comment : String) : Expr.findings? σ value = [] → Balanced At g entries arity r 1
      (match value with
        | some e => e.code σ
        | none => [.of (.push 0) comment]) := by
  intro hvalue
  cases value with
  | none => exact balanced_push _ _
  | some e => exact h.balanced_code e hvalue

/-- A statement in which nothing is found adds no word. -/
theorem Setting.balanced_statement {s : Stmt} (h : Setting At g entries arity r σ)
    (hroom : Room g r (s.scopeAfter σ)) (hs : s.findings σ = []) :
    Balanced At g entries arity r 0 (s.code σ) := by
  induction s generalizing σ with
  | skip => exact balanced_nil
  | seq first second ih₁ ih₂ =>
    rw [Stmt.findings, List.append_eq_nil_iff] at hs
    have hroom₁ : Room g r (first.scopeAfter σ) :=
      hroom.of_grows (Simulation.grows_scopeAfter _ second)
    exact (ih₁ h hroom₁ hs.1).append (Int.le_refl 0) (ih₂ (h.scopeAfter hroom₁) hroom hs.2)
  | declare name value =>
    exact ((h.declare hroom).balanced_value value _ hs).store (h.hasPlace_placeOf hroom) _
  | assign name value location =>
    rw [Stmt.findings, List.append_eq_nil_iff, Scope.variableFindings_eq_nil,
      Option.isSome_iff_exists] at hs
    obtain ⟨hvalue, place, hplace⟩ := hs
    simp only [Stmt.code, hplace]
    exact (h.balanced_code value hvalue).store (h.hasPlace hplace) _
  | discard value =>
    refine (h.balanced_code value hs).concat rfl fun address depth hdepth hnext => ?_
    exact .pop (by omega) (point_congr hnext rfl (by omega))
  | branch chained condition yes no ih₁ ih₂ =>
    rw [Stmt.findings, List.append_eq_nil_iff, List.append_eq_nil_iff] at hs
    have hroom₁ : Room g r (yes.scopeAfter σ) :=
      hroom.of_grows (Simulation.grows_scopeAfter _ no)
    exact balanced_branchCode chained (h.balanced_code condition hs.1.1) (ih₁ h hroom₁ hs.1.2)
      (ih₂ (h.scopeAfter hroom₁) hroom hs.2)
  | loop condition body ih =>
    rw [Stmt.findings, List.append_eq_nil_iff] at hs
    exact balanced_loopCode (h.balanced_code condition hs.1) (ih h hroom hs.2)
  | giveBack value location =>
    rw [Stmt.findings] at hs
    cases hinside : σ.inside with
    | none => simp [hinside] at hs
    | some f =>
      simp only [hinside] at hs
      obtain ⟨locals, rfl⟩ := h.inside f hinside
      simp only [Stmt.code, hinside]
      refine (h.balanced_value value _ hs).concat rfl fun address depth hdepth hnext => ?_
      exact .giveBack (by omega)
  | misuse m location => cases hs

end Script

/-! ## Programs -/

/-- The number of parameters of a function of a script. -/
def arityOf (s : Script) (name : String) : Nat :=
  ((s.startScope.signature? (some name)).map Signature.arity).getD 0

/-- The code of the body of a function up to its last instruction. -/
def bodyCode (s : Script) (f : Parts) : List Draft :=
  (Stmt.ofTrees f.body).code (f.definition.scope s.functionScope) ++
    [.of (.push 0) "default return value"]

/-- The region of a function. -/
def regionOf (f : Parts) : Region := .inside f.parameters.length f.written.locals

/-- The points of the program of a script. -/
inductive PointOf (fs : List Parts) (s : Script) : Nat → Point → Prop
  | outside {k : Nat} (hk : k ≤ (s.entry.code s.startScope).length) :
    PointOf fs s k
      (.within .outside (effect (arityOf s) ((s.entry.code s.startScope).take k)))
  | exit : PointOf fs s (Simulation.haltAddress s) .exit
  | entrance {f : Parts} {address : Nat} (hf : f ∈ fs)
      (haddress : s.entries.lookup f.name = some address) :
    PointOf fs s address (.entrance f.parameters.length f.written.locals)
  | inside {f : Parts} {address k : Nat} (hf : f ∈ fs)
      (haddress : s.entries.lookup f.name = some address) (hk : k ≤ (bodyCode s f).length) :
    PointOf fs s (address + 1 + k)
      (.within (regionOf f) (effect (arityOf s) ((bodyCode s f).take k)))

section Program

open Simulation (Clean)

variable {tree : Tree} {statements : List Tree} {fs : List Parts} {s : Script} {σ : Scope}

theorem scopeAfter_of_inside {f : Signature} (h : σ.inside = some f) (s : Stmt) :
    (s.scopeAfter σ).globals = σ.globals ∧ (s.scopeAfter σ).inside = some f := by
  induction s generalizing σ with
  | seq first second ih₁ ih₂ =>
    obtain ⟨hglobals, hinside⟩ := ih₁ h
    obtain ⟨hglobals', hinside'⟩ := ih₂ hinside
    exact ⟨hglobals'.trans hglobals, hinside'⟩
  | declare name value =>
    rw [Stmt.scopeAfter, Scope.declare_of_inside h]
    exact ⟨rfl, h⟩
  | branch chained condition yes no ih₁ ih₂ =>
    obtain ⟨hglobals, hinside⟩ := ih₁ h
    obtain ⟨hglobals', hinside'⟩ := ih₂ hinside
    exact ⟨hglobals'.trans hglobals, hinside'⟩
  | loop condition body ih => exact ih h
  | _ => exact ⟨rfl, h⟩

/-- The parameters stand below the two words that a call saves. -/
theorem hasOffset_of_lookup_enter {f : Signature} {ps : List Parameter} {name : Option String}
    {offset : Int} (h : (σ.enter f ps).locals.lookup name = some offset) (locals : Nat) :
    (Region.inside ps.length locals).HasOffset offset := by
  rw [Scope.lookup_enter] at h
  obtain ⟨i, hi, rfl⟩ := Option.map_eq_some_iff.mp h
  obtain ⟨p, hp, rfl⟩ := Option.map_eq_some_iff.mp hi
  have hlt := List.snd_lt_of_mem_zipIdx (List.mem_of_find?_eq_some hp)
  refine .inl ⟨?_, ?_⟩ <;> omega

theorem length_written (f : Parts) : f.written.parameters.length = f.parameters.length := by
  rw [Parts.length_parameters]
  exact List.length_map _

/-- What calls mean is a function at its entrance. -/
theorem calls_pointOf (h : Clean tree statements fs s) (hσ : σ.signatures = s.signatures)
    {name : String} {f : Signature} (hf : σ.signature? (some name) = some f) :
    arityOf s name = f.arity ∧ ∃ entry locals, s.entries.lookup name = some entry ∧
      PointOf fs s entry (.entrance f.arity locals) := by
  rw [Scope.signature?, hσ] at hf
  have harity : arityOf s name = ((s.signatures.find? fun f => some f.name = some name).map
      Signature.arity).getD 0 := rfl
  refine ⟨by rw [harity, hf]; rfl, ?_⟩
  rw [h.find?_signatures h.nodup_names] at hf
  obtain ⟨g, hg, rfl⟩ := Option.map_eq_some_iff.mp hf
  have hmem := List.mem_of_find?_eq_some hg
  have hname : g.name = name := by simpa using List.find?_some hg
  obtain ⟨entry, hlookup, -⟩ := h.exists_entry false hmem
  have hpoint := PointOf.entrance hmem hlookup
  rw [Parts.length_parameters] at hpoint
  rw [hname] at hlookup
  exact ⟨entry, g.written.locals, hlookup, hpoint⟩

theorem setting_entry (h : Clean tree statements fs s) :
    Setting (PointOf fs s) s.functionScope.globals.length s.entries (arityOf s) .outside
      s.startScope where
  calls _ _ hf := calls_pointOf h rfl hf
  globals := (Simulation.grows_scopeAfter s.startScope s.entry).globals.length_le
  locals _ _ hlookup := nomatch hlookup
  inside _ hf := nomatch hf

theorem setting_body (h : Clean tree statements fs s) (f : Parts) :
    Setting (PointOf fs s) s.functionScope.globals.length s.entries (arityOf s) (regionOf f)
      (f.definition.scope s.functionScope) where
  calls _ _ hf := calls_pointOf h (Simulation.grows_scopeAfter s.startScope s.entry).signatures hf
  globals := le_rfl
  locals name offset hlookup := by
    rw [regionOf, ← length_written]
    exact hasOffset_of_lookup_enter hlookup _
  inside g hg := by
    obtain rfl := Option.some.inj hg
    exact ⟨f.written.locals, by rw [regionOf, Parts.length_parameters]; rfl⟩

theorem room_entry (s : Script) :
    Room s.functionScope.globals.length .outside (s.entry.scopeAfter s.startScope) :=
  ⟨le_rfl, fun _ _ hr => nomatch hr⟩

theorem balanced_entry (h : Clean tree statements fs s) :
    Balanced (PointOf fs s) s.functionScope.globals.length s.entries (arityOf s) .outside 0
      (s.entry.code s.startScope) :=
  (setting_entry h).balanced_statement (room_entry s)
    ((Script.findings_eq_nil h.functions).mp h.findings).2.2.2.1

theorem room_body (h : Clean tree statements fs s) {f : Parts} (hf : f ∈ fs) :
    Room s.functionScope.globals.length (regionOf f)
      ((Stmt.ofTrees f.body).scopeAfter (f.definition.scope s.functionScope)) := by
  have hinside : (f.definition.scope s.functionScope).inside = some f.signature := rfl
  refine ⟨le_of_eq (congrArg _ (scopeAfter_of_inside hinside _).1), fun _ _ hr => ?_⟩
  cases hr
  exact h.frameSize_le hf

theorem balanced_bodyCode (h : Clean tree statements fs s) {f : Parts} (hf : f ∈ fs) :
    Balanced (PointOf fs s) s.functionScope.globals.length s.entries (arityOf s) (regionOf f) 1
      (bodyCode s f) := by
  have hbody := (setting_body h f).balanced_statement (room_body h hf) (h.checked_body hf)
  exact hbody.append le_rfl (balanced_push 0 _)

/-- What has an entry is a function. -/
theorem exists_of_lookup (h : Clean tree statements fs s) {name : String} {entry : Nat}
    (hlookup : s.entries.lookup name = some entry) : ∃ f ∈ fs, f.name = name := by
  have hmem : (name, entry) ∈ s.entries := by
    obtain ⟨before, after, hsplit, -⟩ := List.lookup_eq_some_iff.mp hlookup
    rw [hsplit]
    simp
  have hname := (Script.mem_entriesFrom hmem).1
  rw [Script.definitions_eq h.functions h.nodup_names, List.map_map] at hname
  exact List.mem_map.mp hname

/-- The first call is that of the first function, if there is one. -/
theorem obeys_firstCall (h : Clean tree statements fs s) {address : Nat}
    (hnext : PointOf fs s (address + 1) .exit) {g : Nat} :
    Obeys (PointOf fs s) g address (.within .outside 0)
      (.call (((s.entries.lookup entryName).map Int.ofNat).getD (-1))) := by
  cases hlookup : s.entries.lookup entryName with
  | none => exact .missing (by decide)
  | some entry =>
    obtain ⟨f, hf, hname⟩ := exists_of_lookup h hlookup
    rw [← hname] at hlookup
    exact .begin (.entrance hf hlookup) hnext

/-- A function stands at its entry: room for its variables, its body, and the return at its end. -/
theorem has_function (h : Clean tree statements fs s) (comments : Bool) {f : Parts} (hf : f ∈ fs)
    {address : Nat} (haddress : s.entries.lookup f.name = some address) :
    (∃ i, (s.program comments).code[address]? = some i ∧
      i.operation = .enter f.written.locals) ∧
    (s.program comments).Has s.entries (address + 1) (bodyCode s f) ∧
    ∃ i, (s.program comments).code[address + 1 + (bodyCode s f).length]? = some i ∧
      i.operation = .giveBack f.parameters.length := by
  obtain ⟨address', hlookup, -, hhas⟩ := h.exists_entry comments hf
  obtain rfl : address = address' := Option.some.inj (haddress.symm.trans hlookup)
  have hcode : f.definition.code s.functionScope =
      { action := .fixed (.enter f.written.locals), label := some f.name,
        comment := some ("fn " ++ f.name ++ " -> " ++ f.definition.shownType ++ ", " ++
          Text.decimal f.written.locals ++ " locals") } :: (bodyCode s f ++
        [.of (.giveBack f.parameters.length) ("exit " ++ f.name)]) := by
    rw [← length_written, bodyCode, List.append_assoc]
    rfl
  rw [hcode] at hhas
  obtain ⟨henter, hrest⟩ := Program.has_cons.mp hhas
  obtain ⟨hbody, hreturn⟩ := Program.has_append.mp hrest
  exact ⟨henter 0 _ rfl, hbody, hreturn 0 _ rfl⟩

/-- Control can come to all positions of the code outside functions. -/
theorem covers_entry (fs : List Parts) (s : Script) :
    Covers (PointOf fs s) (arityOf s) .outside 0 0 (s.entry.code s.startScope) := by
  intro k hk
  rw [Nat.zero_add, Int.zero_add]
  exact .outside hk

/-- Control can come to all positions of the body of a function. -/
theorem covers_bodyCode {f : Parts} {entry : Nat} (hf : f ∈ fs)
    (hentry : s.entries.lookup f.name = some entry) :
    Covers (PointOf fs s) (arityOf s) (regionOf f) (entry + 1) 0 (bodyCode s f) := by
  intro k hk
  rw [Int.zero_add]
  exact .inside hf hentry hk

/-- The program of a script in which nothing is found is disciplined. -/
theorem disciplined_program (h : Clean tree statements fs s) (comments : Bool) :
    Disciplined (s.program comments) s.functionScope.globals.length (PointOf fs s) := by
  have hcode := s.program_has comments
  rw [Script.code, Script.entryCode, Program.has_append, Program.has_append, Nat.zero_add] at hcode
  obtain ⟨⟨hentry, hlast⟩, -⟩ := hcode
  obtain ⟨hcall, hhalt⟩ := Program.has_cons.mp hlast
  have hcovers := covers_entry fs s
  have hbalanced := balanced_entry h
  refine ⟨rfl, hcovers.first, fun address point hpoint => ?_⟩
  cases hpoint with
  | outside hk =>
    rcases Nat.lt_or_eq_of_le hk with hlt | rfl
    · have hobeys := hbalanced.exists_obeys hentry hcovers hlt
      rwa [Nat.zero_add] at hobeys
    · obtain ⟨i, hi, hoperation⟩ := hcall 0 _ rfl
      refine ⟨i, hi, ?_⟩
      rw [hoperation, List.take_length, hbalanced.effect_eq]
      exact obeys_firstCall h .exit
  | exit =>
    obtain ⟨i, hi, hoperation⟩ := hhalt 0 _ rfl
    refine ⟨i, hi, ?_⟩
    rw [hoperation]
    exact .halt
  | @entrance f _ hf haddress =>
    obtain ⟨⟨i, hi, hoperation⟩, -⟩ := has_function h comments hf haddress
    refine ⟨i, hi, ?_⟩
    rw [hoperation]
    exact .enter (.inside hf haddress (Nat.zero_le _))
  | @inside f entry k hf haddress hk =>
    obtain ⟨-, hbody, i, hi, hoperation⟩ := has_function h comments hf haddress
    have hcoversBody := covers_bodyCode hf haddress
    have hbalancedBody := balanced_bodyCode h hf
    rcases Nat.lt_or_eq_of_le hk with hlt | rfl
    · exact hbalancedBody.exists_obeys hbody hcoversBody hlt
    · refine ⟨i, hi, ?_⟩
      rw [hoperation, List.take_length, hbalancedBody.effect_eq]
      exact .giveBack le_rfl

end Program

end StackLang.Discipline
