import Mathlib.Data.List.Nodup
import StackLang.Proofs.Activation
import StackLang.Proofs.Checked

/-!
# Where variables stand

A site is what stays fixed while a function body, or the code outside functions, is carried out.
With a store it makes up a configuration. At a point where the scope of the compiler agrees with the
context of the text, the place that a name resolves to holds the variable that the name denotes.
-/

namespace StackLang.Simulation

open Meaning (Variable Context Store latest?)

/-- The code outside functions, or a function that was called: by whom, where it returns to, its
parameters and how many variables it reserves. -/
inductive Site where
  | outside
  | inside (caller : Activation) (returnTo : Nat) (parameters : List String) (size : Nat)

namespace Site

/-- The activation that a store makes up. -/
def activation (site : Site) (s : Store) (temps : List Int) : Activation :=
  match site with
  | outside => .entry temps
  | inside caller returnTo parameters size =>
    .call caller (parameters.map fun name => s.value (.parameter name)) returnTo
      ((List.range size).map fun i => s.value (.occurrence i)) temps

/-- The configuration that a store makes up, where the global variables have these slots. -/
def config (globals : List String) (site : Site) (pc : Nat) (s : Store) (temps : List Int) :
    Config where
  pc := pc
  globals := globals.map fun name => s.value (.global name)
  activation := site.activation s temps
  output := s.output

@[simp] theorem temps_activation (site : Site) (s : Store) (temps : List Int) :
    (site.activation s temps).temps = temps := by
  cases site <;> rfl

@[simp] theorem withTemps_activation (site : Site) (s : Store) (temps ts : List Int) :
    (site.activation s temps).withTemps ts = site.activation s ts := by
  cases site <;> rfl

@[simp] theorem advance_config (globals : List String) (site : Site) (pc : Nat) (s : Store)
    (temps ts : List Int) :
    (site.config globals pc s temps).advance ts = site.config globals (pc + 1) s ts := by
  simp [config, Config.advance]

/-- Whether there is room for the variables of a scope. -/
def Room (globals : List String) (site : Site) (σ : Scope) : Prop :=
  match site with
  | outside => σ.globals <+: globals
  | inside _ _ _ size => σ.frameSize ≤ size

end Site

/-- The offset of what a name denotes in the frame of a function. -/
def offset? (parameters declared : List String) (name : String) : Option Int :=
  match latest? name declared with
  | some i => some i
  | none =>
    if name ∈ parameters then some (-((parameters.length : Int) - parameters.idxOf name + 2))
    else none

/-- The scope of the compiler knows the names that can be meant at a point of the text. -/
inductive Agrees (globals : List String) : Site → Context → Scope → Prop
  | outside {σ : Scope} (hglobals : σ.globals <+: globals) (hinside : σ.inside = none)
      (hlocals : σ.locals = []) : Agrees globals .outside .outside σ
  | inside {σ : Scope} {caller : Activation} {returnTo size : Nat}
      {parameters declared : List String} {f : Signature} (hglobals : σ.globals <+: globals)
      (hinside : σ.inside = some f) (harity : f.arity = parameters.length)
      (hnodup : parameters.Nodup) (hframe : σ.frameSize = declared.length)
      (hsize : declared.length ≤ size)
      (hlookup : ∀ name, σ.locals.lookup (some name) = offset? parameters declared name) :
      Agrees globals (.inside caller returnTo parameters size) (.inside parameters declared) σ

variable {globals : List String} {site : Site} {Γ : Context} {σ : Scope} {name : String}

/-- The number of a declaration is below their count. -/
theorem lt_of_latest? {declared : List String} {i : Nat} (h : latest? name declared = some i) :
    i < declared.length := by
  induction declared with
  | nil => cases h
  | cons d ds ih =>
    rw [latest?] at h
    split at h
    · obtain rfl := Option.some.inj h
      exact Nat.lt_succ_self _
    · exact Nat.lt_succ_of_lt (ih h)

/-- A slot that the scope knows is the slot of the name. -/
theorem getElem?_of_idxOf? {slot : Nat} (hstart : σ.globals <+: globals)
    (h : σ.globals.idxOf? name = some slot) : globals[slot]? = some name := by
  obtain ⟨hlt, hname, -⟩ := List.idxOf?_eq_some_iff.mp h
  rw [List.prefix_iff_getElem?.mp hstart slot hlt, hname]

/-- A place holds a variable. -/
inductive Keeping (globals : List String) : Site → Place → Variable → Prop
  | global {site : Site} {slot : Nat} {name : String} (h : globals[slot]? = some name) :
      Keeping globals site (.global slot) (.global name)
  | parameter {caller : Activation} {returnTo size i : Nat} {parameters : List String}
      {name : String} (hnodup : parameters.Nodup) (h : parameters[i]? = some name) :
      Keeping globals (.inside caller returnTo parameters size)
        (.frame (-((parameters.length : Int) - i + 2))) (.parameter name)
  | occurrence {caller : Activation} {returnTo size i : Nat} {parameters : List String}
      (h : i < size) :
      Keeping globals (.inside caller returnTo parameters size) (.frame i) (.occurrence i)

/-- A name that resolves to a place denotes the variable that the place holds. -/
theorem Agrees.keeping (h : Agrees globals site Γ σ) {place : Place}
    (hplace : σ.resolve? (some name) = some place) :
    Keeping globals site place (Γ.denoted name) := by
  have hglobal {slot : Nat} (hstart : σ.globals <+: globals)
      (hslot : σ.globals.idxOf? name = some slot) :
      Keeping globals site (.global slot) (.global name) :=
    .global (getElem?_of_idxOf? hstart hslot)
  cases h with
  | outside hglobals hinside hlocals =>
    rw [Scope.resolve?, hlocals] at hplace
    obtain ⟨slot, hslot, rfl⟩ := Option.map_eq_some_iff.mp hplace
    exact hglobal hglobals hslot
  | @inside _ caller returnTo size parameters declared f hglobals _ _ hnodup _ hsize hlookup =>
    rw [Scope.resolve?, hlookup] at hplace
    unfold offset? at hplace
    cases hlatest : latest? name declared with
    | some i =>
      obtain rfl : Place.frame i = place := by simpa [hlatest] using hplace
      have hdenoted : (Context.inside parameters declared).denoted name = .occurrence i := by
        rw [Context.denoted, hlatest]
      rw [hdenoted]
      exact .occurrence (Nat.lt_of_lt_of_le (lt_of_latest? hlatest) hsize)
    | none =>
      by_cases hmem : name ∈ parameters
      · have hdenoted : (Context.inside parameters declared).denoted name = .parameter name := by
          simp [Context.denoted, hlatest, hmem]
        obtain rfl : Place.frame (-((parameters.length : Int) - parameters.idxOf name + 2)) =
            place := by
          simpa [hlatest, hmem] using hplace
        have hlt : parameters.idxOf name < parameters.length := List.idxOf_lt_length_iff.mpr hmem
        rw [hdenoted]
        refine .parameter hnodup ?_
        rw [List.getElem?_eq_getElem hlt, List.getElem_idxOf hlt]
      · have hdenoted : (Context.inside parameters declared).denoted name = .global name := by
          simp [Context.denoted, hlatest, hmem]
        simp only [hlatest, if_neg hmem, Option.bind_some] at hplace
        obtain ⟨slot, hslot, rfl⟩ := Option.map_eq_some_iff.mp hplace
        rw [hdenoted]
        exact hglobal hglobals hslot

/-! ## Loads and stores -/

/-- Writing one element of a list of values changes the value of one index. -/
theorem map_set_of_nodup {α : Type} [DecidableEq α] {xs : List α} (hnodup : xs.Nodup) {k : Nat}
    {x : α} (hk : xs[k]? = some x) (f : α → Int) (v : Int) :
    (xs.map f).set k v = xs.map fun y => if y = x then v else f y := by
  obtain ⟨hlt, rfl⟩ := List.getElem?_eq_some_iff.mp hk
  apply List.ext_getElem (by simp)
  intro j hj hj'
  simp only [List.length_set, List.length_map] at hj
  simp only [List.getElem_set, List.getElem_map]
  by_cases hkj : k = j
  · subst hkj
    simp
  · have hne : xs[j] ≠ xs[k] := fun heq => hkj (hnodup.getElem_inj_iff.mp heq).symm
    rw [if_neg hkj, if_neg hne]

variable {place : Place} {x : Variable} {arity : Int → Nat} {size pc : Nat} {s : Store}
  {temps : List Int} {v : Int}

/-- The operation that loads from a place. -/
def loadOf : Place → Operation
  | .global slot => .loadGlobal slot
  | .frame offset => .load offset

/-- The operation that stores to a place. -/
def storeOf : Place → Operation
  | .global slot => .storeGlobal slot
  | .frame offset => .store offset

/-- A cell of the frame holds a variable. -/
structure HoldsCell (site : Site) (offset : Int) (cell : Activation.Cell) (x : Variable) :
    Prop where
  cell? (s : Store) (temps : List Int) : (site.activation s temps).cell? offset = some cell
  read (s : Store) (temps : List Int) : (site.activation s temps).read cell = s.value x
  write (s : Store) (temps : List Int) (v : Int) :
    (site.activation s temps).write cell v = site.activation (s.set x v) temps

theorem holdsCell_parameter {caller : Activation} {returnTo size i : Nat}
    {parameters : List String} (hnodup : parameters.Nodup) (h : parameters[i]? = some name) :
    HoldsCell (.inside caller returnTo parameters size)
      (-((parameters.length : Int) - i + 2)) (.argument i) (.parameter name) := by
  have hlt : i < parameters.length := (List.getElem?_eq_some_iff.mp h).1
  refine ⟨fun s temps => ?_, fun s temps => ?_, fun s temps v => ?_⟩
  · simp only [Site.activation, Activation.cell?, List.length_map, List.length_range]
    rw [if_neg (by omega), if_pos (by omega)]
    congr 2
    omega
  · simp only [Site.activation, Activation.read, List.getElem?_map, h, Option.map_some,
      Option.getD_some]
  · simp only [Site.activation, Activation.write, map_set_of_nodup hnodup h, Store.set,
      Variable.parameter.injEq, reduceCtorEq, if_false]

theorem holdsCell_occurrence {caller : Activation} {returnTo size i : Nat}
    {parameters : List String} (h : i < size) :
    HoldsCell (.inside caller returnTo parameters size) i (.declared i) (.occurrence i) := by
  have hi : (List.range size)[i]? = some i := by simp [h]
  refine ⟨fun s temps => ?_, fun s temps => ?_, fun s temps v => ?_⟩
  · simp only [Site.activation, Activation.cell?, List.length_map, List.length_range]
    rw [if_pos (by omega), Int.toNat_natCast]
  · simp only [Site.activation, Activation.read, List.getElem?_map, hi, Option.map_some,
      Option.getD_some]
  · simp only [Site.activation, Activation.write, map_set_of_nodup List.nodup_range hi, Store.set,
      Variable.occurrence.injEq, reduceCtorEq, if_false]

theorem HoldsCell.perform_load {offset : Int} {cell : Activation.Cell}
    (h : HoldsCell site offset cell x) :
    (site.config globals pc s temps).perform arity size (.load offset) =
      .next (site.config globals (pc + 1) s (s.value x :: temps)) := by
  rw [Config.perform_load (h.cell? s temps), Site.advance_config]
  simp [Site.config, h.read]

theorem HoldsCell.perform_store {offset : Int} {cell : Activation.Cell}
    (h : HoldsCell site offset cell x) (hlocal : ∀ name, x ≠ .global name) :
    (site.config globals pc s (v :: temps)).perform arity size (.store offset) =
      .next (site.config globals (pc + 1) (s.set x v) temps) := by
  have hglobals : (globals.map fun name => (s.set x v).value (.global name)) =
      globals.map fun name => s.value (.global name) := by
    apply List.map_congr_left
    intro name _
    simp [Store.set, (hlocal name).symm]
  rw [Config.perform_store (h.cell? s _) (Site.temps_activation site s _), Site.advance_config]
  simp only [Site.config, Site.withTemps_activation, h.write, hglobals]
  rfl

/-- Loading from the place of a variable pushes its value. -/
theorem Keeping.perform_load (h : Keeping globals site place x) :
    (site.config globals pc s temps).perform arity size (loadOf place) =
      .next (site.config globals (pc + 1) s (s.value x :: temps)) := by
  cases h with
  | @global _ slot name hslot =>
    have hvalue : (site.config globals pc s temps).globals[slot]? =
        some (s.value (.global name)) := by
      simp [Site.config, hslot]
    rw [loadOf, Config.perform_loadGlobal hvalue, Site.advance_config]
    simp [Site.config]
  | parameter hnodup hi => exact (holdsCell_parameter hnodup hi).perform_load
  | occurrence hi => exact (holdsCell_occurrence hi).perform_load

/-- Storing to the place of a variable gives it the value and changes nothing else. -/
theorem Keeping.perform_store (h : Keeping globals site place x) (hglobals : globals.Nodup) :
    (site.config globals pc s (v :: temps)).perform arity size (storeOf place) =
      .next (site.config globals (pc + 1) (s.set x v) temps) := by
  cases h with
  | @global _ slot name hslot =>
    have hlt : slot < (site.config globals pc s (v :: temps)).globals.length := by
      simpa [Site.config] using (List.getElem?_eq_some_iff.mp hslot).1
    have hactivation : site.activation (s.set (.global name) v) temps =
        site.activation s temps := by
      cases site <;> simp [Site.activation, Store.set]
    have hvalues : (globals.map fun n => s.value (.global n)).set slot v =
        globals.map fun n => (s.set (.global name) v).value (.global n) := by
      rw [map_set_of_nodup hglobals hslot]
      simp only [Store.set, Variable.global.injEq]
    rw [storeOf, Config.perform_storeGlobal hlt (Site.temps_activation site s _),
      Site.advance_config]
    simp only [Site.config, hactivation, hvalues]
    rfl
  | parameter hnodup hi => exact (holdsCell_parameter hnodup hi).perform_store (by simp)
  | occurrence hi => exact (holdsCell_occurrence hi).perform_store (by simp)

/-! ## Declarations -/

/-- A declaration makes the scope and the context know the same name. -/
theorem Agrees.declare (h : Agrees globals site Γ σ) (hroom : site.Room globals (σ.declare name)) :
    Agrees globals site (Γ.declare name) (σ.declare name) := by
  cases h with
  | outside hglobals hinside hlocals =>
    refine .outside hroom ?_ ?_
    · simp only [Scope.declare, hinside]
      split
      · exact hinside
      · rfl
    · simp only [Scope.declare, hinside]
      split <;> exact hlocals
  | @inside _ caller returnTo size parameters declared f hglobals hinside harity hnodup hframe hsize
      hlookup =>
    simp only [Site.Room, Scope.declare, hinside] at hroom
    rw [Scope.declare_of_inside hinside]
    refine .inside hglobals hinside harity hnodup ?_ ?_ ?_
    · exact congrArg Nat.succ hframe
    · rw [List.length_cons, ← hframe]
      exact hroom
    · intro name'
      by_cases hname : name' = name
      · subst hname
        simp [offset?, latest?, hframe]
      · have hne : (some name' == some name) = false := by simpa using hname
        rw [List.lookup_cons, hne, hlookup]
        simp [offset?, latest?, Ne.symm hname]

/-- What a scope keeps when more is declared. -/
structure Grows (σ τ : Scope) : Prop where
  globals : σ.globals <+: τ.globals
  frameSize : σ.frameSize ≤ τ.frameSize
  signatures : τ.signatures = σ.signatures

theorem Grows.refl (σ : Scope) : Grows σ σ := ⟨List.prefix_rfl, le_rfl, rfl⟩

theorem Grows.trans {τ υ : Scope} (h : Grows σ τ) (h' : Grows τ υ) : Grows σ υ :=
  ⟨h.globals.trans h'.globals, h.frameSize.trans h'.frameSize, h'.signatures.trans h.signatures⟩

theorem grows_declare (σ : Scope) (name : String) : Grows σ (σ.declare name) := by
  unfold Scope.declare
  split
  · exact ⟨List.prefix_rfl, Nat.le_succ _, rfl⟩
  · split
    · exact Grows.refl σ
    · exact ⟨List.prefix_append _ _, le_rfl, rfl⟩

theorem grows_foldl_declare (σ : Scope) (names : List String) :
    Grows σ (names.foldl Scope.declare σ) := by
  induction names generalizing σ with
  | nil => exact Grows.refl σ
  | cons name names ih => exact (grows_declare σ name).trans (ih _)

theorem grows_scopeAfter (σ : Scope) (s : Stmt) : Grows σ (s.scopeAfter σ) := by
  induction s generalizing σ with
  | seq first second ih₁ ih₂ => exact (ih₁ σ).trans (ih₂ _)
  | declare name value => exact grows_declare σ name
  | branch chained condition yes no ih₁ ih₂ => exact (ih₁ σ).trans (ih₂ _)
  | loop condition body ih => exact ih σ
  | _ => exact Grows.refl σ

/-- Where there is room for a scope, there is room for the smaller ones. -/
theorem Site.Room.of_grows {τ : Scope} (h : site.Room globals τ) (hgrows : Grows σ τ) :
    site.Room globals σ := by
  cases site with
  | outside => exact hgrows.globals.trans h
  | inside caller returnTo parameters size => exact hgrows.frameSize.trans h

theorem Agrees.declareAll {names : List String} (h : Agrees globals site Γ σ)
    (hroom : site.Room globals (names.foldl Scope.declare σ)) :
    Agrees globals site (names.foldl Context.declare Γ) (names.foldl Scope.declare σ) := by
  induction names generalizing Γ σ with
  | nil => exact h
  | cons name names ih =>
    have hfirst : site.Room globals (σ.declare name) :=
      hroom.of_grows (grows_foldl_declare _ names)
    exact ih (h.declare hfirst) hroom

/-- A declared variable is stored where its name resolves to afterwards. -/
theorem Agrees.resolve?_declare (h : Agrees globals site Γ σ) (name : String) :
    (σ.declare name).resolve? (some name) = some (σ.placeOf name) := by
  cases h with
  | inside _ hinside => simp [Scope.declare, Scope.placeOf, Scope.resolve?, hinside]
  | outside _ hinside hlocals =>
    cases hindex : σ.globals.idxOf? name with
    | some slot =>
      have hmem : name ∈ σ.globals := by
        obtain ⟨hlt, rfl, -⟩ := List.idxOf?_eq_some_iff.mp hindex
        exact List.getElem_mem hlt
      simp [Scope.declare, Scope.placeOf, Scope.resolve?, hinside, hlocals, hmem, hindex]
    | none =>
      have hmem : name ∉ σ.globals := List.idxOf?_eq_none_iff.mp hindex
      have hnew : (σ.globals ++ [name]).idxOf? name = some σ.globals.length := by
        rw [List.idxOf?_eq_some_iff]
        refine ⟨by simp, by simp, ?_⟩
        intro j hj hname
        rw [List.getElem_append_left hj] at hname
        exact hmem (hname ▸ List.getElem_mem hj)
      simp [Scope.declare, Scope.placeOf, Scope.resolve?, hinside, hlocals, hmem, hindex, hnew]

end StackLang.Simulation
