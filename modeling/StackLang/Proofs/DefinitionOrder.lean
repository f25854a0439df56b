import StackLang.Proofs.Jumps
import StackLang.Proofs.Layout
import StackLang.Proofs.Places
import StackLang.Proofs.Relocation

/-!
# The order of functions

Where the functions of a program stand among its statements does not matter: the same functions in
another order, between the same statements, give the same code at other addresses, and the runs of
the two programs go side by side.
-/

namespace StackLang

open Grammar (plainNode functionNode parametersNode)
open Meaning (entryStatements)
open Simulation (Clean)
open StackLang.Tree (Parts)

/-- Two program nodes differ, apart from places, only in where the functions stand. -/
structure Tree.Reordered (t u : Tree) : Prop where
  rest : (entryStatements t).map unplaced = (entryStatements u).map unplaced
  functions : ((t.childrenOf .function).map unplaced).Perm ((u.childrenOf .function).map unplaced)

instance (t u : Tree) : Decidable (t.Reordered u) :=
  decidable_of_iff ((entryStatements t).map Tree.unplaced = (entryStatements u).map Tree.unplaced ∧
    ((t.childrenOf .function).map Tree.unplaced).Perm ((u.childrenOf .function).map Tree.unplaced))
    ⟨fun h => ⟨h.1, h.2⟩, fun h => ⟨h.rest, h.functions⟩⟩

theorem Tree.Reordered.symm {t u : Tree} (h : t.Reordered u) : u.Reordered t :=
  ⟨h.rest.symm, h.functions.symm⟩

/-! ## The same code -/

namespace Stmt

variable {ts us : List Tree} {σ τ : Scope}

theorem unplaced_eq_of_unplaced (h : ts.map Tree.unplaced = us.map Tree.unplaced) :
    (ofTrees ts).unplaced = (ofTrees us).unplaced := by
  rw [← ofTrees_unplaced, ← ofTrees_unplaced, Tree.unplacedAll_eq_map, Tree.unplacedAll_eq_map, h]

/-- Statements that are equal without places get the same code where names have the same meaning. -/
theorem code_eq_of_unplaced (h : ts.map Tree.unplaced = us.map Tree.unplaced) (hσ : σ.Alike τ) :
    (ofTrees ts).code σ = (ofTrees us).code τ := by
  rw [← code_unplaced, unplaced_eq_of_unplaced h, code_unplaced, code_congr hσ]

/-- Names have the same meaning behind statements that are equal without places. -/
theorem alike_of_unplaced (h : ts.map Tree.unplaced = us.map Tree.unplaced) (hσ : σ.Alike τ) :
    ((ofTrees ts).scopeAfter σ).Alike ((ofTrees us).scopeAfter τ) := by
  rw [← scopeAfter_unplaced, unplaced_eq_of_unplaced h, scopeAfter_unplaced]
  exact alike_scopeAfter hσ _

end Stmt

namespace Tree.Parts

variable {f f' : Parts} {σ τ : Scope}

theorem unplaced_tree (f : Parts) :
    f.tree.unplaced =
      { kind := .function, attributes := [("name", f.name), ("returnType", f.type)]
        children :=
          [{ kind := .parameterList, children := (f.formals.map Formal.tree).map unplaced },
            { kind := .block, children := f.body.map unplaced }] } := by
  simp only [tree, functionNode, parametersNode, blockNode, plainNode, unplaced, unplacedAll,
    unplacedAll_eq_map]

/-- What a function node says without places. -/
theorem eq_of_unplaced (h : f.tree.unplaced = f'.tree.unplaced) :
    f.name = f'.name ∧ f.type = f'.type ∧ f.parameters = f'.parameters ∧
      f.body.map unplaced = f'.body.map unplaced := by
  rw [unplaced_tree, unplaced_tree] at h
  simp only [Tree.mk.injEq, List.cons.injEq, Prod.mk.injEq, true_and, and_true] at h
  obtain ⟨⟨hname, htype⟩, hformals, hbody⟩ := h
  have hget (p : Formal) : p.tree.unplaced.get? "name" = some p.name := get?_unplaced p.tree "name"
  have hnames := congrArg (List.map (Tree.get? · "name")) hformals
  simp only [List.map_map, Function.comp_def, hget] at hnames
  refine ⟨hname, htype, ?_, hbody⟩
  refine List.map_injective_iff.mpr (Option.some_injective String) ?_
  simpa only [parameters, List.map_map, Function.comp_def] using hnames

/-- Functions that are equal without places are the same to calls, and get the same code. -/
theorem code_eq_of_unplaced (h : f.tree.unplaced = f'.tree.unplaced) (hσ : σ.Alike τ) :
    f.signature = f'.signature ∧ f.definition.code σ = f'.definition.code τ := by
  obtain ⟨hname, htype, hparameters, hbody⟩ := eq_of_unplaced h
  have hlength : f.formals.length = f'.formals.length := by
    rw [← f.length_parameters, ← f'.length_parameters, hparameters]
  have hsignature : f.signature = f'.signature := by
    rw [signature, signature, hname, htype, hlength]
  have hlocals : f.written.locals = f'.written.locals := by
    have hdeclarations (g : Parts) :
        g.written.locals = declarationsAll (g.body.map unplaced) := by
      rw [← unplacedAll_eq_map, declarationsAll_unplacedAll]
      rfl
    rw [hdeclarations, hdeclarations, hbody]
  have hnames (g : Parts) : g.written.parameters.map Parameter.name = g.parameters.map some := by
    simp [written, parameters, Function.comp_def]
  have hscope : (f.definition.scope σ).Alike (f'.definition.scope τ) := by
    have hsame : f.definition.signature = f'.definition.signature := hsignature
    rw [Definition.scope, Definition.scope, hsame]
    exact hσ.enter _ (by rw [definition, definition, hnames, hnames, hparameters])
  refine ⟨hsignature, Definition.code_congr hname hlocals ?_ ?_
    (Stmt.code_eq_of_unplaced hbody hscope)⟩
  · simp only [definition, written, List.length_map, hlength]
  · simp only [Definition.shownType, definition, hsignature, written, htype]

end Tree.Parts

/-- The names that are declared outside all blocks do not depend on the functions. -/
theorem Script.Reading.declared_names {tree : Tree} {statements : List Tree} {fs : List Parts}
    {s : Script} (h : Script.Reading tree statements fs s) :
    s.declared.map (·.1) = ((entryStatements tree).map Tree.unplaced).filterMap fun t =>
      (Script.declared? t).map (·.1) := by
  have hdeclared : s.declared = tree.children.filterMap Script.declared? := by
    rw [h.children]
    exact congrArg Script.declared h.script_eq
  rw [hdeclared, entryStatements, List.map_filterMap, List.filterMap_map, List.filterMap_filter]
  refine List.filterMap_congr fun t _ => ?_
  simp only [Function.comp_apply, Script.declared?, Tree.kind_unplaced, Tree.get?_unplaced]
  by_cases hkind : t.kind = .variableDeclaration
  · simp only [hkind, if_true, Option.map_map]
    rfl
  · simp [hkind]

namespace Simulation.Clean

variable {tree tree' : Tree} {statements statements' : List Tree} {fs fs' : List Parts}
  {s s' : Script} {f f' : Parts}

theorem exists_same (h : Clean tree statements fs s) (h' : Clean tree' statements' fs' s')
    (horder : tree.Reordered tree') (hf : f ∈ fs) :
    ∃ f' ∈ fs', f.tree.unplaced = f'.tree.unplaced := by
  have hperm := horder.functions
  rw [h.childrenOf_function, h'.childrenOf_function, List.map_map, List.map_map] at hperm
  obtain ⟨f', hf', hsame⟩ := List.mem_map.mp (hperm.subset (List.mem_map_of_mem hf))
  exact ⟨f', hf', hsame.symm⟩

theorem isSome_signature? (h : Clean tree statements fs s) (h' : Clean tree' statements' fs' s')
    (horder : tree.Reordered tree') {name : String}
    (hknown : (s.startScope.signature? (some name)).isSome) :
    (s'.startScope.signature? (some name)).isSome := by
  rw [Scope.signature?, Script.startScope, h.find?_signatures h.nodup_names, Option.isSome_map,
    Option.isSome_iff_exists] at hknown
  obtain ⟨f, hf⟩ := hknown
  obtain ⟨f', hf', hsame⟩ := h.exists_same h' horder (List.mem_of_find?_eq_some hf)
  have hname : f.name = name := by simpa using List.find?_some hf
  have hname' : f'.name = name := (Parts.eq_of_unplaced hsame).1.symm.trans hname
  rw [Scope.signature?, Script.startScope, h'.find?_signatures h'.nodup_names, ← hname',
    find?_name_of_nodup h'.nodup_names hf']
  rfl

/-- Before all statements the same names are known. -/
theorem alike_startScope (h : Clean tree statements fs s) (h' : Clean tree' statements' fs' s')
    (horder : tree.Reordered tree') : s.startScope.Alike s'.startScope := by
  refine ⟨fun name => ?_, ?_, rfl, rfl, rfl⟩
  · cases name with
    | none =>
      rw [Scope.signature?, Scope.signature?, List.find?_eq_none.mpr (by simp),
        List.find?_eq_none.mpr (by simp)]
    | some name =>
      exact Bool.eq_iff_iff.mpr
        ⟨h.isSome_signature? h' horder, h'.isSome_signature? h horder.symm⟩
  · simp only [Script.startScope, Script.globals]
    rw [h.declared_names, h'.declared_names, horder.rest]

theorem entryCode_eq (h : Clean tree statements fs s) (h' : Clean tree' statements' fs' s')
    (horder : tree.Reordered tree') : s.entryCode = s'.entryCode := by
  rw [Script.entryCode, Script.entryCode, h.entry_eq, h'.entry_eq,
    Stmt.code_eq_of_unplaced horder.rest (h.alike_startScope h' horder)]

/-- In the functions the same names are known. -/
theorem alike_functionScope (h : Clean tree statements fs s)
    (h' : Clean tree' statements' fs' s') (horder : tree.Reordered tree') :
    s.functionScope.Alike s'.functionScope := by
  rw [Script.functionScope, Script.functionScope, h.entry_eq, h'.entry_eq]
  exact Stmt.alike_of_unplaced horder.rest (h.alike_startScope h' horder)

end Simulation.Clean

/-! ## The same code at other addresses -/

/-- Closed code that stands at two addresses, in programs whose functions belong together. -/
theorem Draft.IsClosed.corresponds {Related : Nat → Nat → Prop} {ds : List Draft} {d : Draft}
    {entries entries' : List (String × Nat)} {address address' k : Nat} (h : IsClosed ds)
    (hd : ds[k]? = some d) (hrelated : ∀ j < ds.length, Related (address + j) (address' + j))
    (hstart : Related 0 0)
    (hcalls : ∀ name, (∃ entry entry', entries.lookup name = some entry ∧
      entries'.lookup name = some entry' ∧ Related entry entry') ∨
        (entries.lookup name = none ∧ entries'.lookup name = none)) :
    (d.action.operation entries (address + k)).Corresponds Related (address + k) (address' + k)
      (d.action.operation entries' (address' + k)) := by
  have hsettled := h.settled d (List.mem_of_getElem? hd)
  have hnext (hfinal : ¬d.IsFinal) : Related (address + k + 1) (address' + k + 1) :=
    hrelated (k + 1) (h.next k d hd hfinal)
  have hshift (base target : Nat) {distance : Int} (htarget : (k : Int) + distance = target) :
      ((base + k : Nat) : Int) + distance = (base + target : Nat) := by
    omega
  cases haction : d.action with
  | fixed op =>
    have hgoesOn (hhalt : op ≠ .halt) (hreturn : ∀ count, op ≠ .giveBack count) :
        Related (address + k + 1) (address' + k + 1) := by
      refine hnext ?_
      rw [IsFinal, haction]
      rintro (hfinal | ⟨count, hfinal⟩)
      · exact hhalt (Action.fixed.inj hfinal)
      · exact hreturn count (Action.fixed.inj hfinal)
    rw [haction] at hsettled
    change op.Corresponds Related (address + k) (address' + k) op
    cases op with
    | jump | jumpIfZero | jumpIfNonzero => exact hsettled.elim
    | call target =>
      obtain rfl : target = 0 := hsettled
      exact .call hstart (hgoesOn (by simp) (by simp))
    | halt => exact .halt
    | giveBack count => exact .giveBack count
    | _ => exact .plain trivial (hgoesOn (by simp) (by simp))
  | jump distance =>
    obtain ⟨target, htarget, hlt⟩ := h.jumps k d distance hd (.inl haction)
    rw [Action.operation, Action.operation, hshift address target htarget,
      hshift address' target htarget]
    exact .jump (hrelated target hlt)
  | jumpIfZero distance =>
    obtain ⟨target, htarget, hlt⟩ := h.jumps k d distance hd (.inr haction)
    rw [Action.operation, Action.operation, hshift address target htarget,
      hshift address' target htarget]
    refine .jumpIfZero (hrelated target hlt) (hnext ?_)
    rw [IsFinal, haction]
    simp
  | call callee missing =>
    have hbehind := hnext (by rw [IsFinal, haction]; simp)
    rw [haction] at hsettled
    rcases hcalls callee with ⟨entry, entry', hentry, hentry', hgoal⟩ | ⟨hnone, hnone'⟩
    · rw [Action.operation, Action.operation, hentry, hentry']
      exact .call hgoal hbehind
    · rw [Action.operation, Action.operation, hnone, hnone']
      rcases Int.lt_or_eq_of_le hsettled with hnegative | rfl
      · exact .missing hnegative
      · exact .call hstart hbehind

/-- Addresses that belong together: the same ones outside functions, and those at the same distance
from the entry of the same function. -/
inductive Script.Moved (fs fs' : List Parts) (s s' : Script) : Nat → Nat → Prop
  | outside {k : Nat} (hk : k < s.entryCode.length) : Moved fs fs' s s' k k
  | inside {f f' : Parts} {entry entry' k : Nat} (hf : f ∈ fs) (hf' : f' ∈ fs')
      (hsame : f.tree.unplaced = f'.tree.unplaced) (hentry : s.entries.lookup f.name = some entry)
      (hentry' : s'.entries.lookup f'.name = some entry')
      (hk : k < (f.definition.code s.functionScope).length) :
    Moved fs fs' s s' (entry + k) (entry' + k)

namespace Simulation.Clean

variable {tree tree' : Tree} {statements statements' : List Tree} {fs fs' : List Parts}
  {s s' : Script} {f f' : Parts}

theorem has_entryCode (comments : Bool) (s : Script) :
    (s.program comments).Has s.entries 0 s.entryCode := by
  have hcode := s.program_has comments
  rw [Script.code, Program.has_append] at hcode
  exact hcode.1

theorem has_definition (h : Clean tree statements fs s) (comments : Bool) (hf : f ∈ fs)
    {entry : Nat} (hentry : s.entries.lookup f.name = some entry) :
    (s.program comments).Has s.entries entry (f.definition.code s.functionScope) := by
  obtain ⟨address, hlookup, -, hhas⟩ := h.exists_entry comments hf
  rwa [Option.some.inj (hentry.symm.trans hlookup)]

/-- A name is entered in both programs at addresses that belong together, or in neither. -/
theorem moved_entries (h : Clean tree statements fs s) (h' : Clean tree' statements' fs' s')
    (horder : tree.Reordered tree') (name : String) :
    (∃ entry entry', s.entries.lookup name = some entry ∧ s'.entries.lookup name = some entry' ∧
      Script.Moved fs fs' s s' entry entry') ∨
      (s.entries.lookup name = none ∧ s'.entries.lookup name = none) := by
  cases hentry : s.entries.lookup name with
  | some entry =>
    obtain ⟨f, hf, rfl⟩ := Discipline.exists_of_lookup h hentry
    obtain ⟨f', hf', hsame⟩ := h.exists_same h' horder hf
    obtain ⟨entry', hentry', -⟩ := h'.exists_entry true hf'
    have hname := (Parts.eq_of_unplaced hsame).1
    refine .inl ⟨entry, entry', rfl, by rw [hname, hentry'], ?_⟩
    exact .inside (k := 0) hf hf' hsame hentry hentry' (by simp [Definition.code])
  | none =>
    cases hentry' : s'.entries.lookup name with
    | none => exact .inr ⟨rfl, rfl⟩
    | some entry' =>
      obtain ⟨f', hf', rfl⟩ := Discipline.exists_of_lookup h' hentry'
      obtain ⟨f, hf, hsame⟩ := h'.exists_same h horder.symm hf'
      obtain ⟨entry, hlookup, -⟩ := h.exists_entry true hf
      rw [← (Parts.eq_of_unplaced hsame).1, hentry] at hlookup
      cases hlookup

/-- Two programs with their functions in different orders, side by side. -/
def stage (fs fs' : List Parts) (s s' : Script) (comments comments' : Bool) (size : Int) :
    Stage where
  size := size
  size' := size
  size_le := Int.le_refl size
  program := s.program comments
  program' := s'.program comments'
  Related := Script.Moved fs fs' s s'

/-- The functions in another order make the same program at other addresses. -/
theorem relocates (h : Clean tree statements fs s) (h' : Clean tree' statements' fs' s')
    (horder : tree.Reordered tree') (comments comments' : Bool) (size : Int) :
    (stage fs fs' s s' comments comments' size).Relocates := by
  have hscope := h.alike_functionScope h' horder
  have hstart : Script.Moved fs fs' s s' 0 0 := .outside (by simp [Script.entryCode])
  have hcalls := h.moved_entries h' horder
  have hpair {ds : List Draft} {address address' k : Nat} (hclosed : Draft.IsClosed ds)
      (hhas : (s.program comments).Has s.entries address ds)
      (hhas' : (s'.program comments').Has s'.entries address' ds)
      (hmoved : ∀ j < ds.length, Script.Moved fs fs' s s' (address + j) (address' + j))
      (hk : k < ds.length) :
      ∃ i i', (s.program comments).code[address + k]? = some i ∧
        (s'.program comments').code[address' + k]? = some i' ∧
        i.operation.Corresponds (Script.Moved fs fs' s s') (address + k) (address' + k)
          i'.operation := by
    have hd : ds[k]? = some ds[k] := List.getElem?_eq_getElem hk
    obtain ⟨i, hi, hoperation⟩ := hhas k _ hd
    obtain ⟨i', hi', hoperation'⟩ := hhas' k _ hd
    refine ⟨i, i', hi, hi', ?_⟩
    rw [hoperation, hoperation']
    exact hclosed.corresponds hd hmoved hstart hcalls
  refine ⟨?_, hstart, fun a a' hmoved => ?_⟩
  · simp only [stage, Script.program, hscope.globals]
  cases hmoved with
  | outside hk =>
    have hhas' := has_entryCode comments' s'
    rw [← h.entryCode_eq h' horder] at hhas'
    have hcode := hpair s.isClosed_entryCode (has_entryCode comments s) hhas' (fun j hj => by
      rw [Nat.zero_add]
      exact .outside hj) hk
    rwa [Nat.zero_add] at hcode
  | inside hf hf' hsame hentry hentry' hk =>
    have hhas' := h'.has_definition comments' hf' hentry'
    rw [← (Parts.code_eq_of_unplaced hsame hscope).2] at hhas'
    exact hpair (Definition.isClosed_code _ _) (h.has_definition comments hf hentry) hhas'
      (fun j hj => .inside hf hf' hsame hentry hentry' hj) hk

end Simulation.Clean

/-! ## The same runs -/

/-- Two runs are in the same condition: both are going on, both have halted with the same result, or
both have faulted for the same cause. Their machines are the same, except for the words in `D`. -/
inductive Machine.SameCondition (D : Nat → Prop) :
    EStateM.Result Stop Machine Unit → EStateM.Result Stop Machine Unit → Prop
  | running {m m' : Machine} (going : m.running = true) (going' : m'.running = true)
      (same : SameExcept D m m') : SameCondition D (.ok () m) (.ok () m')
  | halted {m m' : Machine} {v : Int} (stopped : m.running = false) (stopped' : m'.running = false)
      (result : m.result? = some v) (result' : m'.result? = some v) (same : SameExcept D m m') :
    SameCondition D (.ok () m) (.ok () m')
  | faulted {m m' : Machine} {f f' : Fault} (cause : f'.cause = f.cause)
      (same : SameExcept D m m') : SameCondition D (.error (.fault f) m) (.error (.fault f') m')

namespace Discipline

open Machine

variable {At : Nat → Point → Prop} {g n : Nat} {m m₁ m₁' : Machine} {S : Stage}

/-- Machines side by side that have not faulted are in the same condition. -/
theorem Reached.sameCondition (hp : Disciplined S.program g At) (h : Reached S At g m n m₁ m₁') :
    SameCondition (ReturnSlot S.program m n) (.ok () m₁) (.ok () m₁') := by
  obtain ⟨⟨ws, fs, hmirrors, hslots⟩, hhalting⟩ := h
  obtain ⟨V, a, a', htwin, hsaved, -⟩ := hmirrors.moves
  have hexcept := SameExcept.of_twin htwin
  rw [hsaved] at hexcept
  have hsame := hexcept.imp fun k _ hk => hslots k hk
  cases hrunning : m₁.running with
  | true => exact .running hrunning (htwin.running.trans hrunning) hsame
  | false =>
    obtain ⟨i, hi, hhalt⟩ := hhalting hrunning
    have hframes := hmirrors.inOrder.frames_eq_nil (htwin.left.program ▸ hp) hi hhalt
    subst hframes
    obtain ⟨v, hv, -⟩ := hmirrors.inOrder.toFramed.exists_result
    refine .halted hrunning (htwin.running.trans hrunning) hv ?_ hsame
    rw [← hv, result?, result?, hexcept.sp]
    split
    · obtain ⟨k, hk⟩ := Int.eq_ofNat_of_zero_le (a := m₁.sp - 1) (by omega)
      rw [hk]
      exact hexcept.words k (by omega) (by simp [SavedBy])
    · rfl

end Discipline

/-- A program with its functions after what uses them. -/
def doubling : String :=
  "var g: int = 2 g = twice(g) fn main() -> int \x7b print(g) return twice(g + 1) \x7d " ++
    "fn twice(n: int) -> int \x7b return n + n \x7d"

/-- The same program with its functions before what uses them, in another order. -/
def doublingFirst : String :=
  "fn twice(n: int) -> int \x7b return n + n \x7d var g: int = 2 " ++
    "fn main() -> int \x7b print(g) return twice(g + 1) \x7d g = twice(g)"

end StackLang
