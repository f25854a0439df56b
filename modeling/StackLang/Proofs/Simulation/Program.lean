import StackLang.Proofs.Functions
import StackLang.Proofs.Simulation.Call

/-!
# The code of programs

The functions of a program stand in its code where the table of entries says, and the compiler has
the right names in mind in each of them. So the code of a program in which nothing is found does
what the program means.
-/

namespace StackLang

open StackLang.Tree (Parts)

/-! ## Entries -/

/-- An entry is that of one of the functions and lies within their code. -/
theorem Script.mem_entriesFrom {σ : Scope} {address : Nat} {ds : List Definition}
    {e : String × Nat} (h : e ∈ Script.entriesFrom σ address ds) :
    e.1 ∈ ds.map Definition.name ∧
      e.2 < address + (ds.flatMap (Definition.code σ)).length := by
  induction ds generalizing address with
  | nil => cases h
  | cons d ds ih =>
    have hlength : 0 < (d.code σ).length := by simp [Definition.code]
    rw [Script.entriesFrom] at h
    rw [List.map_cons, List.flatMap_cons, List.length_append]
    rcases List.mem_cons.mp h with rfl | h
    · exact ⟨List.mem_cons_self, by simp only; omega⟩
    · obtain ⟨hname, hlt⟩ := ih h
      exact ⟨List.mem_cons_of_mem _ hname, by omega⟩

theorem Script.entriesFrom_append (σ : Scope) (address : Nat) (ds es : List Definition) :
    Script.entriesFrom σ address (ds ++ es) =
      Script.entriesFrom σ address ds ++
        Script.entriesFrom σ (address + (ds.flatMap (Definition.code σ)).length) es := by
  induction ds generalizing address with
  | nil => rfl
  | cons d ds ih =>
    rw [List.cons_append, Script.entriesFrom, Script.entriesFrom, ih, List.cons_append,
      List.flatMap_cons, List.length_append, Nat.add_assoc]

/-- Among definitions with different names each one is entered where its code stands. -/
theorem Script.exists_entry {s : Script} (hnodup : (s.definitions.map Definition.name).Nodup)
    {d : Definition} (hd : d ∈ s.definitions) :
    ∃ address, s.entries.lookup d.name = some address ∧
      s.entries.find? (fun e => (e.2 : Int) = address) = some (d.name, address) ∧
      ∀ comments, (s.program comments).Has s.entries address (d.code s.functionScope) := by
  obtain ⟨before, after, hsplit⟩ := List.append_of_mem hd
  have hbefore : d.name ∉ before.map Definition.name := by
    rw [hsplit, List.map_append, List.nodup_append] at hnodup
    exact fun hmem => hnodup.2.2 _ hmem _ List.mem_cons_self rfl
  obtain ⟨rest, hentries⟩ : ∃ rest, s.entries =
      Script.entriesFrom s.functionScope s.entryCode.length before ++
        (d.name, s.entryCode.length +
          (before.flatMap (Definition.code s.functionScope)).length) :: rest :=
    ⟨_, by rw [Script.entries, hsplit, Script.entriesFrom_append, Script.entriesFrom]⟩
  refine ⟨s.entryCode.length + (before.flatMap (Definition.code s.functionScope)).length,
    ?_, ?_, ?_⟩
  · have hnone : (Script.entriesFrom s.functionScope s.entryCode.length before).lookup d.name =
        none := by
      rw [List.lookup_eq_none_iff]
      intro e he
      have hname := (Script.mem_entriesFrom he).1
      exact bne_iff_ne.mpr fun heq => hbefore (heq ▸ hname)
    rw [hentries, List.lookup_append, hnone]
    simp
  · have hnone : (Script.entriesFrom s.functionScope s.entryCode.length before).find?
        (fun e => (e.2 : Int) = (s.entryCode.length +
          (before.flatMap (Definition.code s.functionScope)).length : Nat)) = none := by
      rw [List.find?_eq_none]
      intro e he
      have hlt := (Script.mem_entriesFrom he).2
      simp only [decide_eq_true_eq]
      omega
    rw [hentries, List.find?_append, hnone]
    simp
  · intro comments
    have hcode := s.program_has comments
    rw [Script.code, hsplit, List.flatMap_append, List.flatMap_cons, Program.has_append,
      Program.has_append, Program.has_append, Nat.zero_add] at hcode
    exact hcode.2.2.1

/-! ## Scopes of functions -/

/-- Inside a function every declaration takes one more word of the frame. -/
theorem Scope.frameSize_foldl_declare {σ : Scope} {f : Signature} (h : σ.inside = some f)
    (names : List String) :
    (names.foldl Scope.declare σ).frameSize = σ.frameSize + names.length := by
  induction names generalizing σ with
  | nil => rfl
  | cons name names ih =>
    have hdeclare := Scope.declare_of_inside h name
    have hinside : (σ.declare name).inside = some f := by rw [hdeclare, h]
    rw [List.foldl_cons, ih hinside, hdeclare, List.length_cons]
    simp only
    omega

/-- A global variable gets one slot only. -/
theorem Scope.nodup_globals_scopeAfter {σ : Scope} (h : σ.globals.Nodup) (s : Stmt) :
    (s.scopeAfter σ).globals.Nodup := by
  induction s generalizing σ with
  | seq first second ih₁ ih₂ => exact ih₂ (ih₁ h)
  | branch chained condition yes no ih₁ ih₂ => exact ih₂ (ih₁ h)
  | loop condition body ih => exact ih h
  | declare name value =>
    rw [Stmt.scopeAfter, Scope.declare]
    split
    · exact h
    · split
      · exact h
      · rename_i hname
        exact List.nodup_append.mpr ⟨h, List.nodup_singleton name, by
          intro a ha b hb heq
          obtain rfl := List.mem_singleton.mp hb
          exact hname (by simpa [heq] using ha)⟩
  | _ => exact h

namespace Simulation

open Meaning
open Grammar (plainNode)

/-- The number of parameters of the function whose code starts at an address. -/
def arityAt (tree : Tree) (p : Program) (address : Int) : Nat :=
  ((p.functions.find? fun e => (e.2 : Int) = address).bind fun e =>
    (functionNamed? tree e.1).map fun g => (parameterNames g).length).getD 0

/-- A parsed program in which nothing is found. -/
structure Clean (tree : Tree) (statements : List Tree) (fs : List Parts) (s : Script) : Prop
    extends Script.Reading tree statements fs s where
  findings : s.findings = []

/-- The program tree with the program made of it. -/
def worldOf (tree : Tree) (s : Script) (comments : Bool) : World where
  tree := tree
  program := s.program comments
  entries := s.entries
  arity := arityAt tree (s.program comments)
  globals := s.functionScope.globals
  signatures := s.signatures

section Clean

variable {tree : Tree} {statements : List Tree} {fs : List Parts} {s : Script} {comments : Bool}
  {f : Parts} {name : String}

theorem Clean.nodup_names (h : Clean tree statements fs s) : (fs.map Parts.name).Nodup :=
  ((Script.findings_eq_nil h.functions).mp h.findings).2.1

/-- A function is entered where its code stands. -/
theorem Clean.exists_entry (h : Clean tree statements fs s) (comments : Bool) (hf : f ∈ fs) :
    ∃ address, s.entries.lookup f.name = some address ∧
      arityAt tree (s.program comments) address = f.parameters.length ∧
      (s.program comments).Has s.entries address (f.definition.code s.functionScope) := by
  have hdefinitions := Script.definitions_eq h.functions h.nodup_names
  have hmem : f.definition ∈ s.definitions := by
    rw [hdefinitions]
    exact List.mem_map_of_mem hf
  have hnodup : (s.definitions.map Definition.name).Nodup := by
    rw [hdefinitions, List.map_map]
    exact h.nodup_names
  obtain ⟨address, hlookup, hfind, hhas⟩ := Script.exists_entry hnodup hmem
  refine ⟨address, hlookup, ?_, hhas comments⟩
  have hfunctions : (s.program comments).functions = s.entries := rfl
  have hnamed : Meaning.functionNamed? tree f.definition.name = some f.tree := by
    rw [h.functionNamed?]
    exact congrArg (Option.map Parts.tree) (find?_name_of_nodup h.nodup_names hf)
  rw [arityAt, hfunctions, hfind, Option.bind_some, hnamed, Option.map_some, Option.getD_some,
    Parts.parameterNames_tree]

theorem Clean.sound (h : Clean tree statements fs s) : (worldOf tree s comments).Sound := by
  constructor
  · apply Scope.nodup_globals_scopeAfter
    have hdeclared := ((Script.findings_eq_nil h.functions).mp h.findings).1
    change s.globals.Nodup
    rw [Script.globals, eraseDups_eq_self hdeclared]
    exact hdeclared
  · intro name f hfind
    change s.signatures.find? _ = some f at hfind
    rw [h.find?_signatures h.nodup_names] at hfind
    obtain ⟨g, hg, rfl⟩ := Option.map_eq_some_iff.mp hfind
    obtain ⟨address, hlookup, -⟩ := h.exists_entry comments (List.mem_of_find?_eq_some hg)
    have hname : g.name = name := by simpa using List.find?_some hg
    refine ⟨g.tree, address, ?_, ?_, ?_⟩
    · change Meaning.functionNamed? tree name = _
      rw [h.functionNamed?, hg, Option.map_some]
    · rw [Parts.parameterNames_tree, Parts.length_parameters]
      rfl
    · rw [← hname]
      exact hlookup
  · intro name hfind
    change s.signatures.find? _ = none at hfind
    rw [h.find?_signatures h.nodup_names, Option.map_eq_none_iff] at hfind
    change Meaning.functionNamed? tree name = none
    rw [h.functionNamed?, hfind, Option.map_none]

/-- At the start of a function its parameters are known, and the global variables. -/
theorem agrees_enter {globals : List String} {σ : Scope} (hglobals : σ.globals <+: globals)
    (f : Parts) (hnodup : f.parameters.Nodup) (caller : Activation) (returnTo size : Nat) :
    Agrees globals (.inside caller returnTo f.parameters size) (.inside f.parameters [])
      (f.definition.scope σ) := by
  refine .inside hglobals rfl ?_ hnodup rfl (Nat.zero_le _) ?_
  · exact f.length_parameters.symm
  · intro name
    rw [f.lookup_scope σ name, offset?, latest?]

theorem Clean.checked_body (h : Clean tree statements fs s) (hf : f ∈ fs) :
    (Stmt.ofTrees f.body).findings (f.definition.scope s.functionScope) = [] :=
  ((Script.findings_eq_nil h.functions).mp h.findings).2.2.2.2 f hf

/-- A function reserves as many words as its body declares variables. -/
theorem Clean.frameSize_le (h : Clean tree statements fs s) (hf : f ∈ fs) :
    ((Stmt.ofTrees f.body).scopeAfter (f.definition.scope s.functionScope)).frameSize ≤
      f.written.locals := by
  have hfollows := h.follows_body hf
  have hchecked := (hfollows.findings _).mp (h.checked_body hf)
  have hcounted : ∀ t ∈ f.body, t.Counted := fun t ht =>
    (h.bodies f hf t ht).counted fun n hn =>
      hchecked.kind_ne_function n (Tree.mem_walkAll.mpr ⟨t, ht, hn⟩)
  have hlocals : f.written.locals = (declaredNames f.body).length :=
    Tree.declarationsAll_eq hcounted
  have hinside : (f.definition.scope s.functionScope).inside = some f.signature := rfl
  rw [hfollows.scopeAfter _ hchecked, Scope.passAll_eq_foldl,
    Scope.frameSize_foldl_declare hinside, hlocals]
  exact le_of_eq (Nat.zero_add _)

theorem Clean.linked (h : Clean tree statements fs s) : (worldOf tree s comments).Linked := by
  intro name g address hg hlookup
  change Meaning.functionNamed? tree name = some g at hg
  change s.entries.lookup name = some address at hlookup
  rw [h.functionNamed?] at hg
  obtain ⟨f, hfind, rfl⟩ := Option.map_eq_some_iff.mp hg
  have hf : f ∈ fs := List.mem_of_find?_eq_some hfind
  have hname : f.name = name := by simpa using List.find?_some hfind
  obtain ⟨address', hlookup', harity, hhas⟩ := h.exists_entry comments hf
  rw [hname, hlookup, Option.some.injEq] at hlookup'
  subst hlookup'
  have hnodup := ((Script.findings_eq_nil h.functions).mp h.findings).2.2.1 f hf
  refine ⟨f.place, f.body, f.definition.scope s.functionScope, f.written.locals,
    f.first?_block_tree, h.bodies f hf, ?_, ?_, ?_, h.checked_body hf, h.frameSize_le hf, ?_⟩
  · rw [Parts.parameterNames_tree]
    exact hnodup
  · rw [Parts.parameterNames_tree]
    exact harity
  · have hlength : f.written.parameters.length = f.parameters.length := by
      rw [Parts.length_parameters]
      exact List.length_map _
    have hcode := hhas
    rw [Definition.code] at hcode
    change Program.Has _ _ _
      (_ :: (_ ++ [_, .of (.giveBack f.written.parameters.length) _])) at hcode
    rw [hlength] at hcode
    rw [Parts.parameterNames_tree]
    exact ⟨_, _, _, rfl, hcode⟩
  · intro caller returnTo
    rw [Parts.parameterNames_tree]
    exact ⟨agrees_enter List.prefix_rfl f hnodup caller returnTo _,
      (grows_scopeAfter s.startScope s.entry).signatures⟩

/-! ## Whole programs -/

/-- The configuration of a program that has just been taken in is that of the initial store. -/
theorem start_eq (globals : List String) :
    Machine.start globals.length = Site.config globals .outside 0 .initial [] := by
  have hzeros : globals.map (fun _ => (0 : Int)) = List.replicate globals.length 0 :=
    List.map_const' ..
  simp only [Machine.start, Site.config, Site.activation, Store.initial, hzeros]

/-- The code outside functions fits at the start of the program. -/
theorem Clean.fits_entry (h : Clean tree statements fs s) :
    Fits (worldOf tree s comments) .outside .outside s.startScope 0 s.entry := by
  have hcode := s.program_has comments
  rw [Script.code, Script.entryCode, Program.has_append, Program.has_append] at hcode
  have hstands : Stands (worldOf tree s comments) .outside .outside s.startScope :=
    ⟨.outside (grows_scopeAfter s.startScope s.entry).globals rfl rfl, rfl⟩
  refine ⟨hstands, List.prefix_rfl, ?_, hcode.1.1, ?_⟩
  · exact ((Script.findings_eq_nil h.functions).mp h.findings).2.2.2.1
  · exact (Program.has_cons.mp hcode.1.2).1.lt_size

/-- The address of the end of the run. -/
def haltAddress (s : Script) : Nat := (s.entry.code s.startScope).length + 1

/-- The code of a program does what the program means. -/
theorem Clean.simulates_run (h : Clean tree statements fs s) {g : Tree}
    (hmain : Meaning.functionNamed? tree "main" = some g) (hparameters : parameterNames g = [])
    (comments : Bool) (k : Nat) :
    Simulates (arityAt tree (s.program comments)) (s.program comments) k
      (Machine.start s.functionScope.globals.length) (run tree k)
      fun v s' => some (Site.config s.functionScope.globals .outside (haltAddress s) s' [v]) := by
  have hsound : (worldOf tree s comments).Sound := h.sound
  have hcalls : CallsRun (worldOf tree s comments) k (callAt tree k) :=
    callsRun_callAt hsound h.linked k
  have himplements : Implements (worldOf tree s comments) k .outside s.entry
      fun Γ => executeAll (callAt tree k) k Γ (entryStatements tree) := by
    rw [h.entry_eq]
    exact implements_executeAll h.isStatement_entry fun t ht =>
      implements_execute (h.isStatement_entry t ht) hsound hcalls
  have hcode := s.program_has comments
  rw [Script.code, Script.entryCode, Program.has_append, Program.has_append, Nat.zero_add] at hcode
  obtain ⟨hcall, -⟩ := Program.has_cons.mp hcode.1.2
  rw [h.functionNamed?] at hmain
  obtain ⟨f, hfind, rfl⟩ := Option.map_eq_some_iff.mp hmain
  have hname : f.name = "main" := by simpa using List.find?_some hfind
  obtain ⟨address, hlookup, -⟩ := h.exists_entry comments (List.mem_of_find?_eq_some hfind)
  rw [hname] at hlookup
  rw [start_eq, run, compute]
  refine (himplements _ _ _ h.fits_entry .initial).bind_partial ?_
  intro flow s' c' _ hmiddle
  cases flow with
  | next =>
    obtain rfl := Option.some.inj hmiddle
    rw [Nat.zero_add]
    have hnamed : Meaning.functionNamed? tree "main" = some f.tree := by
      rw [h.functionNamed?, hfind, Option.map_some]
    have hlength : ([] : List Int).length = (parameterNames f.tree).length := by
      rw [hparameters]
      rfl
    refine hcalls.user s' [] hnamed hlength hlookup hcall ?_
    have hentryName : s.entries.lookup entryName = some address := hlookup
    simp only [Draft.Action.operation, worldOf, hentryName]
    rfl
  | returned v => cases hmiddle

/-- After the first function the run ends. -/
theorem step_haltAddress (s : Script) (comments : Bool) {arity : Int → Nat} {c : Config}
    (hpc : c.pc = haltAddress s) : c.step arity (s.program comments) = .halted := by
  have hcode := s.program_has comments
  rw [Script.code, Script.entryCode, Program.has_append, Program.has_append, Nat.zero_add] at hcode
  obtain ⟨-, hhalt⟩ := Program.has_cons.mp hcode.1.2
  change (s.program comments).Has s.entries (haltAddress s) _ at hhalt
  rw [← hpc] at hhalt
  rw [Config.step_of_has arity hhalt]
  rfl

end Clean

end Simulation

end StackLang
