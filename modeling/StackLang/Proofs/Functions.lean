import Mathlib.Data.List.Nodup
import StackLang.Proofs.Checked

/-!
# The functions of a program

How the compiler sees the functions of a parsed program. If no two of them share a name, each of
them has its signature and its definition, in the order of the text; nothing is found in a program
exactly if names are unique where they must be and nothing is found in its statements.
-/

namespace StackLang

open Grammar (plainNode functionNode parametersNode)
open Meaning (entryStatements functionNamed? parameterNames)
open StackLang.Tree

/-! ## Function nodes -/

/-- What a function node consists of. -/
structure Tree.Parts where
  location : Location
  start : Location
  place : Location
  name : String
  type : String
  formals : List Formal
  body : List Tree

namespace Tree.Parts

/-- The function node. -/
def tree (f : Parts) : Tree :=
  functionNode f.location f.name (parametersNode f.start (f.formals.map Formal.tree)) f.type
    (blockNode f.place f.body)

/-- The names of the parameters. -/
def parameters (f : Parts) : List String := f.formals.map Formal.name

/-- What calls have to know. -/
def signature (f : Parts) : Signature :=
  ⟨f.name, PrimitiveType.ofSpelling? f.type, f.formals.length⟩

/-- The function as the compiler reads it. -/
def written (f : Parts) : Function where
  name := some f.name
  location := some f.location
  returnType := some f.type
  parameters := f.formals.map fun p => ⟨some p.name, some p.location⟩
  locals := declarationsAll f.body
  body := some (Stmt.ofTrees f.body)

/-- What gets code. -/
def definition (f : Parts) : Definition := ⟨f.name, f.signature, f.written, Stmt.ofTrees f.body⟩

theorem ofTree_tree (f : Parts) : Function.ofTree f.tree = f.written :=
  Function.ofTree_functionNode f.location f.start f.place f.name f.type f.formals f.body

@[simp] theorem signature?_written (f : Parts) : f.written.signature? = some f.signature := by
  simp [Function.signature?, written, signature]

@[simp] theorem kind_tree (f : Parts) : f.tree.kind = .function := rfl

@[simp] theorem get?_tree (f : Parts) : f.tree.get? "name" = some f.name := rfl

theorem first?_block_tree (f : Parts) :
    f.tree.first? .block = some (blockNode f.place f.body) := rfl

@[simp] theorem parameterNames_tree (f : Parts) : parameterNames f.tree = f.parameters := by
  have hfirst : f.tree.first? .parameterList =
      some (parametersNode f.start (f.formals.map Formal.tree)) := rfl
  have hchildren : (parametersNode f.start (f.formals.map Formal.tree)).children =
      f.formals.map Formal.tree := rfl
  have hname (p : Formal) : p.tree.get? "name" = some p.name := rfl
  rw [parameterNames, hfirst, Option.map_some, Option.getD_some, hchildren, List.filterMap_map,
    parameters, ← List.filterMap_eq_map]
  exact List.filterMap_congr fun p _ => hname p

theorem length_parameters (f : Parts) : f.parameters.length = f.formals.length :=
  List.length_map _

end Tree.Parts

theorem Tree.IsValue.kind_ne_function {t : Tree} (h : t.IsValue) : t.kind ≠ .function := by
  cases h with
  | operator kind op left right location _ htakes =>
    rintro rfl
    cases htakes
  | _ => simp

/-- A function among statements has the parts of a function. -/
theorem Tree.IsStatement.exists_parts {t : Tree} (h : t.IsStatement) (hkind : t.kind = .function) :
    ∃ f : Parts, t = f.tree ∧ ∀ s ∈ f.body, s.IsStatement := by
  cases h with
  | function location start place name type formals body hbody =>
    exact ⟨⟨location, start, place, name, type, formals, body⟩, rfl, hbody⟩
  | value t hvalue => exact absurd hkind hvalue.kind_ne_function
  | _ => cases hkind

theorem Tree.exists_parts {statements : List Tree} (h : ∀ t ∈ statements, t.IsStatement) :
    ∃ fs : List Parts, statements.filter (·.kind = .function) = fs.map Parts.tree ∧
      ∀ f ∈ fs, ∀ s ∈ f.body, s.IsStatement := by
  induction statements with
  | nil => exact ⟨[], rfl, by simp⟩
  | cons t ts ih =>
    obtain ⟨fs, hfs, hbodies⟩ := ih fun u hu => h u (List.mem_cons_of_mem t hu)
    by_cases hkind : t.kind = .function
    · obtain ⟨f, rfl, hbody⟩ := (h t List.mem_cons_self).exists_parts hkind
      refine ⟨f :: fs, ?_, List.forall_mem_cons.mpr ⟨hbody, hbodies⟩⟩
      rw [List.filter_cons_of_pos (by simp), hfs, List.map_cons]
    · refine ⟨fs, ?_, hbodies⟩
      rw [List.filter_cons_of_neg (by simp [hkind]), hfs]

/-- The script of a program node. -/
theorem Script.ofTree?_program (location : Location) {statements : List Tree} {fs : List Parts}
    (hfs : statements.filter (·.kind = .function) = fs.map Parts.tree) :
    Script.ofTree? (plainNode .program location statements) =
      some { declared := statements.filterMap Script.declared?
             entry := Stmt.ofTrees (statements.filter (·.kind ≠ .function))
             functions := fs.map Parts.written } := by
  have hfunctions : (plainNode .program location statements).childrenOf .function =
      fs.map Parts.tree := hfs
  simp only [Script.ofTree?, hfunctions, List.map_map]
  simp [plainNode, Function.comp_def, Parts.ofTree_tree]

/-- The function that a name means is looked for among the function nodes. -/
theorem functionNamed?_program (location : Location) {statements : List Tree} {fs : List Parts}
    (hfs : statements.filter (·.kind = .function) = fs.map Parts.tree) (name : String) :
    functionNamed? (plainNode .program location statements) name =
      (fs.find? (·.name = name)).map Parts.tree := by
  have hfind : functionNamed? (plainNode .program location statements) name =
      (statements.filter (·.kind = .function)).find? (·.get? "name" = some name) := by
    simp [functionNamed?, plainNode, List.find?_filter]
  rw [hfind, hfs, List.find?_map]
  simp only [Function.comp_def, Parts.get?_tree, Option.some.injEq]

/-! ## Unique names -/

section Fresh

variable {α : Type}

/-- Names that are different from each other and were not seen before. -/
def Fresh (seen names : List α) : Prop := names.Nodup ∧ ∀ n ∈ names, n ∉ seen

theorem fresh_nil (seen : List α) : Fresh seen [] := ⟨List.nodup_nil, by simp⟩

theorem fresh_cons {seen names : List α} {n : α} :
    Fresh seen (n :: names) ↔ n ∉ seen ∧ Fresh (n :: seen) names := by
  rw [Fresh, Fresh, List.nodup_cons, List.forall_mem_cons]
  simp only [List.mem_cons, not_or]
  constructor
  · rintro ⟨⟨hhead, hnodup⟩, hn, hrest⟩
    exact ⟨hn, hnodup, fun m hm => ⟨fun heq => hhead (heq ▸ hm), hrest m hm⟩⟩
  · rintro ⟨hn, hnodup, hrest⟩
    exact ⟨⟨fun hmem => (hrest n hmem).1 rfl, hnodup⟩, hn, fun m hm => (hrest m hm).2⟩

theorem fresh_empty {names : List α} : Fresh [] names ↔ names.Nodup := by
  simp [Fresh]

end Fresh

theorem Script.repeatedFrom_eq_nil {seen : List String} {ds : List (String × Option Location)} :
    Script.repeatedFrom seen ds = [] ↔ Fresh seen (ds.map (·.1)) := by
  induction ds generalizing seen with
  | nil => exact iff_of_true rfl (fresh_nil seen)
  | cons d ds ih =>
    rw [Script.repeatedFrom, List.map_cons, fresh_cons, ← ih]
    by_cases hd : d.1 ∈ seen <;> simp [hd]

theorem Parameter.repeatedFrom_eq_nil {seen : List (Option String)} {ps : List Parameter} :
    Parameter.repeatedFrom seen ps = [] ↔ Fresh seen (ps.map Parameter.name) := by
  induction ps generalizing seen with
  | nil => exact iff_of_true rfl (fresh_nil seen)
  | cons p ps ih =>
    rw [Parameter.repeatedFrom, List.map_cons, fresh_cons, ← ih]
    by_cases hp : p.name ∈ seen <;> simp [hp]

/-- Nothing is erased where no two elements are taken for the same. -/
theorem eraseDupsBy_loop_eq {α : Type} {r : α → α → Bool} {as bs : List α}
    (has : as.Pairwise fun a b => r b a = false) (hbs : ∀ a ∈ as, ∀ b ∈ bs, r a b = false) :
    List.eraseDupsBy.loop r as bs = bs.reverse ++ as := by
  induction as generalizing bs with
  | nil => simp [List.eraseDupsBy.loop]
  | cons a as ih =>
    obtain ⟨hhead, htail⟩ := List.pairwise_cons.mp has
    have hany : bs.any (r a) = false := by
      simpa using hbs a List.mem_cons_self
    have hbs' : ∀ c ∈ as, ∀ b ∈ a :: bs, r c b = false := fun c hc =>
      List.forall_mem_cons.mpr ⟨hhead c hc, hbs c (List.mem_cons_of_mem a hc)⟩
    rw [List.eraseDupsBy.loop, hany]
    simpa using ih htail hbs'

theorem eraseDups_eq_self {names : List String} (h : names.Nodup) : names.eraseDups = names := by
  rw [List.eraseDups, List.eraseDupsBy]
  refine (eraseDupsBy_loop_eq (List.Pairwise.imp ?_ h) (by simp)).trans (by simp)
  intro a b hne
  simpa using hne.symm

/-- Functions with different names have their signatures. -/
theorem Script.signatures_eq {s : Script} {fs : List Parts}
    (hfunctions : s.functions = fs.map Parts.written) (hnodup : (fs.map Parts.name).Nodup) :
    s.signatures = fs.map Parts.signature := by
  have hsignatures : s.functions.filterMap Function.signature? = fs.map Parts.signature := by
    rw [hfunctions, List.filterMap_map, ← List.filterMap_eq_map]
    exact List.filterMap_congr fun f _ => f.signature?_written
  have hpairwise : (fs.map Parts.signature).Pairwise fun f g => (g.name == f.name) = false := by
    refine List.pairwise_map.mpr (List.Pairwise.imp ?_ (List.pairwise_map.mp hnodup))
    intro f g hne
    simpa [Parts.signature] using hne.symm
  rw [Script.signatures, hsignatures, List.eraseDupsBy]
  exact (eraseDupsBy_loop_eq hpairwise (by simp)).trans (by simp)

/-- What the compiler makes of a function, given all signatures. -/
def Tree.Parts.defined (signatures : List Signature) (f : Parts) : Fate :=
  .defined ⟨f.name, (signatures.find? (·.name = f.name)).getD ⟨f.name, none, f.formals.length⟩,
    f.written, Stmt.ofTrees f.body⟩

/-- Functions with fresh names get code. -/
theorem Script.fatesFrom_of_fresh (signatures : List Signature) {seen : List String}
    {fs : List Parts} (h : Fresh seen (fs.map Parts.name)) :
    Script.fatesFrom signatures seen (fs.map Parts.written) =
      fs.map (Parts.defined signatures) := by
  induction fs generalizing seen with
  | nil => rfl
  | cons f fs ih =>
    rw [List.map_cons, fresh_cons] at h
    obtain ⟨hf, hfs⟩ := h
    rw [List.map_cons, Script.fatesFrom, List.map_cons, Parts.defined, ← ih hfs]
    simp [Parts.written, hf]

/-- Where nothing is found, the names of the functions are fresh. -/
theorem Script.fresh_of_fatesFrom {σ : Scope} {signatures : List Signature} {seen : List String}
    {fs : List Parts}
    (h : (Script.fatesFrom signatures seen (fs.map Parts.written)).flatMap (Fate.findings σ) = []) :
    Fresh seen (fs.map Parts.name) := by
  induction fs generalizing seen with
  | nil => exact fresh_nil seen
  | cons f fs ih =>
    rw [List.map_cons, fresh_cons]
    by_cases hf : f.name ∈ seen
    · simp [Script.fatesFrom, Parts.written, hf, Fate.findings] at h
    · simp only [List.map_cons, Script.fatesFrom, Parts.written] at h
      simp only [List.contains_eq_mem, hf, decide_false, Bool.false_eq_true, if_false,
        List.flatMap_cons, List.append_eq_nil_iff] at h
      exact ⟨hf, ih h.2⟩

/-! ## Scripts in which nothing is found -/

/-- Among functions with different names each one is found by its name. -/
theorem find?_name_of_nodup {fs : List Parts} (hnodup : (fs.map Parts.name).Nodup) {f : Parts}
    (hf : f ∈ fs) : fs.find? (·.name = f.name) = some f := by
  induction fs with
  | nil => cases hf
  | cons g fs ih =>
    rw [List.map_cons, List.nodup_cons] at hnodup
    rcases List.mem_cons.mp hf with rfl | hf
    · simp
    · have hne : g.name ≠ f.name := fun heq => hnodup.1 (heq ▸ List.mem_map_of_mem hf)
      rw [List.find?_cons_of_neg (by simpa using hne), ih hnodup.2 hf]

variable {s : Script} {fs : List Parts}

/-- The functions of a script with different names all get code. -/
theorem Script.fates_eq (hfunctions : s.functions = fs.map Parts.written)
    (hnodup : (fs.map Parts.name).Nodup) :
    s.fates = fs.map fun f => .defined f.definition := by
  rw [Script.fates, hfunctions, Script.fatesFrom_of_fresh _ (fresh_empty.mpr hnodup)]
  apply List.map_congr_left
  intro f hf
  have hfind : s.signatures.find? (·.name = f.name) = some f.signature := by
    have hf' := find?_name_of_nodup hnodup hf
    rw [Script.signatures_eq hfunctions hnodup, List.find?_map]
    exact congrArg (Option.map Parts.signature) hf'
  rw [Parts.defined, hfind]
  rfl

theorem Script.definitions_eq (hfunctions : s.functions = fs.map Parts.written)
    (hnodup : (fs.map Parts.name).Nodup) : s.definitions = fs.map Parts.definition := by
  rw [Script.definitions, Script.fates_eq hfunctions hnodup, List.filterMap_map,
    ← List.filterMap_eq_map]
  rfl

theorem Tree.Parts.findings_definition (σ : Scope) (f : Parts) :
    f.definition.findings σ = [] ↔
      f.parameters.Nodup ∧ (Stmt.ofTrees f.body).findings (f.definition.scope σ) = [] := by
  have hnames : f.written.parameters.map Parameter.name = f.parameters.map some := by
    simp [written, parameters, Function.comp_def]
  have hparameters : Parameter.repeatedFrom [] f.written.parameters = [] ↔ f.parameters.Nodup := by
    rw [Parameter.repeatedFrom_eq_nil, fresh_empty, hnames,
      List.nodup_map_iff (Option.some_injective String)]
  rw [Definition.findings, List.append_eq_nil_iff, List.map_eq_nil_iff]
  exact and_congr hparameters Iff.rfl

/-- Nothing is found in a script exactly if its names are unique and nothing is found in its
statements. -/
theorem Script.findings_eq_nil (hfunctions : s.functions = fs.map Parts.written) :
    s.findings = [] ↔
      (s.declared.map (·.1)).Nodup ∧ (fs.map Parts.name).Nodup ∧
        (∀ f ∈ fs, f.parameters.Nodup) ∧ s.entry.findings s.startScope = [] ∧
        ∀ f ∈ fs, (Stmt.ofTrees f.body).findings (f.definition.scope s.functionScope) = [] := by
  have hentry : s.entryFindings = [] ↔
      (s.declared.map (·.1)).Nodup ∧ s.entry.findings s.startScope = [] := by
    rw [Script.entryFindings, List.append_eq_nil_iff, List.map_eq_nil_iff,
      Script.repeatedFrom_eq_nil, fresh_empty]
  have hfates (hnodup : (fs.map Parts.name).Nodup) :
      s.fates.flatMap (Fate.findings s.functionScope) = [] ↔
        ∀ f ∈ fs, f.parameters.Nodup ∧
          (Stmt.ofTrees f.body).findings (f.definition.scope s.functionScope) = [] := by
    rw [Script.fates_eq hfunctions hnodup, List.flatMap_eq_nil_iff, List.forall_mem_map]
    exact forall₂_congr fun f _ => f.findings_definition s.functionScope
  rw [Script.findings, List.append_eq_nil_iff, hentry]
  constructor
  · rintro ⟨⟨hdeclared, hnone⟩, hfound⟩
    have hnodup : (fs.map Parts.name).Nodup := by
      rw [Script.fates, hfunctions] at hfound
      exact fresh_empty.mp (Script.fresh_of_fatesFrom hfound)
    have hbodies := (hfates hnodup).mp hfound
    exact ⟨hdeclared, hnodup, fun f hf => (hbodies f hf).1, hnone, fun f hf => (hbodies f hf).2⟩
  · rintro ⟨hdeclared, hnodup, hparameters, hnone, hbodies⟩
    exact ⟨⟨hdeclared, hnone⟩,
      (hfates hnodup).mpr fun f hf => ⟨hparameters f hf, hbodies f hf⟩⟩

/-! ## Scopes of functions -/

/-- Of several parameters with one name the first one counts. -/
theorem Scope.lookup_enter (σ : Scope) (f : Signature) (ps : List Parameter)
    (name : Option String) :
    (σ.enter f ps).locals.lookup name =
      ((ps.zipIdx.find? (·.1.name = name)).map (·.2)).map
        fun i : Nat => -((ps.length : Int) - i + 2) := by
  have hfold (qs : List (Parameter × Nat)) (acc : List (Option String × Int)) (n : Int) :
      (qs.foldl (fun locals p => if (locals.lookup p.1.name).isSome then locals
        else (p.1.name, -(n - p.2 + 2)) :: locals) acc).lookup name =
        (acc.lookup name).or ((qs.find? (·.1.name = name)).map fun p => -(n - p.2 + 2)) := by
    induction qs generalizing acc with
    | nil => simp
    | cons q qs ih =>
      rw [List.foldl_cons, ih]
      by_cases hq : q.1.name = name
      · subst hq
        cases hlookup : acc.lookup q.1.name <;> simp [hlookup]
      · have hne : (name == q.1.name) = false := beq_false_of_ne (Ne.symm hq)
        rw [List.find?_cons_of_neg (by simpa using hq)]
        split
        · rfl
        · rw [List.lookup_cons, hne]
  have hlocals := hfold ps.zipIdx [] ps.length
  simpa [Scope.enter, Function.comp_def] using hlocals

/-- The place of the first of the parameters with a name. -/
theorem find?_zipIdx_name {ps : List Parameter} {names : List String}
    (h : ps.map Parameter.name = names.map some) (name : String) (k : Nat) :
    ((ps.zipIdx k).find? (·.1.name = some name)).map (·.2) =
      if name ∈ names then some (k + names.idxOf name) else none := by
  induction ps generalizing names k with
  | nil =>
    cases List.map_eq_nil_iff.mp h.symm
    rfl
  | cons p ps ih =>
    obtain ⟨n, names, rfl, hn, hnames⟩ := List.map_eq_cons_iff.mp h.symm
    rw [List.zipIdx_cons]
    by_cases hp : n = name
    · simp [← hn, hp]
    · have hne : ¬p.name = some name := by simpa [← hn] using hp
      rw [List.find?_cons_of_neg (by simpa using hne), ih hnames.symm]
      by_cases hname : name ∈ names
      · simp only [hname, List.mem_cons, or_true, if_true]
        rw [List.idxOf_cons_ne _ hp]
        congr 1
        omega
      · simp [hname, Ne.symm hp]

/-- At the start of a function its frame has the parameters: the last one stands just below the two
words that a call saves. -/
theorem Scope.lookup_enter_name {ps : List Parameter} {names : List String}
    (h : ps.map Parameter.name = names.map some) (σ : Scope) (f : Signature) (name : String) :
    (σ.enter f ps).locals.lookup (some name) =
      if name ∈ names then some (-((names.length : Int) - names.idxOf name + 2)) else none := by
  have hlength : ps.length = names.length := by simpa using congrArg List.length h
  rw [Scope.lookup_enter, find?_zipIdx_name h, hlength]
  split
  · rw [Option.map_some, Nat.zero_add]
  · rfl

theorem Tree.Parts.lookup_scope (f : Parts) (σ : Scope) (name : String) :
    (f.definition.scope σ).locals.lookup (some name) =
      if name ∈ f.parameters then
        some (-((f.parameters.length : Int) - f.parameters.idxOf name + 2)) else none := by
  have hnames : f.written.parameters.map Parameter.name = f.parameters.map some := by
    simp [Parts.written, Parts.parameters, Function.comp_def]
  exact Scope.lookup_enter_name hnames σ f.signature name

/-! ## Parsed programs -/

/-- A parsed program: its statements, its functions among them, and its script. -/
structure Script.Reading (tree : Tree) (statements : List Tree) (fs : List Parts) (s : Script) :
    Prop where
  program : ∃ location, tree = plainNode .program location statements
  isStatement : ∀ t ∈ statements, t.IsStatement
  parts : statements.filter (·.kind = .function) = fs.map Parts.tree
  bodies : ∀ f ∈ fs, ∀ t ∈ f.body, t.IsStatement
  script : Script.ofTree? tree = some s

theorem Source.exists_reading {file source : String} {tree : Tree}
    (h : Source.tree file source = .ok tree) :
    ∃ statements fs s, Script.Reading tree statements fs s := by
  obtain ⟨location, statements, rfl, hstatements⟩ := Source.exists_statements h
  obtain ⟨fs, hfs, hbodies⟩ := Tree.exists_parts hstatements
  exact ⟨statements, fs, _, ⟨location, rfl⟩, hstatements, hfs, hbodies,
    Script.ofTree?_program location hfs⟩

namespace Script.Reading

variable {tree : Tree} {statements : List Tree}

theorem script_eq (h : Reading tree statements fs s) :
    s = { declared := statements.filterMap Script.declared?
          entry := Stmt.ofTrees (statements.filter (·.kind ≠ .function))
          functions := fs.map Parts.written } := by
  obtain ⟨location, hprogram⟩ := h.program
  have hscript := h.script
  rw [hprogram, Script.ofTree?_program location h.parts] at hscript
  exact (Option.some.inj hscript).symm

theorem children (h : Reading tree statements fs s) : tree.children = statements := by
  obtain ⟨location, rfl⟩ := h.program
  rfl

theorem kind (h : Reading tree statements fs s) : tree.kind = .program := by
  obtain ⟨location, rfl⟩ := h.program
  rfl

theorem childrenOf_function (h : Reading tree statements fs s) :
    tree.childrenOf .function = fs.map Parts.tree := by
  rw [← h.parts, childrenOf, h.children]

theorem entry_eq (h : Reading tree statements fs s) :
    s.entry = Stmt.ofTrees (entryStatements tree) := by
  rw [h.script_eq, entryStatements, h.children]

theorem isStatement_entry (h : Reading tree statements fs s) :
    ∀ t ∈ entryStatements tree, t.IsStatement := by
  intro t ht
  rw [entryStatements, h.children] at ht
  exact h.isStatement t (List.mem_of_mem_filter ht)

theorem follows_entry (h : Reading tree statements fs s) :
    s.entry.Follows (walkAll (entryStatements tree)) := by
  rw [h.entry_eq]
  exact Stmt.follows_ofTrees fun t ht => (h.isStatement_entry t ht).follows

theorem follows_body (h : Reading tree statements fs s) {f : Parts} (hf : f ∈ fs) :
    (Stmt.ofTrees f.body).Follows (walkAll f.body) :=
  Stmt.follows_ofTrees fun t ht => (h.bodies f hf t ht).follows

theorem functions (h : Reading tree statements fs s) : s.functions = fs.map Parts.written :=
  congrArg Script.functions h.script_eq

theorem functionNamed? (h : Reading tree statements fs s) (name : String) :
    Meaning.functionNamed? tree name = (fs.find? (·.name = name)).map Parts.tree := by
  obtain ⟨location, hprogram⟩ := h.program
  rw [hprogram, functionNamed?_program location h.parts]

theorem find?_signatures (h : Reading tree statements fs s) (hnodup : (fs.map Parts.name).Nodup)
    (name : String) :
    s.signatures.find? (fun f => some f.name = some name) =
      (fs.find? (·.name = name)).map Parts.signature := by
  rw [Script.signatures_eq h.functions hnodup, List.find?_map]
  simp only [Function.comp_def, Option.some.injEq]
  rfl

end Script.Reading

end StackLang
