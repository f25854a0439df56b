import StackLang.Proofs.Uses

/-!
# Slots of variables

Where the variables of a function live, read off its text: each declaration has a slot of its own,
numbered in the order of the text, parameters lie below the two words that a call saves, and a name
that is neither declared so far nor a parameter is global. The code of a function reserves exactly
one slot for each declaration and uses exactly these places.
-/

namespace StackLang

/-! ## Counting declarations -/

namespace Tree

theorem declarationsAll_eq_length {ts : List Tree}
    (h : ∀ t ∈ ts, t.declarations = t.ownNames.length) :
    declarationsAll ts = (ownNamesAll ts).length := by
  induction ts with
  | nil => rfl
  | cons t ts ih =>
    obtain ⟨ht, hts⟩ := List.forall_mem_cons.mp h
    rw [declarationsAll, ownNamesAll, ht, ih hts, List.length_append]

/-- The count made before the code of a function agrees with the names in its text. -/
theorem declarations_eq_length (t : Tree) (h : t.InForm) :
    t.declarations = t.ownNames.length := by
  induction t using walk_induction with
  | h t ih =>
    have hchildren : declarationsAll t.children = (ownNamesAll t.children).length :=
      declarationsAll_eq_length fun c hc => ih c (mem_walkAll_of_mem hc) (h.children c hc)
    have hform := h.hasForm
    obtain ⟨kind, value, attributes, children, location⟩ := t
    cases kind with
    | function => rfl
    | variableDeclaration =>
      obtain ⟨name, hname⟩ := hform.exists_name rfl
      simp only [declarations, ownNames, hname, hchildren, List.length_append, Option.toList_some,
        List.length_singleton, reduceCtorEq, if_true, if_false]
    | _ => exact (Nat.zero_add _).trans hchildren

end Tree

/-! ## The slots of declarations -/

/-- The uses that give the variables of these declarations their values. -/
def Use.initsFrom (declared : List String) : List String → List Use
  | [] => []
  | name :: names => ⟨.init, name, name :: declared⟩ :: initsFrom (name :: declared) names

namespace Use

theorem initsFrom_append (declared names names' : List String) :
    initsFrom declared (names ++ names') =
      initsFrom declared names ++ initsFrom (names.reverse ++ declared) names' := by
  induction names generalizing declared with
  | nil => rfl
  | cons name names ih =>
    rw [List.cons_append, initsFrom, initsFrom, ih, List.reverse_cons, List.append_assoc]
    rfl

/-- Declarations get the slots of the frame one by one. -/
theorem map_place?_initsFrom (parameters globals declared names : List String) :
    (initsFrom declared names).map (fun u => (u.name, u.place? parameters globals)) =
      (names.zipIdx declared.length).map fun n => (n.1, some (.frame n.2)) := by
  induction names generalizing declared with
  | nil => rfl
  | cons name names ih =>
    rw [initsFrom, List.map_cons, ih, List.zipIdx_cons, List.map_cons, List.length_cons]
    simp [place?, Simulation.offset?, Meaning.latest?]

end Use

namespace Tree

theorem filter_init_usesAll {ts : List Tree}
    (h : ∀ t ∈ ts, ∀ declared, (t.uses declared).filter (·.kind = .init) =
      Use.initsFrom declared t.ownNames) (declared : List String) :
    (usesAll declared ts).filter (·.kind = .init) = Use.initsFrom declared (ownNamesAll ts) := by
  induction ts generalizing declared with
  | nil => rfl
  | cons t ts ih =>
    obtain ⟨ht, hts⟩ := List.forall_mem_cons.mp h
    rw [usesAll, ownNamesAll, List.filter_append, ht, ih hts, Use.initsFrom_append]

/-- Each declaration of the text gives its variable a value once, in the order of the text. -/
theorem filter_init_uses (t : Tree) (h : t.InForm) (declared : List String) :
    (t.uses declared).filter (·.kind = .init) = Use.initsFrom declared t.ownNames := by
  induction t using walk_induction generalizing declared with
  | h t ih =>
    have hchildren (declared : List String) :
        (usesAll declared t.children).filter (·.kind = .init) =
          Use.initsFrom declared (ownNamesAll t.children) :=
      filter_init_usesAll (fun c hc => ih c (mem_walkAll_of_mem hc) (h.children c hc)) declared
    have hform := h.hasForm
    have hparts := h.children
    obtain ⟨kind, value, attributes, children, location⟩ := t
    cases kind with
    | function => rfl
    | identifier =>
      cases List.map_eq_nil_iff.mp hform.children
      cases value <;> rfl
    | assignment =>
      simp only [uses, ownNames, List.filter_append, hchildren]
      cases attributes.get? "name" <;> simp
    | variableDeclaration =>
      obtain ⟨name, hname⟩ := hform.exists_name rfl
      have hnil : ownNamesAll children = [] := ownNamesAll_eq_nil fun c hc =>
        ownNames_eq_nil c (hparts c hc) (by
          simp [Kind.isOperation, hform.children.2 _ (List.mem_map_of_mem hc)])
      simp only [uses, ownNames, List.filter_append, hchildren, hnil, hname]
      rfl
    | _ => exact hchildren declared

/-! ## Functions -/

theorem map_name_eq {ts : List Tree} (h : ∀ t ∈ ts, ∃ name, t.get? "name" = some name) :
    ts.map (·.get? "name") = (ts.filterMap (·.get? "name")).map some := by
  induction ts with
  | nil => rfl
  | cons t ts ih =>
    obtain ⟨⟨name, hname⟩, hts⟩ := List.forall_mem_cons.mp h
    simp [hname, ih hts]

/-- A function node in form: its parameters have names, and it has a name and a body. -/
theorem InForm.exists_function {f : Tree} (h : f.InForm) (hkind : f.kind = .function) :
    ∃ name body, f.get? "name" = some name ∧ f.first? .block = some body ∧ body.InForm ∧
      body.kind = .block ∧ (Function.ofTree f).parameters.map Parameter.name =
        (Meaning.parameterNames f).map some := by
  have hform := h.hasForm
  have hparts := h.children
  obtain ⟨kind, value, attributes, children, location⟩ := f
  cases hkind
  obtain ⟨name, hname⟩ := hform.exists_name rfl
  obtain ⟨list, rest, rfl, hlist, hrest⟩ := List.map_eq_cons_iff.mp hform.children
  obtain ⟨body, rest, rfl, hbody, hrest⟩ := List.map_eq_cons_iff.mp hrest
  simp only [List.forall_mem_cons] at hparts
  obtain ⟨hlistForm, hbodyForm, -⟩ := hparts
  refine ⟨name, body, hname, by simp [first?, hlist, hbody], hbodyForm, hbody, ?_⟩
  have hnames : ∀ p ∈ list.children, ∃ n, p.get? "name" = some n := by
    intro p hp
    have hkinds := hlistForm.hasForm.children
    rw [hlist] at hkinds
    have hkind : p.kind = .parameter := hkinds p.kind (List.mem_map_of_mem hp)
    exact (hlistForm.children p hp).hasForm.exists_name (by rw [hkind]; rfl)
  simp only [Function.ofTree, Meaning.parameterNames, first?, List.find?_cons, hlist, decide_true,
    Option.map_some, Option.getD_some, List.map_map]
  exact map_name_eq hnames

end Tree

/-- At the start of a function its parameters are known. -/
theorem Scope.knows_enter {parameters : List String} {ps : List Parameter}
    (h : ps.map Parameter.name = parameters.map some) (σ : Scope) (f : Signature) :
    (σ.enter f ps).Knows parameters σ.globals [] where
  inside := rfl
  globals := rfl
  frameSize := rfl
  lookup name := by
    rw [Scope.lookup_enter_name h]
    rfl

namespace Script

/-- Of several functions with one name, the first one gets code if it has a body. -/
theorem exists_defined {signatures : List Signature} {seen : List String} {fs : List Function}
    {name : String} {f : Function} {body : Stmt} (hfind : fs.find? (·.name = some name) = some f)
    (hbody : f.body = some body) (hseen : name ∉ seen) :
    ∃ signature, .defined ⟨name, signature, f, body⟩ ∈ fatesFrom signatures seen fs := by
  induction fs generalizing seen with
  | nil => cases hfind
  | cons g fs ih =>
    by_cases hg : g.name = some name
    · rw [List.find?_cons_of_pos (by simpa using hg)] at hfind
      cases hfind
      simp only [fatesFrom, hg, hbody]
      rw [if_neg (by simpa using hseen)]
      exact ⟨_, List.mem_cons_self⟩
    · rw [List.find?_cons_of_neg (by simpa using hg)] at hfind
      rw [fatesFrom]
      split
      · rename_i other _ hname _
        split
        · obtain ⟨signature, hmem⟩ := ih hfind hseen
          exact ⟨signature, List.mem_cons_of_mem _ hmem⟩
        · have hne : name ≠ other := by
            rintro rfl
            exact hg hname
          obtain ⟨signature, hmem⟩ := ih hfind
            (fun hmem => (List.mem_cons.mp hmem).elim hne hseen)
          exact ⟨signature, List.mem_cons_of_mem _ hmem⟩
      · obtain ⟨signature, hmem⟩ := ih hfind hseen
        exact ⟨signature, List.mem_cons_of_mem _ hmem⟩

/-- No two functions with code have one name. -/
theorem fresh_definitions (signatures : List Signature) (seen : List String)
    (fs : List Function) :
    Fresh seen
      (((fatesFrom signatures seen fs).filterMap Fate.definition?).map Definition.name) := by
  induction fs generalizing seen with
  | nil => exact fresh_nil seen
  | cons f fs ih =>
    rw [fatesFrom]
    split
    · split
      · exact ih seen
      · rename_i hseen
        exact fresh_cons.mpr ⟨by simpa using hseen, ih _⟩
    · exact ih seen

theorem nodup_definitions (s : Script) : (s.definitions.map Definition.name).Nodup := by
  rw [definitions_eq_filterMap]
  exact fresh_empty.mp (fresh_definitions s.signatures [] s.functions)

/-- A function that is the first of its name has a definition. -/
theorem exists_definition {t f body : Tree} {name : String} {s : Script}
    (hs : ofTree? t = some s) (hf : Meaning.functionNamed? t name = some f)
    (hbody : f.first? .block = some body) :
    ∃ d ∈ s.definitions, d.name = name ∧ d.written = Function.ofTree f ∧
      d.body = Stmt.ofBlock body := by
  rw [ofTree?] at hs
  split at hs
  · obtain rfl := Option.some.inj hs
    have hfind : ((t.childrenOf .function).map Function.ofTree).find? (·.name = some name) =
        some (Function.ofTree f) := by
      rw [List.find?_map, Tree.childrenOf, List.find?_filter]
      refine Option.map_eq_some_iff.mpr ⟨f, ?_, rfl⟩
      rw [← hf, Meaning.functionNamed?]
      simp only [Bool.decide_and, Bool.decide_eq_true, Function.comp_apply]
      rfl
    have hwritten : (Function.ofTree f).body = some (Stmt.ofBlock body) :=
      congrArg (Option.map Stmt.ofBlock) hbody
    obtain ⟨signature, hmem⟩ := exists_defined hfind hwritten List.not_mem_nil
    rw [definitions_eq_filterMap]
    exact ⟨_, List.mem_filterMap.mpr ⟨_, hmem, rfl⟩, rfl, rfl, rfl⟩
  · cases hs

end Script

namespace Program

/-- The operations in a region, in the order of their addresses. -/
def operationsIn (p : Program) (region : Nat) : List Operation :=
  (p.code.toList.zipIdx.filter (p.region ·.2 = region)).map (·.1.operation)

end Program

/-- The code of a definition is the region of its entry. -/
theorem Script.exists_operationsIn {s : Script} {d : Definition} (hd : d ∈ s.definitions)
    (comments : Bool) :
    ∃ address, (s.program comments).functions.lookup d.name = some address ∧
      (s.program comments).operationsIn ((s.program comments).region address) =
        (Draft.link comments s.entries address (d.code s.functionScope)).map
          Instruction.operation := by
  obtain ⟨before, after, hsplit⟩ := List.append_of_mem hd
  have hpieces := pieces_eq hsplit
  have hlookup : s.entries.lookup d.name = some (s.entryCode.length +
      (before.flatMap (Definition.code s.functionScope)).length) := by
    have hnodup := s.nodup_definitions
    rw [hsplit] at hnodup
    rw [entries, hsplit]
    exact lookup_entriesFrom hnodup
  have hregion : (s.program comments).region _ = _ :=
    region_program hpieces (List.length_pos_of_ne_nil (List.cons_ne_nil _ _))
  have hoperations : ((s.program comments).code.toList.zipIdx.filter _).filterMap _ = _ :=
    filterMap_region (fun i => some i.operation) hpieces
  rw [Nat.add_zero, length_flatten_pieces] at hregion
  rw [Nat.zero_add, length_flatten_pieces, List.filterMap_eq_map', List.filterMap_eq_map']
    at hoperations
  refine ⟨_, hlookup, ?_⟩
  rw [Program.operationsIn, hregion]
  exact hoperations

/-! ## The frame of a function -/

/-- The parameters, the two words that a call saves and the declarations take different words of a
frame. -/
theorem nodup_offsets (parameters locals : Nat) :
    ((List.range parameters).map (fun i : Nat => -((parameters : Int) - i + 2)) ++ [-2, -1] ++
      (List.range locals).map Int.ofNat).Nodup := by
  have hparameters : ((List.range parameters).map
      fun i : Nat => -((parameters : Int) - i + 2)).Nodup :=
    List.nodup_range.map fun i j h => by omega
  have hlocals : ((List.range locals).map Int.ofNat).Nodup :=
    List.nodup_range.map fun i j h => Int.ofNat.inj h
  refine List.nodup_append.mpr ⟨List.nodup_append.mpr ⟨hparameters, by decide, ?_⟩, hlocals, ?_⟩
  · simp only [List.mem_map, List.mem_range, List.mem_cons, List.not_mem_nil, or_false]
    rintro _ ⟨i, hi, rfl⟩ b hb
    omega
  · simp only [List.mem_append, List.mem_map, List.mem_range, List.mem_cons, List.not_mem_nil,
      or_false]
    rintro a ha _ ⟨i, hi, rfl⟩
    rcases ha with ⟨j, hj, rfl⟩ | rfl | rfl
    all_goals
      simp only [Int.ofNat_eq_natCast]
      omega

/-- The variables of the function `f` with this body live where the text says. -/
structure Script.Frames (s : Script) (name : String) (f body : Tree) : Prop where
  /-- Before its code is made, as many words are counted as are then given to its variables, and as
  the text has declarations. -/
  counted : ∃ d ∈ s.definitions, d.name = name ∧ d.written = Function.ofTree f ∧
    d.written.locals = body.ownNames.length ∧
    (d.scope s.functionScope).frameSize = 0 ∧
    (d.body.scopeAfter (d.scope s.functionScope)).frameSize = body.ownNames.length ∧
    ∀ n ∈ Meaning.parameterNames f, (d.scope s.functionScope).resolve? (some n) =
      some (.frame (-(((Meaning.parameterNames f).length : Int) -
        (Meaning.parameterNames f).idxOf n + 2)))
  /-- The declarations have the offsets from zero on in the order of the text. -/
  declared : ((body.uses []).filter (·.kind = .init)).map
      (fun u => (u.name, u.place? (Meaning.parameterNames f) s.functionScope.globals)) =
    body.ownNames.zipIdx.map fun n => (n.1, some (.frame n.2))
  /-- No two of the parameters, the words that a call saves and the declarations share an offset. -/
  disjoint : ((List.range (Meaning.parameterNames f).length).map
      (fun i : Nat => -(((Meaning.parameterNames f).length : Int) - i + 2)) ++ [-2, -1] ++
    (List.range body.ownNames.length).map Int.ofNat).Nodup
  /-- The code of the function reserves a word for each declaration, and the operations on variables
  in it are those that the uses in the text call for. -/
  code : ∀ comments, ∃ address rest, (s.program comments).functions.lookup name = some address ∧
    (s.program comments).operationsIn ((s.program comments).region address) =
      .enter body.ownNames.length :: rest ∧
    rest.filter Operation.isAccess = (body.uses []).filterMap
      (Use.operation? (Meaning.parameterNames f) s.functionScope.globals)

/-- In every program that the parser can produce, the variables of each function that gets code live
where its text says, whatever else is in the program. -/
theorem slots_follow_text {file : String} {ts : List Token} {t f : Tree} {name : String}
    (h : Parser.program file ts = .ok t) (hf : Meaning.functionNamed? t name = some f) :
    ∃ s body, Script.ofTree? t = some s ∧ f.first? .block = some body ∧ s.Frames name f body ∧
      ∀ options lines p report, (Generation.ofTree options lines t).result = .ok (p, report) →
        p = s.program options.comments := by
  obtain ⟨hform, hkind⟩ := Grammar.inForm_of_program h
  obtain ⟨s, hs⟩ : ∃ s, Script.ofTree? t = some s := ⟨_, if_pos hkind⟩
  have hfkind : f.kind = .function := by
    have hfound := List.find?_some hf
    simp only [Bool.and_eq_true, decide_eq_true_eq] at hfound
    exact hfound.1
  obtain ⟨-, body, -, hfirst, hbody, hblock, hparameters⟩ :=
    (hform.children f (List.mem_of_find?_eq_some hf)).exists_function hfkind
  obtain ⟨d, hd, rfl, hwritten, hdbody⟩ := Script.exists_definition hs hf hfirst
  have hlocals : d.written.locals = body.ownNames.length := by
    rw [hwritten, ← Tree.declarations_eq_length body hbody]
    simp [Function.ofTree, hfirst]
  have hknows : (d.scope s.functionScope).Knows (Meaning.parameterNames f)
      s.functionScope.globals [] := by
    rw [Definition.scope, hwritten]
    exact Scope.knows_enter hparameters _ _
  have hrenders := Tree.renders_stmt body hbody (.inr hblock) [] _ hknows
  rw [← Tree.ofBlock_eq_ofTree hblock, ← hdbody] at hrenders
  obtain ⟨haccesses, hafter⟩ := hrenders
  refine ⟨s, body, hs, hfirst, ⟨⟨d, hd, rfl, hwritten, hlocals, rfl, ?_, fun n hn => ?_⟩, ?_,
    nodup_offsets _ _, fun comments => ?_⟩, fun options lines p report hresult => ?_⟩
  · rw [hafter.frameSize]
    simp
  · rw [hknows.resolve? .read n]
    simp [Use.place?, Simulation.offset?, Meaning.latest?, hn]
  · rw [Tree.filter_init_uses body hbody, Use.map_place?_initsFrom]
    rfl
  · obtain ⟨address, hlookup, hoperations⟩ := Script.exists_operationsIn hd comments
    rw [Definition.code, Draft.link, List.map_cons] at hoperations
    refine ⟨address, _, hlookup, hlocals ▸ hoperations, ?_⟩
    rw [Draft.filter_isAccess_link, Draft.accesses_append, haccesses]
    exact List.append_nil _
  · rw [Generation.ofTree, hs] at hresult
    exact (Generation.ofScript_eq_ok hresult).1

/-- A function with two parameters of one name and two variables of one name, the second one in a
branch beside a function with a variable of its own. -/
def crowded : String :=
  "var g:int fn f(a:int,a:int)->int\x7bvar x:int=a if(g==x)\x7bvar x:int=x " ++
    "fn h()->int\x7bvar y:int\x7d\x7dx=g\x7d"

theorem slots_follow_text_crowded :
    ∃ ts t f s body, Source.tokens "m" crowded = .ok ts ∧ Parser.program "m" ts = .ok t ∧
      Meaning.functionNamed? t "f" = some f ∧ Script.ofTree? t = some s ∧
      f.first? .block = some body ∧ body.ownNames = ["x", "x"] ∧
      (body.uses []).filterMap
          (Use.operation? (Meaning.parameterNames f) s.functionScope.globals) =
        [.load (-4), .store 0, .loadGlobal 0, .load 0, .load 1, .store 1, .loadGlobal 0,
          .store 1] ∧
      s.Frames "f" f body ∧
      ∀ options lines p report, (Generation.ofTree options lines t).result = .ok (p, report) →
        p = s.program options.comments := by
  have hcheck : ((Source.tokens "m" crowded).toOption.bind fun ts =>
      (Parser.program "m" ts).toOption.bind fun t =>
        (Meaning.functionNamed? t "f").bind fun f => (Script.ofTree? t).bind fun s =>
          (f.first? .block).map fun body => (body.ownNames, (body.uses []).filterMap
            (Use.operation? (Meaning.parameterNames f) s.functionScope.globals))) =
      some (["x", "x"], [.load (-4), .store 0, .loadGlobal 0, .load 0, .load 1, .store 1,
        .loadGlobal 0, .store 1]) := by
    decide +kernel
  obtain ⟨ts, hts, hcheck⟩ := Option.bind_eq_some_iff.mp hcheck
  obtain ⟨t, ht, hcheck⟩ := Option.bind_eq_some_iff.mp hcheck
  obtain ⟨f, hf, hcheck⟩ := Option.bind_eq_some_iff.mp hcheck
  obtain ⟨s, hs, hcheck⟩ := Option.bind_eq_some_iff.mp hcheck
  obtain ⟨body, hbody, hcheck⟩ := Option.map_eq_some_iff.mp hcheck
  have hparse := eq_ok_of_toOption ht
  obtain ⟨s', body', hs', hbody', hframes⟩ := slots_follow_text hparse hf
  cases hs.symm.trans hs'
  cases hbody.symm.trans hbody'
  exact ⟨ts, t, f, s, body, eq_ok_of_toOption hts, hparse, hf, hs, hbody, (Prod.mk.inj hcheck).1,
    (Prod.mk.inj hcheck).2, hframes⟩

end StackLang
