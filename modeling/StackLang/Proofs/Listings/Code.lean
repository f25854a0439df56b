import StackLang.Proofs.Callees
import StackLang.Proofs.Drawings
import StackLang.Proofs.Legible
import StackLang.Proofs.Listings

/-!
# The listings of source texts

The comments and labels of generated code are made of fixed texts, names and numbers, and no name or
number of a source text has a blank or a newline in it. So all generated code can be listed, and
only the entries of functions are labelled. The listing of an accepted source text therefore
determines its code with labels and comments, and the lines with names are the table of its
functions.
-/

namespace StackLang

open Grammar (functionNode assignmentNode declarationNode)
open StackLang.Tree

/-! ## Names and numbers -/

theorem Text.isNote_of_isWordChar {s : String} (hne : s.toList ≠ [])
    (h : ∀ c ∈ s.toList, Token.isWordChar c = true) : isNote s = true := by
  have hlast := List.getLast?_eq_some_getLast hne
  have hword := h _ (List.mem_of_getLast? hlast)
  simp only [isNote, Bool.and_eq_true, Bool.not_eq_true', Option.any_eq_true, bne_iff_ne,
    List.contains_eq_mem, decide_eq_false_iff_not]
  refine ⟨fun hmem => ?_, _, hlast, isBlank_eq_false_of_isWordChar hword, fun heq => ?_⟩
  · cases h _ hmem
  · rw [heq] at hword
    cases hword

/-- Names and numbers can end a line. -/
theorem Token.Lexeme.isNote {k : Token.Kind} {cs : List Char} (h : Token.Lexeme k cs)
    (hk : Grammar.isOperand k = true) : Text.isNote (String.ofList cs) = true := by
  have hothers : ∀ k ∈ Token.Kind.keywords ++ Token.Kind.operators,
      Grammar.isOperand k = false := by decide
  have hword {cs : List Char} (hne : cs ≠ []) (hcs : ∀ c ∈ cs, Token.isWordChar c = true) :
      Text.isNote (String.ofList cs) = true :=
    Text.isNote_of_isWordChar (by simpa using hne) (by simpa using hcs)
  cases h with
  | keyword k h => cases (hothers k (List.mem_append_left _ h)).symm.trans hk
  | identifier cs hcs =>
    obtain ⟨c, hc, -⟩ := hcs.start
    exact hword (List.ne_nil_of_mem (List.mem_of_mem_head? hc)) hcs.chars
  | number cs hne hdigits =>
    exact hword hne fun c hc => by simp [Token.isWordChar, hdigits c hc]
  | operator k h => cases (hothers k (List.mem_append_right _ h)).symm.trans hk

/-- Everything that a tree spells can end a line. -/
def Tree.Noted (t : Tree) : Prop := ∀ x ∈ t.spellings, Text.isNote x = true

theorem Tree.Noted.child {t u : Tree} (h : t.Noted) (hu : u ∈ t.children) : u.Noted :=
  fun x hx => h x (spellings_subset hu hx)

theorem Tree.Noted.block {t u : Tree} {place : Location} {body : List Tree} (h : t.Noted)
    (hblock : blockNode place body ∈ t.children) (hu : u ∈ body) : u.Noted :=
  (h.child hblock).child hu

theorem Tree.Noted.name {t : Tree} {name : String} (h : t.Noted)
    (hname : t.get? "name" = some name) : Text.isNote name = true := by
  obtain ⟨kind, value, attributes, children, location⟩ := t
  change attributes.get? "name" = some name at hname
  refine h name ?_
  rw [spellings_mk, hname]
  simp

theorem Source.noted_tree {file source : String} {t : Tree} (h : tree file source = .ok t) :
    t.Noted := by
  obtain ⟨ts, htokens, hprogram⟩ := exists_program_of_tree h
  obtain ⟨us, hcut, rfl, -⟩ := exists_cut_of_tokens htokens
  obtain ⟨d, hword, rfl⟩ := Grammar.exists_derivation_of_program hprogram
  intro x hx
  rw [d.spellings_program, Grammar.operands, List.mem_map] at hx
  obtain ⟨token, htoken, rfl⟩ := hx
  obtain ⟨hmem, hoperand⟩ := List.mem_filter.mp htoken
  rw [hword] at hmem
  rcases List.mem_append.mp ((List.takeWhile_sublist _).mem hmem) with hus | hend
  · simpa using (hcut.isLexeme token hus).isNote hoperand
  · rw [List.mem_singleton.mp hend] at hoperand
    cases hoperand

/-! ## Drafts -/

namespace Draft

/-- A draft that can be listed. -/
structure IsListable (d : Draft) : Prop where
  isNative : ∀ entries address, (d.action.operation entries address).IsNative
  label : ∀ l, d.label = some l → Text.isNote l = true
  comment : ∀ c, d.comment = some c → Text.isNote c = true

/-- Drafts that can be listed and carry no labels. -/
def ArePlain (ds : List Draft) : Prop := ∀ d ∈ ds, d.IsListable ∧ d.label = none

variable {ds es condition yes no body : List Draft}

theorem plain_nil : ArePlain [] := List.forall_mem_nil _

theorem ArePlain.append (hds : ArePlain ds) (hes : ArePlain es) : ArePlain (ds ++ es) :=
  List.forall_mem_append.mpr ⟨hds, hes⟩

theorem plain_singleton {action : Action} {comment : Option String}
    (hnative : ∀ entries address, (action.operation entries address).IsNative)
    (hcomment : ∀ c, comment = some c → Text.isNote c = true) :
    ArePlain [{ action, comment }] := by
  refine List.forall_mem_singleton.mpr ⟨⟨hnative, fun l hl => ?_, hcomment⟩, rfl⟩
  cases hl

theorem plain_noted {action : Action} {comment : String}
    (hnative : ∀ entries address, (action.operation entries address).IsNative)
    (hcomment : Text.isNote comment = true) : ArePlain [{ action, comment := some comment }] :=
  plain_singleton hnative fun _ hc => Option.some.inj hc ▸ hcomment

theorem plain_of {op : Operation} {comment : String} (hop : op.IsNative)
    (hcomment : Text.isNote comment = true) : ArePlain [of op comment] :=
  plain_noted (fun _ _ => hop) hcomment

theorem plain_bare {op : Operation} (hop : op.IsNative) : ArePlain [bare op] := by
  refine plain_singleton (fun _ _ => hop) fun c hc => ?_
  cases hc

theorem plain_load {comment : String} (place : Place) (h : Text.isNote comment = true) :
    ArePlain [load place comment] := by
  cases place with
  | global slot => exact plain_of (fun x => by simp) h
  | frame offset => exact plain_of (fun x => by simp) h

theorem plain_store {comment : String} (place : Place) (h : Text.isNote comment = true) :
    ArePlain [store place comment] := by
  cases place with
  | global slot => exact plain_of (fun x => by simp) h
  | frame offset => exact plain_of (fun x => by simp) h

theorem plain_placeholder : ArePlain [placeholder] := plain_of (fun x => by simp) (by decide)

theorem ArePlain.branchCode (chained : Bool) (hcondition : ArePlain condition) (hyes : ArePlain yes)
    (hno : ArePlain no) : ArePlain (branchCode chained condition yes no) := by
  refine (((hcondition.append ?_).append hyes).append ?_).append hno
  · exact plain_noted (fun _ _ x => by simp [Action.operation]) (by cases chained <;> decide)
  · exact plain_noted (fun _ _ x => by simp [Action.operation]) (by cases chained <;> decide)

theorem ArePlain.loopCode (hcondition : ArePlain condition) (hbody : ArePlain body) :
    ArePlain (loopCode condition body) := by
  refine ((hcondition.append ?_).append hbody).append ?_
  · exact plain_noted (fun _ _ x => by simp [Action.operation]) (by decide)
  · exact plain_noted (fun _ _ x => by simp [Action.operation]) (by decide)

end Draft

open Draft (ArePlain plain_nil plain_noted plain_of plain_bare plain_load plain_store
  plain_placeholder)

/-! ## Values -/

section Values

variable {σ : Scope}

theorem Scope.plain_callDraft {name : String} (h : Text.isNote name = true) (σ : Scope) :
    ArePlain [σ.callDraft (some name)] := by
  unfold Scope.callDraft
  split
  · rename_i callee _ hcallee _
    obtain rfl := Option.some.inj hcallee
    exact plain_noted (fun _ _ x => by simp [Draft.Action.operation])
      (Text.isNote_append (by decide) h)
  · have hline := Text.newline_not_mem_of_isNote h
    exact plain_of (fun x => by simp)
      (Text.isNote_append (by simp [shownName, hline]) (by decide))

theorem Expr.plain_codeAll {es : List Expr} (h : ∀ e ∈ es, ArePlain (e.code σ)) :
    ArePlain (Expr.codeAll σ es) := by
  induction es with
  | nil => exact plain_nil
  | cons e es ih =>
    obtain ⟨he, hes⟩ := List.forall_mem_cons.mp h
    exact he.append (ih hes)

theorem Expr.plain_codeDiscarded {es : List Expr} (h : ∀ e ∈ es, ArePlain (e.code σ)) :
    ArePlain (Expr.codeDiscarded σ es) := by
  induction es with
  | nil => exact plain_nil
  | cons e es ih =>
    obtain ⟨he, hes⟩ := List.forall_mem_cons.mp h
    exact (he.append (plain_bare fun x => by simp)).append (ih hes)

theorem Expr.plain_operatorNode {kind : Tree.Kind} {op : Operator} {left right : Tree}
    (location : Option Location) (htakes : kind.takes op = true)
    (hleft : ArePlain ((Expr.ofTree left).code σ))
    (hright : ArePlain ((Expr.ofTree right).code σ)) :
    ArePlain ((Expr.ofTree (operatorNode kind op left right location)).code σ) := by
  rw [Expr.ofTree_operatorNode left right location htakes, Expr.code]
  exact (hleft.append hright).append (plain_of (fun x => by simp) (by cases op <;> decide))

theorem Tree.IsValue.plain_code {t : Tree} (h : t.IsValue) (hnoted : t.Noted) (σ : Scope) :
    ArePlain ((Expr.ofTree t).code σ) := by
  induction h with
  | number digits location hne hdigits =>
    have hnote := hnoted digits (by simp [spellings_mk])
    rw [Expr.ofTree_number location hne hdigits, Expr.code]
    exact plain_of (fun x => by simp) (Text.isNote_append (by decide) hnote)
  | name name location =>
    have hnote := hnoted name (by simp [spellings_mk])
    rw [Expr.ofTree_name, Expr.code]
    split
    · exact plain_load _ (Text.isNote_append (by decide) hnote)
    · have hline := Text.newline_not_mem_of_isNote hnote
      exact plain_of (fun x => by simp)
        (Text.isNote_append (by simp [shownName, hline]) (by decide))
  | negate operand location hoperand ih =>
    rw [Expr.ofTree_negate, Expr.code]
    exact (ih (hnoted.child List.mem_cons_self)).append (plain_bare fun x => by simp)
  | operator kind op left right location hkind htakes hleft hright ihleft ihright =>
    exact Expr.plain_operatorNode location htakes
      (ihleft (hnoted.child (by simp [operatorNode])))
      (ihright (hnoted.child (by simp [operatorNode])))
  | call name arguments location hvalues ih =>
    have hnote : Text.isNote name = true := hnoted.name rfl
    have harguments : ∀ e ∈ arguments.map Expr.ofTree, ArePlain (e.code σ) :=
      List.forall_mem_map.mpr fun a ha => ih a ha (hnoted.child ha)
    rw [Expr.ofTree_call, Expr.code]
    split
    · split
      · exact (Expr.plain_codeAll harguments).append (plain_bare fun x => by simp)
      · exact (Expr.plain_codeDiscarded harguments).append plain_placeholder
    · exact (Expr.plain_codeAll harguments).append (σ.plain_callDraft hnote)

theorem Tree.IsCondition.plain_code {t : Tree} (h : t.IsCondition) (hnoted : t.Noted)
    (σ : Scope) : ArePlain ((Expr.ofTree t).code σ) := by
  cases h with
  | mk op left right location htakes hleft hright =>
    exact Expr.plain_operatorNode location htakes
      (hleft.plain_code (hnoted.child (by simp [operatorNode])) σ)
      (hright.plain_code (hnoted.child (by simp [operatorNode])) σ)

end Values

/-! ## Statements -/

/-- The name of the function around can end a line. -/
def Scope.InNoted (σ : Scope) : Prop := ∀ f, σ.inside = some f → Text.isNote f.name = true

theorem Scope.InNoted.scopeAfter {σ : Scope} (h : σ.InNoted) (s : Stmt) :
    (s.scopeAfter σ).InNoted :=
  fun f hf => h f ((s.inside_scopeAfter σ).symm.trans hf)

/-- The code of a statement can be listed, and it has no labels. -/
def Stmt.Plain (s : Stmt) : Prop := ∀ σ : Scope, σ.InNoted → ArePlain (s.code σ)

theorem Stmt.plain_skip : Stmt.skip.Plain := fun _ _ => plain_nil

theorem Stmt.plain_ofTrees {ts : List Tree} (h : ∀ t ∈ ts, (Stmt.ofTree t).Plain) :
    (Stmt.ofTrees ts).Plain := by
  induction ts with
  | nil => exact Stmt.plain_skip
  | cons t ts ih =>
    obtain ⟨ht, hts⟩ := List.forall_mem_cons.mp h
    intro σ hσ
    rw [Stmt.ofTrees, Stmt.code]
    exact (ht σ hσ).append (ih hts _ (hσ.scopeAfter _))

theorem Stmt.Plain.branch {condition : Tree} {yes no : Stmt} (chained : Bool)
    (hcondition : condition.IsCondition) (hnoted : condition.Noted) (hyes : yes.Plain)
    (hno : no.Plain) : (Stmt.branch chained (Expr.ofTree condition) yes no).Plain := by
  intro σ hσ
  rw [Stmt.code]
  exact .branchCode chained (hcondition.plain_code hnoted σ) (hyes σ hσ)
    (hno _ (hσ.scopeAfter yes))

theorem Stmt.plain_ofChain {rest : Chain} (hconditions : ∀ c ∈ rest.conditions, c.IsCondition)
    (hnoted : ∀ t ∈ rest.trees, t.Noted)
    (h : ∀ t ∈ rest.statements, t.Noted → (Stmt.ofTree t).Plain) : (Stmt.ofChain rest).Plain := by
  induction rest with
  | none => exact Stmt.plain_skip
  | otherwise location place body =>
    have hnode := hnoted _ List.mem_cons_self
    exact plain_ofTrees fun t ht => h t ht (hnode.block List.mem_cons_self ht)
  | elseIf location place condition body rest ih =>
    rw [Chain.trees, List.forall_mem_cons] at hnoted
    rw [Chain.conditions, List.forall_mem_cons] at hconditions
    rw [Chain.statements, List.forall_mem_append] at h
    obtain ⟨hnode, hrest⟩ := hnoted
    have hbody := plain_ofTrees fun t ht =>
      h.1 t ht (hnode.block (List.mem_cons_of_mem _ List.mem_cons_self) ht)
    exact .branch true hconditions.1 (hnode.child List.mem_cons_self) hbody
      (ih hconditions.2 hrest h.2)

theorem Tree.IsStatement.plain {t : Tree} (h : t.IsStatement) (hnoted : t.Noted) :
    (Stmt.ofTree t).Plain := by
  induction h with
  | function location start place name type parameters body =>
    rw [Stmt.ofTree_function]
    exact fun _ _ => plain_nil
  | declaration location name type value hvalue =>
    have hname : Text.isNote name = true := hnoted.name rfl
    intro σ hσ
    have hinit : Text.isNote ("init " ++ name) = true := Text.isNote_append (by decide) hname
    have hstore := plain_store (σ.placeOf name) hinit
    rw [Stmt.ofTree_declaration]
    cases value with
    | none =>
      exact (plain_of (fun x => by simp) (Text.isNote_append (by decide) hname)).append hstore
    | some v =>
      exact ((hvalue v rfl).plain_code (hnoted.child (by simp [declarationNode])) _).append hstore
  | assignment location name value hvalue =>
    have hname : Text.isNote name = true := hnoted.name rfl
    have hline := Text.newline_not_mem_of_isNote hname
    intro σ hσ
    rw [Stmt.ofTree_assignment, Stmt.code]
    refine (hvalue.plain_code (hnoted.child (by simp [assignmentNode])) σ).append ?_
    split
    · exact plain_store _ (Text.isNote_append (by simp [shownName, hline]) (by decide))
    · exact plain_of (fun x => by simp)
        (Text.isNote_append (by simp [shownName, hline]) (by decide))
  | conditional location place condition body rest hcondition hbody hconditions hrest ihbody
    ihrest =>
    rw [Stmt.ofTree_conditional location place body rest hcondition]
    have hchain : ∀ t ∈ rest.trees, t.Noted := fun t ht =>
      hnoted.child (List.mem_cons_of_mem _ (List.mem_cons_of_mem _ ht))
    have hyes := Stmt.plain_ofTrees fun t ht =>
      ihbody t ht (hnoted.block (List.mem_cons_of_mem _ List.mem_cons_self) ht)
    exact .branch false hcondition (hnoted.child List.mem_cons_self) hyes
      (Stmt.plain_ofChain hconditions hchain ihrest)
  | loop location place condition body hcondition hbody ihbody =>
    intro σ hσ
    have hplain := Stmt.plain_ofTrees fun t ht =>
      ihbody t ht (hnoted.block (List.mem_cons_of_mem _ List.mem_cons_self) ht)
    rw [Stmt.ofTree_loop, Stmt.code]
    exact .loopCode (hcondition.plain_code (hnoted.child List.mem_cons_self) σ) (hplain σ hσ)
  | giveBack location value hvalue =>
    intro σ hσ
    rw [Stmt.ofTree_giveBack]
    cases hinside : σ.inside with
    | none =>
      simp only [Stmt.code, hinside]
      exact plain_nil
    | some f =>
      simp only [Stmt.code, hinside]
      refine (hvalue.plain_code (hnoted.child List.mem_cons_self) σ).append ?_
      exact plain_of (fun x => by simp) (Text.isNote_append (by decide) (hσ f hinside))
  | value t hvalue =>
    intro σ hσ
    rw [Stmt.ofTree_value hvalue, Stmt.code]
    exact (hvalue.plain_code hnoted σ).append (plain_of (fun x => by simp) (by decide))

/-! ## Labels -/

/-- The labels of drafts with their addresses. -/
def Draft.labelsFrom (k : Nat) (ds : List Draft) : List (String × Nat) :=
  (ds.zipIdx k).filterMap fun x => x.1.label.map (·, x.2)

namespace Draft

theorem labelsFrom_append (k : Nat) (ds es : List Draft) :
    labelsFrom k (ds ++ es) = labelsFrom k ds ++ labelsFrom (k + ds.length) es := by
  rw [labelsFrom, List.zipIdx_append, List.filterMap_append]
  rfl

theorem ArePlain.labelsFrom_eq {ds : List Draft} (h : ArePlain ds) (k : Nat) :
    labelsFrom k ds = [] := by
  refine List.filterMap_eq_nil_iff.mpr fun x hx => ?_
  rw [(h x.1 (List.fst_mem_of_mem_zipIdx hx)).2]
  rfl

/-- Linking keeps labels where they are. -/
theorem labels_link (comments : Bool) (entries : List (String × Nat)) (address k : Nat)
    (ds : List Draft) :
    ((link comments entries address ds).zipIdx k).filterMap (fun x => x.1.label.map (·, x.2)) =
      labelsFrom k ds := by
  induction ds generalizing address k with
  | nil => rfl
  | cons d ds ih =>
    rw [link, labelsFrom, List.zipIdx_cons, List.zipIdx_cons, List.filterMap_cons,
      List.filterMap_cons, ih]
    rfl

/-- Linking keeps what can be listed. -/
theorem listable_link {ds : List Draft} (h : ∀ d ∈ ds, d.IsListable) (comments : Bool)
    (entries : List (String × Nat)) (address : Nat) :
    ∀ i ∈ link comments entries address ds, i.IsListable := by
  induction ds generalizing address with
  | nil => exact List.forall_mem_nil _
  | cons d ds ih =>
    obtain ⟨hd, hds⟩ := List.forall_mem_cons.mp h
    refine List.forall_mem_cons.mpr ⟨⟨hd.isNative _ _, fun l hl => ?_, fun c hc => ?_⟩, ih hds _⟩
    · have hnote := hd.label l hl
      refine ⟨?_, Text.newline_not_mem_of_isNote hnote⟩
      rintro rfl
      exact Text.toList_ne_nil_of_isNote hnote rfl
    · cases comments with
      | true => exact hd.comment c hc
      | false => cases hc

end Draft

/-! ## Functions -/

namespace Tree.Parts

variable {f : Parts}

theorem newline_not_mem_shownType (h : '\n' ∉ f.type.toList) :
    '\n' ∉ f.definition.shownType.toList := by
  have hspelling : ∀ type : PrimitiveType, '\n' ∉ type.spelling.toList := by
    intro type
    cases type <;> decide
  unfold Definition.shownType
  split
  · exact hspelling _
  · exact h

/-- The texts and the body of a function can be listed. -/
structure IsNoted (f : Parts) : Prop where
  name : Text.isNote f.name = true
  type : '\n' ∉ f.type.toList
  body : (Stmt.ofTrees f.body).Plain

/-- The first draft of a function is labelled with its name, and no other draft is labelled. -/
theorem IsNoted.code_eq (h : f.IsNoted) (σ : Scope) :
    ∃ head rest, f.definition.code σ = head :: rest ∧ head.IsListable ∧
      head.label = some f.name ∧ ArePlain rest := by
  have hname := Text.newline_not_mem_of_isNote h.name
  have htype := newline_not_mem_shownType h.type
  have hlocals : '\n' ∉ (Text.decimal f.written.locals).toList := by
    intro hmem
    rcases Text.mem_decimal hmem with hdigit | hsign
    · cases hdigit
    · cases hsign
  have hscope : (f.definition.scope σ).InNoted := fun g hg => Option.some.inj hg ▸ h.name
  refine ⟨_, _, rfl, ⟨fun _ _ x => by simp [Draft.Action.operation], fun l hl => ?_,
    fun c hc => ?_⟩, rfl, (h.body _ hscope).append ?_⟩
  · exact Option.some.inj hl ▸ h.name
  · rw [← Option.some.inj hc]
    refine Text.isNote_append ?_ (by decide)
    have hdefinition : f.definition.name = f.name := rfl
    have hwritten : f.definition.written = f.written := rfl
    simp [hdefinition, hwritten, hname, htype, hlocals]
  · have hdefault : ArePlain [.of (.push 0) "default return value"] :=
      plain_of (fun x => by simp) (by decide)
    have hexit : ArePlain [.of (.giveBack f.written.parameters.length) ("exit " ++ f.name)] :=
      plain_of (fun x => by simp) (Text.isNote_append (by decide) h.name)
    exact hdefault.append hexit

end Tree.Parts

/-! ## Scripts -/

namespace Script

variable {s : Script} {fs : List Parts}

theorem labelsFrom_functions (h : ∀ f ∈ fs, f.IsNoted) (σ : Scope) (k : Nat) :
    Draft.labelsFrom k ((fs.map Parts.definition).flatMap (Definition.code σ)) =
      entriesFrom σ k (fs.map Parts.definition) := by
  induction fs generalizing k with
  | nil => rfl
  | cons f fs ih =>
    obtain ⟨hf, hfs⟩ := List.forall_mem_cons.mp h
    obtain ⟨head, rest, hcode, -, hlabel, hrest⟩ := hf.code_eq σ
    have hentry : Draft.labelsFrom k (head :: rest) = [(f.name, k)] := by
      have hsingle : Draft.labelsFrom k [head] = [(f.name, k)] := by
        simp [Draft.labelsFrom, hlabel]
      rw [← List.singleton_append, Draft.labelsFrom_append, hrest.labelsFrom_eq, hsingle,
        List.append_nil]
    rw [List.map_cons, List.flatMap_cons, Draft.labelsFrom_append, ih hfs, entriesFrom, hcode,
      hentry]
    rfl

theorem plain_entryCode (h : s.entry.Plain) : ArePlain s.entryCode := by
  have hscope : s.startScope.InNoted := fun f hf => by cases hf
  have hcall :
      ArePlain [{ action := .call entryName (-1), comment := some ("call " ++ entryName) }] :=
    plain_noted (fun _ _ x => by simp [Draft.Action.operation]) (by decide)
  have hhalt : ArePlain [.of .halt "end of program"] := plain_of (fun x => by simp) (by decide)
  exact (h _ hscope).append (hcall.append hhalt)

/-- Exactly the entries of functions are labelled. -/
theorem labelsFrom_code (hentry : s.entry.Plain) (hfs : ∀ f ∈ fs, f.IsNoted)
    (hdefinitions : s.definitions = fs.map Parts.definition) :
    Draft.labelsFrom 0 s.code = s.entries := by
  rw [code, Draft.labelsFrom_append, (plain_entryCode hentry).labelsFrom_eq, List.nil_append,
    Nat.zero_add, hdefinitions, labelsFrom_functions hfs, entries, hdefinitions]

/-- All code can be listed. -/
theorem listable_code (hentry : s.entry.Plain) (hfs : ∀ f ∈ fs, f.IsNoted)
    (hdefinitions : s.definitions = fs.map Parts.definition) : ∀ d ∈ s.code, d.IsListable := by
  rw [code, hdefinitions]
  refine List.forall_mem_append.mpr ⟨fun d hd => (plain_entryCode hentry d hd).1, fun d hd => ?_⟩
  obtain ⟨e, he, hd⟩ := List.mem_flatMap.mp hd
  obtain ⟨f, hf, rfl⟩ := List.mem_map.mp he
  obtain ⟨head, rest, hcode, hhead, -, hrest⟩ := (hfs f hf).code_eq s.functionScope
  rw [hcode] at hd
  rcases List.mem_cons.mp hd with rfl | hd
  · exact hhead
  · exact (hrest d hd).1

namespace Reading

variable {file source : String} {tree : Tree} {statements : List Tree}

theorem noted_statement (h : Reading tree statements fs s)
    (htree : Source.tree file source = .ok tree) : ∀ t ∈ statements, t.Noted :=
  fun _ ht => (Source.noted_tree htree).child (h.children ▸ ht)

theorem plain_entry (h : Reading tree statements fs s)
    (htree : Source.tree file source = .ok tree) : s.entry.Plain := by
  rw [h.script_eq]
  refine Stmt.plain_ofTrees fun t ht => ?_
  have hmem := List.mem_of_mem_filter ht
  exact (h.isStatement t hmem).plain (h.noted_statement htree t hmem)

theorem isNoted_parts (h : Reading tree statements fs s)
    (htree : Source.tree file source = .ok tree) : ∀ f ∈ fs, f.IsNoted := by
  intro f hf
  have hmem : f.tree ∈ statements.filter (·.kind = .function) :=
    h.parts ▸ List.mem_map_of_mem hf
  have hstatement := (List.mem_filter.mp hmem).1
  have hnoted := h.noted_statement htree f.tree hstatement
  have hlegible := (Tree.forall_mem_walk.mp (Source.isLegible_of_tree htree)).2 f.tree
    (h.children ▸ hstatement) f.tree f.tree.mem_walk_self
  have hblock : blockNode f.place f.body ∈ f.tree.children := by simp [Parts.tree, functionNode]
  refine ⟨hnoted.name f.get?_tree, (hlegible.texts f.type ?_).2, ?_⟩
  · simp [Tree.texts, Parts.tree, functionNode]
  · exact Stmt.plain_ofTrees fun t ht => (h.bodies f hf t ht).plain (hnoted.block hblock ht)

end Reading

end Script

/-! ## Accepted source texts -/

section Sources

variable {options options' : CompileOptions} {file file' source source' : String}
  {tree tree' : Tree} {compiled compiled' : Compiled}

theorem Accepted.isListable (h : Accepted options file source tree compiled) :
    compiled.program.IsListable ∧
      Listing.entries compiled.program.listing = compiled.program.functions := by
  obtain ⟨statements, fs, s, hreading, hfindings, hprogram⟩ := h.exists_reading
  have hentry := hreading.plain_entry h.parsed
  have hfs := hreading.isNoted_parts h.parsed
  have hdefinitions := Script.definitions_eq hreading.functions
    ((Script.findings_eq_nil hreading.functions).mp hfindings).2.1
  have hcode : compiled.program.code.toList = Draft.link options.comments s.entries 0 s.code := by
    rw [hprogram]
    rfl
  have hlistable : compiled.program.IsListable := by
    refine ⟨fun hnil => ?_, ?_⟩
    · have hlength := congrArg List.length (hcode.symm.trans hnil)
      simp [Script.code, Script.entryCode] at hlength
    · rw [hcode]
      exact Draft.listable_link (Script.listable_code hentry hfs hdefinitions) _ _ _
  refine ⟨hlistable, ?_⟩
  rw [hlistable.entries_listing, hcode, Draft.labels_link,
    Script.labelsFrom_code hentry hfs hdefinitions, hprogram]
  rfl

/-- The lines with names in the listing of an accepted source text are the table of its functions.
Accepted source texts with one listing have the same code with its labels and comments, and the same
table. -/
theorem listing_determines_code (h : Accepted options file source tree compiled)
    (h' : Accepted options' file' source' tree' compiled') :
    Listing.entries compiled.program.listing = compiled.program.functions ∧
      (compiled.program.listing = compiled'.program.listing →
        compiled.program.code = compiled'.program.code ∧
          compiled.program.functions = compiled'.program.functions) := by
  obtain ⟨hlistable, hentries⟩ := h.isListable
  obtain ⟨hlistable', hentries'⟩ := h'.isListable
  refine ⟨hentries, fun hlisting => ⟨hlistable.code_eq hlistable' hlisting, ?_⟩⟩
  rw [← hentries, ← hentries', hlisting]

end Sources

/-- A function of one parameter, by the name of the parameter. -/
def ofParameter (name : String) : String := "fn f(" ++ name ++ ":int)->int\x7b\x7d"

/-- Without comments, a listing does not show the names of parameters. -/
theorem listing_determines_code_renamed :
    ∃ tree compiled tree' compiled',
      Accepted { comments := false } "a" (ofParameter "a") tree compiled ∧
      Accepted { comments := false } "b" (ofParameter "b") tree' compiled' ∧
      compiled.program.listing = compiled'.program.listing ∧
      compiled.program.code = compiled'.program.code ∧
      Listing.entries compiled.program.listing = compiled.program.functions := by
  obtain ⟨tree, compiled, h⟩ := Accepted.exists_of_toBool { comments := false } "a"
    (ofParameter "a") (by decide) (by decide +kernel)
  obtain ⟨tree', compiled', h'⟩ := Accepted.exists_of_toBool { comments := false } "b"
    (ofParameter "b") (by decide) (by decide +kernel)
  have hlisting : compiled.program.listing = compiled'.program.listing := by
    have hresults :
        (Compilation.ofSource { comments := false } "a" (ofParameter "a")).result.toOption.map
            (·.program.listing) =
          (Compilation.ofSource { comments := false } "b" (ofParameter "b")).result.toOption.map
            (·.program.listing) := by
      decide +kernel
    rw [h.result, h'.result] at hresults
    exact Option.some.inj hresults
  obtain ⟨hentries, hsame⟩ := listing_determines_code h h'
  exact ⟨tree, compiled, tree', compiled', h, h', hlisting, (hsame hlisting).1, hentries⟩

end StackLang
