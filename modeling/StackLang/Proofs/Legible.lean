import StackLang.Proofs.Accepted
import StackLang.Proofs.Lexemes

/-!
# Source texts that compile without a breakdown

Compiling breaks down at a numeral that is too long to be converted, and where a name is missing. No
name is missing in the tree of a source text, and its numerals are number tokens. So a source text
with short number tokens gets a program or is refused: at a character, at a token, or with a report.
-/

namespace StackLang

open Grammar (plainNode functionNode assignmentNode declarationNode)
open StackLang.Tree

/-! ## What is found about names -/

/-- A finding that a report can list. -/
def Finding.IsIssue : Finding → Prop
  | .issue _ _ => True
  | .breakdown _ => False

namespace Scope

variable {σ : Scope}

/-- All variables of the frame have names. -/
def FrameNamed (σ : Scope) : Prop := ∀ x ∈ σ.locals, x.1 ≠ none

theorem FrameNamed.none_notMem_known (h : σ.FrameNamed) : none ∉ σ.known := by
  intro hmem
  rw [known, List.mem_append, List.mem_eraseDups, List.mem_map] at hmem
  rcases hmem with ⟨x, hx, hnone⟩ | hmem
  · exact h x hx hnone
  · simp at hmem

theorem FrameNamed.declare (h : σ.FrameNamed) (name : String) : (σ.declare name).FrameNamed := by
  unfold Scope.declare
  split
  · exact List.forall_mem_cons.mpr ⟨by simp, h⟩
  · split
    · exact h
    · exact h

/-- Statements declare variables with names. -/
theorem FrameNamed.scopeAfter (h : σ.FrameNamed) (s : Stmt) : (s.scopeAfter σ).FrameNamed := by
  induction s generalizing σ with
  | seq first second ihfirst ihsecond => exact ihsecond (ihfirst h)
  | declare name value => exact h.declare name
  | branch chained condition yes no ihyes ihno => exact ihno (ihyes h)
  | loop condition body ih => exact ih h
  | skip => exact h
  | assign name value location => exact h
  | discard value => exact h
  | giveBack value location => exact h
  | misuse m location => exact h

/-- Parameters with names give a frame with names. -/
theorem frameNamed_enter (σ : Scope) (f : Signature) {ps : List Parameter}
    (h : ∀ p ∈ ps, p.name ≠ none) : (σ.enter f ps).FrameNamed := by
  rw [enter, FrameNamed]
  have hbound : ∀ p ∈ ps.zipIdx, p.1.name ≠ none := fun p hp =>
    h p.1 (List.fst_mem_of_mem_zipIdx hp)
  refine List.foldlRecOn ps.zipIdx _
    (motive := fun locals : List (Option String × Int) => ∀ x ∈ locals, x.1 ≠ none) (by simp) ?_
  intro locals hlocals p hp
  split
  · exact hlocals
  · exact List.forall_mem_cons.mpr ⟨hbound p hp, hlocals⟩

theorem isIssue_variableFindings (h : σ.FrameNamed) (name : String) (location : Option Location) :
    ∀ f ∈ σ.variableFindings (some name) location, f.IsIssue := by
  unfold variableFindings
  split
  · simp
  · simp [Finding.unknownName, h.none_notMem_known, Finding.IsIssue]

theorem isIssue_callFindings (σ : Scope) (name : String) (count : Nat)
    (location : Option Location) :
    ∀ f ∈ σ.callFindings (some name) count location, f.IsIssue := by
  unfold callFindings
  split
  · simp [Finding.unknownName, Finding.IsIssue]
  · split
    · simp
    · simp [Finding.IsIssue]

end Scope

/-! ## Values -/

/-- The numerals among the texts of a tree are short enough to be converted. -/
def Tree.Short (t : Tree) : Prop :=
  ∀ x ∈ t.spellings, x ≠ "" → (∀ c ∈ x.toList, Text.isAsciiDigit c = true) →
    x.length ≤ Text.digitLimit

theorem Tree.spellings_subset {t u : Tree} (hu : u ∈ t.children) : u.spellings ⊆ t.spellings := by
  obtain ⟨kind, value, attributes, children, location⟩ := t
  intro x hx
  rw [spellings_mk]
  exact List.mem_append_right _ (List.mem_flatMap.mpr ⟨u, hu, hx⟩)

theorem Tree.Short.child {t u : Tree} (h : t.Short) (hu : u ∈ t.children) : u.Short :=
  fun x hx => h x (spellings_subset hu hx)

theorem Tree.Short.block {t u : Tree} {place : Location} {body : List Tree} (h : t.Short)
    (hblock : blockNode place body ∈ t.children) (hu : u ∈ body) : u.Short :=
  (h.child hblock).child hu

theorem Expr.mem_findingsAll {σ : Scope} {es : List Expr} {f : Finding} :
    f ∈ Expr.findingsAll σ es ↔ ∃ e ∈ es, f ∈ e.findings σ := by
  induction es with
  | nil => simp [Expr.findingsAll]
  | cons e es ih => simp [Expr.findingsAll, ih]

theorem Expr.isIssue_operatorNode {σ : Scope} {kind : Kind} {op : Operator} {left right : Tree}
    (location : Option Location) (htakes : kind.takes op = true)
    (hleft : ∀ f ∈ (Expr.ofTree left).findings σ, f.IsIssue)
    (hright : ∀ f ∈ (Expr.ofTree right).findings σ, f.IsIssue) :
    ∀ f ∈ (Expr.ofTree (operatorNode kind op left right location)).findings σ, f.IsIssue := by
  rw [Expr.ofTree_operatorNode left right location htakes, Expr.findings, List.forall_mem_append]
  exact ⟨hleft, hright⟩

theorem Tree.IsValue.isIssue_findings {t : Tree} (h : t.IsValue) (hshort : t.Short) {σ : Scope}
    (hσ : σ.FrameNamed) : ∀ f ∈ (Expr.ofTree t).findings σ, f.IsIssue := by
  induction h with
  | number digits location hne hdigits =>
    have hlength : digits.length ≤ Text.digitLimit :=
      hshort digits (by simp [spellings_mk]) hne hdigits
    rw [Expr.ofTree_number location hne hdigits, Expr.findings, if_neg (Nat.not_lt.mpr hlength)]
    simp
  | name name location =>
    rw [Expr.ofTree_name, Expr.findings]
    exact Scope.isIssue_variableFindings hσ name location
  | negate operand location hoperand ih =>
    rw [Expr.ofTree_negate, Expr.findings]
    exact ih (hshort.child List.mem_cons_self)
  | operator kind op left right location hkind htakes hleft hright ihleft ihright =>
    exact Expr.isIssue_operatorNode location htakes
      (ihleft (hshort.child (by simp [operatorNode])))
      (ihright (hshort.child (by simp [operatorNode])))
  | call name arguments location hvalues ih =>
    have harguments : ∀ f ∈ Expr.findingsAll σ (arguments.map Expr.ofTree), f.IsIssue := by
      intro f hf
      obtain ⟨e, he, hf⟩ := Expr.mem_findingsAll.mp hf
      obtain ⟨a, ha, rfl⟩ := List.mem_map.mp he
      exact ih a ha (hshort.child ha) f hf
    rw [Expr.ofTree_call, Expr.findings]
    split
    · rw [List.forall_mem_append]
      refine ⟨?_, harguments⟩
      split
      · simp
      · simp [Finding.IsIssue]
    · rw [List.forall_mem_append]
      exact ⟨harguments, Scope.isIssue_callFindings σ name _ location⟩

theorem Tree.IsCondition.isIssue_findings {t : Tree} (h : t.IsCondition) (hshort : t.Short)
    {σ : Scope} (hσ : σ.FrameNamed) : ∀ f ∈ (Expr.ofTree t).findings σ, f.IsIssue := by
  cases h with
  | mk op left right location htakes hleft hright =>
    exact Expr.isIssue_operatorNode location htakes
      (hleft.isIssue_findings (hshort.child (by simp [operatorNode])) hσ)
      (hright.isIssue_findings (hshort.child (by simp [operatorNode])) hσ)

/-! ## Statements -/

/-- Reading a statement breaks down nowhere. -/
def Stmt.Legible (s : Stmt) : Prop := ∀ σ : Scope, σ.FrameNamed → ∀ f ∈ s.findings σ, f.IsIssue

theorem Stmt.legible_skip : Stmt.skip.Legible := by
  intro σ _
  simp [Stmt.findings]

theorem Stmt.legible_ofTrees {ts : List Tree} (h : ∀ t ∈ ts, (Stmt.ofTree t).Legible) :
    (Stmt.ofTrees ts).Legible := by
  induction ts with
  | nil => exact Stmt.legible_skip
  | cons t ts ih =>
    rw [List.forall_mem_cons] at h
    intro σ hσ
    rw [Stmt.ofTrees, Stmt.findings, List.forall_mem_append]
    exact ⟨h.1 σ hσ, ih h.2 _ (hσ.scopeAfter _)⟩

theorem Stmt.Legible.branch {condition : Tree} {yes no : Stmt} (chained : Bool)
    (hcondition : condition.IsCondition) (hshort : condition.Short) (hyes : yes.Legible)
    (hno : no.Legible) : (Stmt.branch chained (Expr.ofTree condition) yes no).Legible := by
  intro σ hσ
  rw [Stmt.findings, List.forall_mem_append, List.forall_mem_append]
  exact ⟨⟨hcondition.isIssue_findings hshort hσ, hyes σ hσ⟩, hno _ (hσ.scopeAfter yes)⟩

theorem Stmt.legible_ofChain {rest : Chain} (hconditions : ∀ c ∈ rest.conditions, c.IsCondition)
    (hshort : ∀ t ∈ rest.trees, t.Short)
    (h : ∀ t ∈ rest.statements, t.Short → (Stmt.ofTree t).Legible) :
    (Stmt.ofChain rest).Legible := by
  induction rest with
  | none => exact Stmt.legible_skip
  | otherwise location place body =>
    have hnode := hshort _ List.mem_cons_self
    exact legible_ofTrees fun t ht => h t ht (hnode.block List.mem_cons_self ht)
  | elseIf location place condition body rest ih =>
    rw [Chain.trees, List.forall_mem_cons] at hshort
    rw [Chain.conditions, List.forall_mem_cons] at hconditions
    rw [Chain.statements, List.forall_mem_append] at h
    obtain ⟨hnode, hrest⟩ := hshort
    have hbody := legible_ofTrees fun t ht =>
      h.1 t ht (hnode.block (List.mem_cons_of_mem _ List.mem_cons_self) ht)
    exact .branch true hconditions.1 (hnode.child List.mem_cons_self) hbody
      (ih hconditions.2 hrest h.2)

theorem Tree.IsStatement.legible {t : Tree} (h : t.IsStatement) (hshort : t.Short) :
    (Stmt.ofTree t).Legible := by
  induction h with
  | function location start place name type parameters body =>
    intro σ _
    rw [Stmt.ofTree_function, Stmt.findings]
    simp [Finding.misuse, Finding.IsIssue]
  | declaration location name type value hvalue =>
    intro σ hσ
    rw [Stmt.ofTree_declaration, Stmt.findings]
    cases value with
    | none => simp [Expr.findings?]
    | some v =>
      exact (hvalue v rfl).isIssue_findings (hshort.child (by simp [declarationNode]))
        (hσ.declare name)
  | assignment location name value hvalue =>
    intro σ hσ
    rw [Stmt.ofTree_assignment, Stmt.findings, List.forall_mem_append]
    exact ⟨hvalue.isIssue_findings (hshort.child (by simp [assignmentNode])) hσ,
      Scope.isIssue_variableFindings hσ name _⟩
  | conditional location place condition body rest hcondition hbody hconditions hrest ihbody
    ihrest =>
    rw [Stmt.ofTree_conditional location place body rest hcondition]
    have hchain : ∀ t ∈ rest.trees, t.Short := fun t ht =>
      hshort.child (List.mem_cons_of_mem _ (List.mem_cons_of_mem _ ht))
    have hyes := Stmt.legible_ofTrees fun t ht =>
      ihbody t ht (hshort.block (List.mem_cons_of_mem _ List.mem_cons_self) ht)
    exact .branch false hcondition (hshort.child List.mem_cons_self) hyes
      (Stmt.legible_ofChain hconditions hchain ihrest)
  | loop location place condition body hcondition hbody ihbody =>
    intro σ hσ
    have hlegible := Stmt.legible_ofTrees fun t ht =>
      ihbody t ht (hshort.block (List.mem_cons_of_mem _ List.mem_cons_self) ht)
    rw [Stmt.ofTree_loop, Stmt.findings, List.forall_mem_append]
    exact ⟨hcondition.isIssue_findings (hshort.child List.mem_cons_self) hσ, hlegible σ hσ⟩
  | giveBack location value hvalue =>
    intro σ hσ
    rw [Stmt.ofTree_giveBack, Stmt.findings]
    split
    · simp [Finding.misuse, Finding.IsIssue]
    · exact hvalue.isIssue_findings (hshort.child List.mem_cons_self) hσ
  | value t hvalue =>
    intro σ hσ
    rw [Stmt.ofTree_value hvalue, Stmt.findings]
    exact hvalue.isIssue_findings hshort hσ

/-! ## Scripts -/

/-- Every function of a source text gets code or has a name that is taken. -/
theorem Script.exists_of_mem_fatesFrom {signatures : List Signature} {seen : List String}
    {fs : List Parts} {fate : Fate}
    (h : fate ∈ Script.fatesFrom signatures seen (fs.map Parts.written)) :
    ∃ f ∈ fs, fate = .repeated f.name (some f.location) ∨
      ∃ signature, fate = .defined ⟨f.name, signature, f.written, Stmt.ofTrees f.body⟩ := by
  induction fs generalizing seen with
  | nil => cases h
  | cons f fs ih =>
    simp only [List.map_cons, Script.fatesFrom, Parts.written] at h
    split at h
    · rcases List.mem_cons.mp h with rfl | h
      · exact ⟨f, List.mem_cons_self, .inl rfl⟩
      · obtain ⟨g, hg, hfate⟩ := ih h
        exact ⟨g, List.mem_cons_of_mem f hg, hfate⟩
    · rcases List.mem_cons.mp h with rfl | h
      · exact ⟨f, List.mem_cons_self, .inr ⟨_, rfl⟩⟩
      · obtain ⟨g, hg, hfate⟩ := ih h
        exact ⟨g, List.mem_cons_of_mem f hg, hfate⟩

namespace Script.Reading

variable {tree : Tree} {statements : List Tree} {fs : List Parts} {s : Script}

theorem short_statement (h : Reading tree statements fs s) (hshort : tree.Short) :
    ∀ t ∈ statements, t.Short := by
  intro t ht
  exact hshort.child (h.children ▸ ht)

theorem short_body (h : Reading tree statements fs s) (hshort : tree.Short) {f : Parts}
    (hf : f ∈ fs) : ∀ t ∈ f.body, t.Short := by
  intro t ht
  have hmem : f.tree ∈ statements.filter (·.kind = .function) :=
    h.parts ▸ List.mem_map_of_mem hf
  have hfunction : f.tree.Short := h.short_statement hshort _ (List.mem_filter.mp hmem).1
  have hblock : blockNode f.place f.body ∈ f.tree.children := by simp [Parts.tree, functionNode]
  exact hfunction.block hblock ht

/-- Nothing that is found in a source text with short numerals breaks down. -/
theorem isIssue_findings (h : Reading tree statements fs s) (hshort : tree.Short) :
    ∀ f ∈ s.findings, f.IsIssue := by
  have hstart : s.startScope.FrameNamed := by simp [Scope.FrameNamed, Script.startScope]
  have hentry : s.entry.Legible := by
    rw [h.script_eq]
    refine Stmt.legible_ofTrees fun t ht => ?_
    have hmem := List.mem_of_mem_filter ht
    exact (h.isStatement t hmem).legible (h.short_statement hshort t hmem)
  rw [Script.findings, Script.entryFindings, List.forall_mem_append, List.forall_mem_append]
  refine ⟨⟨?_, hentry _ hstart⟩, ?_⟩
  · intro f hf
    obtain ⟨d, -, rfl⟩ := List.mem_map.mp hf
    trivial
  intro f hf
  -- a function whose name is taken is reported as such, and nothing in it is looked at
  obtain ⟨fate, hfate, hf⟩ := List.mem_flatMap.mp hf
  rw [Script.fates, h.functions] at hfate
  obtain ⟨g, hg, rfl | ⟨signature, rfl⟩⟩ := Script.exists_of_mem_fatesFrom hfate
  · obtain rfl := List.mem_singleton.mp hf
    trivial
  · rw [Fate.findings, Definition.findings, List.mem_append, List.mem_map] at hf
    rcases hf with ⟨p, -, rfl⟩ | hf
    · trivial
    · have hbody : (Stmt.ofTrees g.body).Legible := Stmt.legible_ofTrees fun t ht =>
        (h.bodies g hg t ht).legible (h.short_body hshort hg t ht)
      have hscope : (s.functionScope.enter signature g.written.parameters).FrameNamed :=
        Scope.frameNamed_enter _ signature (by simp [Parts.written])
      exact hbody _ hscope f hf

end Script.Reading

/-! ## Tokens -/

namespace Token

/-- No identifier is a numeral. -/
theorem Lexeme.exists_not_digit {k : Kind} {cs : List Char} (h : Lexeme k cs)
    (hk : k = .identifier) : ∃ c ∈ cs, Text.isAsciiDigit c = false := by
  cases h with
  | keyword k hkeyword => exact absurd hkeyword (by rw [hk]; decide)
  | identifier cs hword =>
    obtain ⟨c, hc, hstart⟩ := hword.start
    exact ⟨c, List.mem_of_mem_head? hc, isAsciiDigit_of_isWordStart hstart⟩
  | number cs => cases hk
  | operator k hoperator => exact absurd hoperator (by rw [hk]; decide)

/-- Tokens of a source text that are written in digits are numbers. -/
theorem kind_eq_number_of_scan {file : String} {text : List Char} {ts : List Token}
    (h : scan file .start text = .ok ts) {t : Token} (ht : t ∈ ts)
    (hoperand : Grammar.isOperand t.kind = true)
    (hdigits : ∀ c ∈ t.lexeme.toList, Text.isAsciiDigit c = true) : t.kind = .number := by
  have hcut := explains_scan file [] text
  rw [Position.after_nil, h] at hcut
  obtain ⟨us, hcut, rfl⟩ := hcut
  rcases List.mem_append.mp ht with ht | ht
  · cases hkind : t.kind with
    | number => rfl
    | identifier =>
      obtain ⟨c, hc, hother⟩ := (hcut.isLexeme t ht).exists_not_digit hkind
      exact absurd (hdigits c hc) (by simp [hother])
    | _ => rw [hkind] at hoperand; cases hoperand
  · rw [List.mem_singleton.mp ht] at hoperand
    cases hoperand

end Token

/-- The numerals of a tree are among the numbers of its tokens. -/
theorem Source.short_tree {file source : String} {lines : List String} {ts : List Token}
    {tree : Tree} (hts : Source.tokens file source = .ok ts)
    (htree : Source.treeOfTokens file lines ts = .ok tree)
    (hshort : ∀ t ∈ ts, t.kind = .number → t.lexeme.length ≤ Text.digitLimit) : tree.Short := by
  unfold Source.tokens at hts
  split at hts
  case h_2 => cases hts
  rename_i ts' hscan
  obtain rfl := Except.ok.inj hts
  unfold Source.treeOfTokens at htree
  split at htree
  case h_2 => cases htree
  rename_i tree' hprogram
  obtain rfl := Except.ok.inj htree
  obtain ⟨d, hword, rfl⟩ := Grammar.exists_derivation_of_program hprogram
  -- the tree spells the names and numbers of the tokens, and what is written in digits is no name
  intro x hx _ hdigits
  rw [d.spellings_program, Grammar.operands, List.mem_map] at hx
  obtain ⟨t, ht, rfl⟩ := hx
  obtain ⟨ht, hoperand⟩ := List.mem_filter.mp ht
  have hmem : t ∈ ts' := by
    rw [hword] at ht
    exact (List.takeWhile_sublist _).mem ht
  exact hshort t hmem (Token.kind_eq_number_of_scan hscan hmem hoperand hdigits)

/-! ## Refused source texts -/

/-- A script in which all findings can be listed gets a program and a report. -/
theorem Generation.exists_ok_of_isIssue (options : CompileOptions) (lines : List String)
    {s : Script} (h : ∀ f ∈ s.findings, f.IsIssue) :
    ∃ generated, (ofScript options lines s).result = .ok generated := by
  have hnone : (events s).findSome? Event.breakdown? = none := by
    rw [List.findSome?_eq_none_iff]
    intro e he
    cases e with
    | finished name entry parameters locals => rfl
    | found f =>
      have hissue : f.IsIssue := h f (filterMap_events s ▸ List.mem_filterMap.mpr ⟨_, he, rfl⟩)
      cases f with
      | issue cause location => rfl
      | breakdown b => exact hissue.elim
  unfold ofScript
  simp only [hnone]
  split
  · exact ⟨_, rfl⟩
  · exact ⟨_, rfl⟩

/-- The refusals that say what is wrong: a character that starts no token, a token that does not
belong where it stands, or a report that lists something. -/
inductive Rejection.IsExplained : Rejection → Prop
  | character (c : Char) (hint : Option String) (location : Option Location)
      (sourceLine : Option String) :
      IsExplained (.diagnostic ⟨.invalidCharacter c hint, location, sourceLine⟩)
  | missing (expected found : String) (location : Option Location) (sourceLine : Option String) :
      IsExplained (.diagnostic ⟨.missingToken expected found, location, sourceLine⟩)
  | unexpected (found : String) (expected : Option String) (location : Option Location)
      (sourceLine : Option String) :
      IsExplained (.diagnostic ⟨.unexpectedToken found expected, location, sourceLine⟩)
  | report (r : Report Diagnostic) (h : r.errors ≠ []) : IsExplained (.report r)

theorem Source.isExplained_of_tokens {file source : String} {d : Diagnostic}
    (h : Source.tokens file source = .error d) : (Rejection.diagnostic d).IsExplained := by
  unfold Source.tokens at h
  split at h
  · cases h
  · obtain rfl := Except.error.inj h
    exact .character _ _ _ _

theorem Source.isExplained_of_treeOfTokens {file : String} {lines : List String} {ts : List Token}
    {d : Diagnostic} (h : Source.treeOfTokens file lines ts = .error d) :
    (Rejection.diagnostic d).IsExplained := by
  unfold Source.treeOfTokens at h
  split at h
  · cases h
  · rename_i r hr
    obtain rfl := Except.error.inj h
    rcases Grammar.cause_eq r with ⟨expected, found, hcause⟩ | ⟨found, expected, hcause⟩
    · rw [Parser.Refusal.diagnostic, hcause]
      exact .missing _ _ _ _
    · rw [Parser.Refusal.diagnostic, hcause]
      exact .unexpected _ _ _ _

/-- Where no number is too long, a source text that does not compile is refused for a reason. -/
theorem Compilation.isExplained_of_error {options : CompileOptions} {file source : String}
    {r : Rejection}
    (hshort : ∀ ts, Source.tokens file source = .ok ts →
      ∀ t ∈ ts, t.kind = .number → t.lexeme.length ≤ Text.digitLimit)
    (h : (Compilation.ofSource options file source).result = .error r) : r.IsExplained := by
  unfold Compilation.ofSource at h
  split at h
  · rename_i d htokens
    obtain rfl := Except.error.inj h
    exact Source.isExplained_of_tokens htokens
  rename_i ts hts
  split at h
  · rename_i d htree
    obtain rfl := Except.error.inj h
    exact Source.isExplained_of_treeOfTokens htree
  rename_i tree htree
  have hparsed : Source.tree file source = .ok tree := by
    simp only [Source.tree, hts, bind, Except.bind, htree]
  obtain ⟨statements, fs, s, hreading⟩ := Source.exists_reading hparsed
  obtain ⟨generated, hgenerated⟩ := Generation.exists_ok_of_isIssue options (Source.lines source)
    (hreading.isIssue_findings (Source.short_tree hts htree (hshort ts hts)))
  simp only [Generation.ofTree, hreading.script, hgenerated] at h
  split at h
  · rename_i herrors
    obtain rfl := Except.error.inj h
    exact .report _ (by simpa [Report.hasErrors] using herrors)
  · cases h

end StackLang
