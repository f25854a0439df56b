import StackLang.Proofs.Grammar.Plain

/-!
# Places do not matter to the parser

The parser puts the places of tokens into trees and refusals, and does nothing else with them. So
moving the tokens moves what it comes to. Two token lists that differ in places only are moved to
the same one, and come to trees or refusals that differ in places only.
-/

namespace StackLang

/-- A token at another place. -/
def Token.moved (move : Location → Location) (t : Token) : Token :=
  { t with location := move t.location }

mutual

/-- A tree with its places moved. -/
def Tree.moved (move : Location → Location) : Tree → Tree
  | ⟨kind, value, attributes, children, location⟩ =>
    ⟨kind, value, attributes, Tree.movedAll move children, location.map move⟩

/-- Several trees with their places moved. -/
def Tree.movedAll (move : Location → Location) : List Tree → List Tree
  | [] => []
  | t :: ts => Tree.moved move t :: Tree.movedAll move ts

end

namespace Parser

open Token (Kind)
open Grammar

/-- A refusal with its token moved. -/
def Refusal.moved (move : Location → Location) (r : Refusal) : Refusal :=
  { r with found := r.found.moved move }

variable {α β : Type} (move : Location → Location)

/-- An attempt with its tokens moved, and with its value changed. -/
def moved (change : α → β) : Attempt (α × List Token) → Attempt (β × List Token)
  | .ok p => .ok (change p.1, p.2.map (Token.moved move))
  | .error r => .error (r.moved move)

/-- One attempt after another, moved one after the other. -/
theorem bind_moved {α' β' : Type} {change : α → α'} {change' : β → β'}
    {a : Attempt (α × List Token)} {a' : Attempt (α' × List Token)}
    {f : α × List Token → Attempt (β × List Token)}
    {f' : α' × List Token → Attempt (β' × List Token)} (ha : a' = moved move change a)
    (hf : ∀ v rest, a = .ok (v, rest) →
      f' (change v, rest.map (Token.moved move)) = moved move change' (f (v, rest))) :
    a'.bind f' = moved move change' (a.bind f) := by
  subst ha
  cases a with
  | error r => rfl
  | ok p => exact hf p.1 p.2 rfl

@[simp] theorem lead_moved (ts : List Token) : lead (ts.map (Token.moved move)) = lead ts := by
  cases ts <;> rfl

@[simp] theorem kind_moved (t : Token) : (t.moved move).kind = t.kind := rfl

theorem peek_moved (stop : Token) (ts : List Token) :
    peek (stop.moved move) (ts.map (Token.moved move)) = (peek stop ts).moved move := by
  cases ts <;> rfl

/-- An operator with two operands starts where the left one does. -/
theorem moved_binaryNode (kind : Tree.Kind) (operator : Token) (left right : Tree) :
    (binaryNode kind operator left right).moved move =
      binaryNode kind (operator.moved move) (left.moved move) (right.moved move) := by
  cases left
  rfl

theorem expectWhere_moved (p : Kind → Bool) (expected : Expectation) (stop : Token)
    (ts : List Token) :
    plain (expectWhere (stop.moved move) p expected (ts.map (Token.moved move))) =
      moved move (Token.moved move) (plain (expectWhere stop p expected ts)) := by
  rw [plain_expectWhere, plain_expectWhere]
  cases ts with
  | nil => rfl
  | cons t ts =>
    by_cases hp : p t.kind = true
    · have hp' : p (t.moved move).kind = true := hp
      simp only [List.map_cons, if_pos hp, if_pos hp']
      rfl
    · have hp' : ¬p (t.moved move).kind = true := hp
      simp only [List.map_cons, if_neg hp, if_neg hp']
      rfl

theorem expect_moved (k : Kind) (expected : Expectation) (stop : Token) (ts : List Token) :
    plain (expect (stop.moved move) k expected (ts.map (Token.moved move))) =
      moved move (Token.moved move) (plain (expect stop k expected ts)) :=
  expectWhere_moved move _ expected stop ts

theorem expectToken_moved (k : Kind) (stop : Token) (ts : List Token) :
    plain (expectToken (stop.moved move) k (ts.map (Token.moved move))) =
      moved move (Token.moved move) (plain (expectToken stop k ts)) :=
  expect_moved move k _ stop ts

mutual

theorem expression_moved (stop : Token) (ts : List Token) :
    plain (expression (stop.moved move) (ts.map (Token.moved move))) =
      moved move (Tree.moved move) (plain (expression stop ts)) := by
  rw [plain_expression, plain_expression]
  refine bind_moved move (term_moved stop ts) fun left rest hterm => ?_
  have hlt := length_lt_of_plain hterm
  exact sumTail_moved stop left rest
termination_by 6 * ts.length + 4

theorem sumTail_moved (stop : Token) (left : Tree) (ts : List Token) :
    plain (sumTail (stop.moved move) (left.moved move) (ts.map (Token.moved move))) =
      moved move (Tree.moved move) (plain (sumTail stop left ts)) := by
  match ts with
  | [] =>
    rw [List.map_nil, plain_sumTail_nil, plain_sumTail_nil]
    rfl
  | operator :: ts₀ =>
    rw [List.map_cons, plain_sumTail_cons, plain_sumTail_cons, kind_moved]
    split
    · refine bind_moved move (term_moved stop ts₀) fun right rest hterm => ?_
      have hlt := length_lt_of_plain hterm
      have htail := sumTail_moved stop (binaryNode .expression operator left right) rest
      rwa [moved_binaryNode] at htail
    · rfl
termination_by 6 * ts.length
decreasing_by all_goals simp only [List.length_cons]; omega

theorem term_moved (stop : Token) (ts : List Token) :
    plain (term (stop.moved move) (ts.map (Token.moved move))) =
      moved move (Tree.moved move) (plain (term stop ts)) := by
  rw [plain_term, plain_term]
  refine bind_moved move (factor_moved stop ts) fun left rest hfactor => ?_
  have hlt := length_lt_of_plain hfactor
  exact productTail_moved stop left rest
termination_by 6 * ts.length + 3

theorem productTail_moved (stop : Token) (left : Tree) (ts : List Token) :
    plain (productTail (stop.moved move) (left.moved move) (ts.map (Token.moved move))) =
      moved move (Tree.moved move) (plain (productTail stop left ts)) := by
  match ts with
  | [] =>
    rw [List.map_nil, plain_productTail_nil, plain_productTail_nil]
    rfl
  | operator :: ts₀ =>
    rw [List.map_cons, plain_productTail_cons, plain_productTail_cons, kind_moved]
    split
    · refine bind_moved move (factor_moved stop ts₀) fun right rest hfactor => ?_
      have hlt := length_lt_of_plain hfactor
      have htail := productTail_moved stop (binaryNode .term operator left right) rest
      rwa [moved_binaryNode] at htail
    · rfl
termination_by 6 * ts.length
decreasing_by all_goals simp only [List.length_cons]; omega

theorem factor_moved (stop : Token) (ts : List Token) :
    plain (factor (stop.moved move) (ts.map (Token.moved move))) =
      moved move (Tree.moved move) (plain (factor stop ts)) := by
  match ts with
  | [] =>
    rw [List.map_nil, plain_factor_nil, plain_factor_nil]
    rfl
  | t :: ts₀ =>
    have hprimary := primary_moved stop (t :: ts₀)
    rw [List.map_cons] at hprimary ⊢
    rw [plain_factor_cons, plain_factor_cons, kind_moved]
    split
    · exact bind_moved move (factor_moved stop ts₀) fun _ _ _ => rfl
    · exact hprimary
termination_by 6 * ts.length + 2

theorem primary_moved (stop : Token) (ts : List Token) :
    plain (primary (stop.moved move) (ts.map (Token.moved move))) =
      moved move (Tree.moved move) (plain (primary stop ts)) := by
  match ts with
  | [] =>
    rw [List.map_nil, primary, primary]
    rfl
  | t :: ts₀ =>
    rw [List.map_cons]
    have hkind : (t.moved move).kind = t.kind := rfl
    by_cases hp : t.kind = .leftParen
    · rw [plain_primary_leftParen _ hp, plain_primary_leftParen _ (hkind.trans hp)]
      refine bind_moved move (expression_moved stop ts₀) fun inner rest _ => ?_
      exact bind_moved move (expectToken_moved move .rightParen stop rest) fun _ _ _ => rfl
    by_cases hn : t.kind = .number
    · rw [plain_primary_number _ hn, plain_primary_number _ (hkind.trans hn)]
      rfl
    by_cases hi : t.kind = .identifier
    · have hvariable (hl : lead ts₀ ≠ some .leftParen) :
          plain (primary (stop.moved move) (t.moved move :: ts₀.map (Token.moved move))) =
            moved move (Tree.moved move) (plain (primary stop (t :: ts₀))) := by
        rw [plain_primary_variable _ hi hl, plain_primary_variable _ (hkind.trans hi)
          (by rwa [lead_moved])]
        rfl
      match ts₀ with
      | [] => exact hvariable (by simp)
      | l :: ts₁ =>
        by_cases hl : l.kind = .leftParen
        · have hl' : (l.moved move).kind = .leftParen := hl
          rw [List.map_cons, plain_primary_call _ hi hl, plain_primary_call _ (hkind.trans hi) hl']
          exact bind_moved move (arguments_moved stop ts₁) fun _ _ _ => rfl
        · exact hvariable (by simpa using hl)
    · rw [plain_primary_other _ hp hn hi, plain_primary_other _ (hkind ▸ hp) (hkind ▸ hn)
        (hkind ▸ hi)]
      rfl
termination_by 6 * ts.length + 1
decreasing_by all_goals simp only [List.length_cons]; omega

theorem arguments_moved (stop : Token) (ts : List Token) :
    plain (arguments (stop.moved move) (ts.map (Token.moved move))) =
      moved move (Tree.movedAll move) (plain (arguments stop ts)) := by
  by_cases hclose : lead ts = some .rightParen
  · obtain ⟨t, rest, rfl, ht⟩ := lead_eq_some_iff.mp hclose
    have ht' : (t.moved move).kind = .rightParen := ht
    rw [List.map_cons, plain_arguments_close _ ht, plain_arguments_close _ ht']
    rfl
  · rw [plain_arguments _ hclose, plain_arguments _ (by rwa [lead_moved])]
    refine bind_moved move (expression_moved stop ts) fun first rest hfirst => ?_
    have hlt := length_lt_of_plain hfirst
    exact bind_moved move (moreArguments_moved stop rest) fun _ _ _ => rfl
termination_by 6 * ts.length + 5

theorem moreArguments_moved (stop : Token) (ts : List Token) :
    plain (moreArguments (stop.moved move) (ts.map (Token.moved move))) =
      moved move (Tree.movedAll move) (plain (moreArguments stop ts)) := by
  by_cases hcomma : lead ts = some .comma
  · obtain ⟨t, rest, hts, ht⟩ := lead_eq_some_iff.mp hcomma
    have hlength : ts.length = rest.length + 1 := by rw [hts, List.length_cons]
    have ht' : (t.moved move).kind = .comma := ht
    rw [hts, List.map_cons, plain_moreArguments_comma _ ht, plain_moreArguments_comma _ ht']
    refine bind_moved move (expression_moved stop rest) fun first rest' hfirst => ?_
    have hlt := length_lt_of_plain hfirst
    exact bind_moved move (moreArguments_moved stop rest') fun _ _ _ => rfl
  · rw [plain_moreArguments _ hcomma, plain_moreArguments _ (by rwa [lead_moved])]
    exact bind_moved move (expectToken_moved move .rightParen stop ts) fun _ _ _ => rfl
termination_by 6 * ts.length

end

/-! ## Statements -/

theorem condition_moved (stop : Token) (ts : List Token) :
    plain (condition (stop.moved move) (ts.map (Token.moved move))) =
      moved move (Tree.moved move) (plain (condition stop ts)) := by
  rw [plain_condition, plain_condition]
  refine bind_moved move (expression_moved move stop ts) fun left ts₁ _ => ?_
  refine bind_moved move (expectWhere_moved move _ _ stop ts₁) fun operator ts₂ _ => ?_
  refine bind_moved move (expression_moved move stop ts₂) fun right ts₃ _ => ?_
  simp only [← moved_binaryNode]
  rfl

theorem parenthesised_moved (stop : Token) (ts : List Token) :
    plain (parenthesised (stop.moved move) (ts.map (Token.moved move))) =
      moved move (Tree.moved move) (plain (parenthesised stop ts)) := by
  rw [plain_parenthesised, plain_parenthesised]
  refine bind_moved move (expectToken_moved move _ stop ts) fun _ ts₁ _ => ?_
  refine bind_moved move (condition_moved move stop ts₁) fun inner ts₂ _ => ?_
  exact bind_moved move (expectToken_moved move _ stop ts₂) fun _ _ _ => rfl

theorem parameter_moved (stop : Token) (ts : List Token) :
    plain (parameter (stop.moved move) (ts.map (Token.moved move))) =
      moved move (Tree.moved move) (plain (parameter stop ts)) := by
  rw [plain_parameter, plain_parameter]
  refine bind_moved move (expect_moved move _ _ stop ts) fun name ts₁ _ => ?_
  refine bind_moved move (expectToken_moved move _ stop ts₁) fun _ ts₂ _ => ?_
  exact bind_moved move (expectWhere_moved move _ _ stop ts₂) fun _ _ _ => rfl

theorem moreParameters_moved (stop : Token) (ts : List Token) :
    plain (moreParameters (stop.moved move) (ts.map (Token.moved move))) =
      moved move (Tree.movedAll move) (plain (moreParameters stop ts)) := by
  by_cases hcomma : lead ts = some .comma
  · obtain ⟨t, rest, hts, ht⟩ := lead_eq_some_iff.mp hcomma
    have hlength : ts.length = rest.length + 1 := by rw [hts, List.length_cons]
    have ht' : (t.moved move).kind = .comma := ht
    rw [hts, List.map_cons, plain_moreParameters_comma _ ht, plain_moreParameters_comma _ ht']
    refine bind_moved move (parameter_moved move stop rest) fun first rest' hfirst => ?_
    have hlt := length_lt_of_plain hfirst
    exact bind_moved move (moreParameters_moved stop rest') fun _ _ _ => rfl
  · rw [plain_moreParameters _ hcomma, plain_moreParameters _ (by rwa [lead_moved])]
    rfl
termination_by ts.length

theorem parameters_moved (stop : Token) (ts : List Token) :
    plain (parameters (stop.moved move) (ts.map (Token.moved move))) =
      moved move (Tree.movedAll move) (plain (parameters stop ts)) := by
  rw [plain_parameters, plain_parameters, peek_moved, kind_moved]
  split
  · rfl
  · refine bind_moved move (parameter_moved move stop ts) fun first rest _ => ?_
    exact bind_moved move (moreParameters_moved move stop rest) fun _ _ _ => rfl

theorem functionHead_moved (stop : Token) (ts : List Token) :
    plain (functionHead (stop.moved move) (ts.map (Token.moved move))) =
      moved move (fun head => (head.1, head.2.1.moved move, head.2.2))
        (plain (functionHead stop ts)) := by
  rw [plain_functionHead, plain_functionHead]
  refine bind_moved move (expect_moved move _ _ stop ts) fun name ts₁ _ => ?_
  refine bind_moved move (expectToken_moved move _ stop ts₁) fun _ ts₂ _ => ?_
  refine bind_moved move (parameters_moved move stop ts₂) fun children ts₃ _ => ?_
  refine bind_moved move (expectToken_moved move _ stop ts₃) fun _ ts₄ _ => ?_
  refine bind_moved move (expectToken_moved move _ stop ts₄) fun _ ts₅ _ => ?_
  refine bind_moved move (expectWhere_moved move _ _ stop ts₅) fun type ts₆ _ => ?_
  simp only [peek_moved]
  rfl

theorem declaration_moved (location : Location) (stop : Token) (ts : List Token) :
    plain (declaration (stop.moved move) (move location) (ts.map (Token.moved move))) =
      moved move (Tree.moved move) (plain (declaration stop location ts)) := by
  rw [plain_declaration, plain_declaration]
  refine bind_moved move (expect_moved move _ _ stop ts) fun name ts₁ _ => ?_
  refine bind_moved move (expectToken_moved move _ stop ts₁) fun _ ts₂ _ => ?_
  refine bind_moved move (expectWhere_moved move _ _ stop ts₂) fun type ts₃ _ => ?_
  simp only [lead_moved]
  split
  · rw [← List.map_tail]
    exact bind_moved move (expression_moved move stop ts₃.tail) fun _ _ _ => rfl
  · rfl

mutual

theorem statement_moved (stop : Token) (ts : List Token) :
    plain (statement (stop.moved move) (ts.map (Token.moved move))) =
      moved move (Tree.moved move) (plain (statement stop ts)) := by
  match ts with
  | [] =>
    rw [List.map_nil, plain_statement_nil, plain_statement_nil]
    exact expression_moved move stop []
  | t :: ts₀ =>
    rw [List.map_cons]
    have hkind : (t.moved move).kind = t.kind := rfl
    cases hword : isStatementWord t.kind with
    | false =>
      by_cases hassign : t.kind = .identifier ∧ lead ts₀ = some .assign
      · obtain ⟨hname, u, ts₁, rfl, hu⟩ := And.imp_right lead_eq_some_iff.mp hassign
        have hu' : (u.moved move).kind = .assign := hu
        rw [List.map_cons, plain_statement_assignment _ hname hu,
          plain_statement_assignment _ (hkind.trans hname) hu']
        exact bind_moved move (expression_moved move stop ts₁) fun _ _ _ => rfl
      · have hassign' : ¬((t.moved move).kind = .identifier ∧
            lead (ts₀.map (Token.moved move)) = some .assign) := by rwa [lead_moved]
        rw [plain_statement_expression _ hword hassign,
          plain_statement_expression _ (by rwa [hkind]) hassign']
        exact expression_moved move stop (t :: ts₀)
    | true =>
      by_cases hfn : t.kind = .keywordFn
      · rw [plain_statement_fn _ hfn, plain_statement_fn _ (hkind.trans hfn)]
        refine bind_moved move (functionHead_moved move stop ts₀) fun head ts₁ hhead => ?_
        have hlt := length_lt_of_plain hhead
        exact bind_moved move (block_moved stop ts₁) fun _ _ _ => rfl
      by_cases hvar : t.kind = .keywordVar
      · rw [plain_statement_var _ hvar, plain_statement_var _ (hkind.trans hvar)]
        exact declaration_moved move t.location stop ts₀
      by_cases hif : t.kind = .keywordIf
      · rw [plain_statement_if _ hif, plain_statement_if _ (hkind.trans hif)]
        refine bind_moved move (parenthesised_moved move stop ts₀) fun test ts₁ htest => ?_
        have hlt := length_lt_of_plain htest
        refine bind_moved move (block_moved stop ts₁) fun body ts₂ hbody => ?_
        have hlt' := length_lt_of_plain hbody
        exact bind_moved move (branches_moved stop ts₂) fun _ _ _ => rfl
      by_cases hwhile : t.kind = .keywordWhile
      · rw [plain_statement_while _ hwhile, plain_statement_while _ (hkind.trans hwhile)]
        refine bind_moved move (parenthesised_moved move stop ts₀) fun test ts₁ htest => ?_
        have hlt := length_lt_of_plain htest
        exact bind_moved move (block_moved stop ts₁) fun _ _ _ => rfl
      · have hreturn : t.kind = .keywordReturn := by
          cases hk : t.kind <;> simp_all [isStatementWord]
        rw [plain_statement_return _ hreturn, plain_statement_return _ (hkind.trans hreturn)]
        exact bind_moved move (expression_moved move stop ts₀) fun _ _ _ => rfl
termination_by 3 * ts.length + 1
decreasing_by all_goals simp only [List.length_cons]; omega

theorem block_moved (stop : Token) (ts : List Token) :
    plain (block (stop.moved move) (ts.map (Token.moved move))) =
      moved move (Tree.moved move) (plain (block stop ts)) := by
  rw [plain_block, plain_block]
  refine bind_moved move (expectToken_moved move _ stop ts) fun brace ts₁ hbrace => ?_
  have hlt := length_lt_of_plain hbrace
  exact bind_moved move (blockTail_moved stop ts₁) fun _ _ _ => rfl
termination_by 3 * ts.length

theorem blockTail_moved (stop : Token) (ts : List Token) :
    plain (blockTail (stop.moved move) (ts.map (Token.moved move))) =
      moved move (Tree.movedAll move) (plain (blockTail stop ts)) := by
  match ts with
  | [] =>
    rw [List.map_nil, plain_blockTail_nil, plain_blockTail_nil]
    rfl
  | t :: ts₀ =>
    have hkind : (t.moved move).kind = t.kind := rfl
    by_cases hclose : t.kind = .rightBrace
    · rw [List.map_cons, plain_blockTail_close _ hclose,
        plain_blockTail_close _ (hkind.trans hclose)]
      rfl
    · have hfirst := statement_moved stop (t :: ts₀)
      rw [List.map_cons] at hfirst ⊢
      rw [plain_blockTail _ hclose, plain_blockTail _ (hkind ▸ hclose)]
      refine bind_moved move hfirst fun first rest hstatement => ?_
      have hlt := length_lt_of_plain hstatement
      exact bind_moved move (blockTail_moved stop rest) fun _ _ _ => rfl
termination_by 3 * ts.length + 2
decreasing_by all_goals simp only [List.length_cons] at *; omega

theorem branches_moved (stop : Token) (ts : List Token) :
    plain (branches (stop.moved move) (ts.map (Token.moved move))) =
      moved move (Tree.movedAll move) (plain (branches stop ts)) := by
  match ts with
  | [] =>
    rw [List.map_nil, plain_branches _ (by simp) (by simp), plain_branches _ (by simp) (by simp)]
    rfl
  | t :: ts₀ =>
    rw [List.map_cons]
    have hkind : (t.moved move).kind = t.kind := rfl
    by_cases helseif : t.kind = .keywordElseif
    · rw [plain_branches_elseif _ helseif, plain_branches_elseif _ (hkind.trans helseif)]
      refine bind_moved move (parenthesised_moved move stop ts₀) fun test ts₁ htest => ?_
      have hlt := length_lt_of_plain htest
      refine bind_moved move (block_moved stop ts₁) fun body ts₂ hbody => ?_
      have hlt' := length_lt_of_plain hbody
      exact bind_moved move (branches_moved stop ts₂) fun _ _ _ => rfl
    by_cases helse : t.kind = .keywordElse
    · rw [plain_branches_else _ helse, plain_branches_else _ (hkind.trans helse)]
      exact bind_moved move (block_moved stop ts₀) fun _ _ _ => rfl
    · rw [plain_branches _ (by simpa using helseif) (by simpa using helse),
        plain_branches _ (by simpa using helseif) (by simpa using helse)]
      rfl
termination_by 3 * ts.length
decreasing_by all_goals simp only [List.length_cons]; omega

end

/-- An attempt at statements with its places moved. -/
def movedAll : Attempt (List Tree) → Attempt (List Tree)
  | .ok trees => .ok (Tree.movedAll move trees)
  | .error r => .error (r.moved move)

theorem statements_moved (stop : Token) (ts : List Token) :
    statements (stop.moved move) (ts.map (Token.moved move)) =
      movedAll move (statements stop ts) := by
  match ts with
  | [] =>
    rw [List.map_nil, statements_nil, statements_nil]
    rfl
  | t :: ts₀ =>
    have hfirst := statement_moved move stop (t :: ts₀)
    rw [List.map_cons] at hfirst ⊢
    rw [statements_cons, statements_cons, hfirst]
    cases hstatement : plain (statement stop (t :: ts₀)) with
    | error r => rfl
    | ok p =>
      obtain ⟨first, rest⟩ := p
      have hlt := length_lt_of_plain hstatement
      simp only [moved, Except.bind, statements_moved stop rest]
      cases statements stop rest <;> rfl
termination_by ts.length
decreasing_by exact hlt

end Parser

end StackLang
