import StackLang.Proofs.Grammar.Plain

/-!
# Expressions are read as they are derived

Before a token that cannot continue it, an expression is read up to that token, and what is read is
the tree of its derivation. An operator continues any expression, and a parenthesis one that ends
with a name. Statements are read as they are derived as well, if nothing that follows can continue
one of their values: if each value at the end of a statement stands in parentheses.
-/

namespace StackLang.Grammar

open Token (Kind)
open StackLang.Parser (lead lead_cons lead_nil)

/-! ## First tokens -/

/-- The kinds that start an expression. -/
def isExpressionStart : Kind → Bool
  | .leftParen | .minus | .number | .identifier => true
  | _ => false

/-- The kind of the token that a factor starts with. -/
def Factor.start : Factor → Kind
  | .parenthesised _ _ _ => .leftParen
  | .negative _ _ => .minus
  | .number _ => .number
  | .name _ | .call _ _ _ _ => .identifier

theorem Factor.word_eq_cons (f : Factor) : ∃ t w, f.word = t :: w ∧ t.kind = f.start := by
  cases f with
  | parenthesised left inner right => exact ⟨left.1, _, rfl, left.2⟩
  | negative sign operand => exact ⟨sign.1, _, rfl, sign.2⟩
  | number digits => exact ⟨digits.1, _, rfl, digits.2⟩
  | name token => exact ⟨token.1, _, rfl, token.2⟩
  | call name left arguments right => exact ⟨name.1, _, rfl, name.2⟩

/-- The first factor of an expression. -/
def Expression.first : Expression → Factor
  | .mk (.mk first _) _ => first

/-- What follows the first factor of an expression. -/
def Expression.others : Expression → List Token
  | .mk (.mk _ factors) terms => factors.word ++ terms.word

theorem Expression.word_eq (e : Expression) : e.word = e.first.word ++ e.others := by
  obtain ⟨⟨first, factors⟩, terms⟩ := e
  exact List.append_assoc ..

/-- An expression starts like its first factor. -/
theorem Expression.start_of_word {e : Expression} {t : Token} {w : List Token}
    (h : e.word = t :: w) : t.kind = e.first.start := by
  obtain ⟨u, us, hu, hk⟩ := e.first.word_eq_cons
  rw [e.word_eq, hu, List.cons_append] at h
  exact (List.cons.inj h).1 ▸ hk

theorem Expression.word_eq_cons (e : Expression) :
    ∃ t w, e.word = t :: w ∧ isExpressionStart t.kind = true := by
  obtain ⟨t, w, hw, ht⟩ := e.first.word_eq_cons
  refine ⟨t, w ++ e.others, by rw [e.word_eq, hw, List.cons_append], ?_⟩
  rw [ht]
  cases e.first <;> rfl

/-- The kinds that can continue an expression. -/
def isContinuation : Kind → Bool
  | .star | .slash | .plus | .minus | .leftParen => true
  | _ => false

/-- What follows an argument cannot continue it. -/
theorem MoreArguments.word_append_eq_cons (d : MoreArguments) {close : Token}
    (hk : close.kind = .rightParen) (rest : List Token) :
    ∃ t ts, d.word ++ close :: rest = t :: ts ∧ isContinuation t.kind = false := by
  cases d with
  | nil => exact ⟨close, rest, rfl, by rw [hk]; rfl⟩
  | cons comma next others => exact ⟨comma.1, _, rfl, by rw [comma.2]; rfl⟩

/-- The kinds that start a statement. -/
def isStatementStart (k : Kind) : Bool := Parser.isStatementWord k || isExpressionStart k

theorem Statement.word_eq_cons (s : Statement) :
    ∃ t w, s.word = t :: w ∧ isStatementStart t.kind = true := by
  cases s with
  | function word => exact ⟨word.1, _, rfl, by rw [word.2]; rfl⟩
  | declaration word => exact ⟨word.1, _, rfl, by rw [word.2]; rfl⟩
  | conditional word => exact ⟨word.1, _, rfl, by rw [word.2]; rfl⟩
  | loop word => exact ⟨word.1, _, rfl, by rw [word.2]; rfl⟩
  | giveBack word => exact ⟨word.1, _, rfl, by rw [word.2]; rfl⟩
  | assignment name => exact ⟨name.1, _, rfl, by rw [name.2]; rfl⟩
  | expression value =>
    obtain ⟨t, w, hw, ht⟩ := value.word_eq_cons
    exact ⟨t, w, hw, by rw [isStatementStart, ht, Bool.or_true]⟩

/-- Tokens do not start with one of the kinds that satisfy `p`. -/
def Ends (p : Kind → Bool) (ts : List Token) : Prop := ∀ k ∈ lead ts, p k = false

theorem ends_cons {p : Kind → Bool} {t : Token} (h : p t.kind = false) (ts : List Token) :
    Ends p (t :: ts) := by
  rintro k ⟨⟩
  exact h

theorem Ends.imp {p q : Kind → Bool} {ts : List Token} (h : Ends p ts)
    (hpq : ∀ k, p k = false → q k = false) : Ends q ts :=
  fun k hk => hpq k (h k hk)

theorem Ends.lead_ne {p : Kind → Bool} {ts : List Token} (h : Ends p ts) {k : Kind}
    (hk : p k = true) : lead ts ≠ some k := by
  intro hlead
  rw [h k hlead] at hk
  cases hk

/-! ## What continues an expression -/

/-- The kind of the last token, if there is one. -/
def trail (ts : List Token) : Option Kind := ts.getLast?.map Token.kind

theorem trail_append (ts : List Token) {us : List Token} (h : us ≠ []) :
    trail (ts ++ us) = trail us := by
  rw [trail, trail, List.getLast?_append, List.getLast?_eq_some_getLast h, Option.some_or]

/-- No call starts where tokens meet: there is no name before or no parenthesis after. -/
def CallFree (w rest : List Token) : Prop :=
  trail w = some .identifier → lead rest ≠ some .leftParen

theorem CallFree.left {w v rest : List Token} (h : CallFree (w ++ v) rest)
    (hv : lead v ≠ some .leftParen) : CallFree w (v ++ rest) := by
  cases v with
  | nil => rwa [List.append_nil] at h
  | cons t v => exact fun _ => hv

theorem CallFree.right {w v rest : List Token} (h : CallFree (w ++ v) rest) :
    CallFree v rest := by
  cases v with
  | nil => rintro ⟨⟩
  | cons t v =>
    intro hname
    exact h ((trail_append w (List.cons_ne_nil t v)).trans hname)

/-- The tokens `rest` do not continue an expression that ends with the tokens `w`. -/
structure Apart (w rest : List Token) : Prop where
  additive : Ends Kind.isAdditive rest
  multiplicative : Ends Kind.isMultiplicative rest
  callFree : CallFree w rest

theorem Apart.right {w v rest : List Token} (h : Apart (w ++ v) rest) : Apart v rest :=
  ⟨h.additive, h.multiplicative, h.callFree.right⟩

theorem Ends.apart {rest : List Token} (h : Ends isContinuation rest) (w : List Token) :
    Apart w rest where
  additive := h.imp fun k hk => by cases k <;> first | rfl | cases hk
  multiplicative := h.imp fun k hk => by cases k <;> first | rfl | cases hk
  callFree := fun _ => h.lead_ne rfl

/-- A further factor starts with an operator. -/
theorem Factors.lead_word_ne (fs : Factors) : lead fs.word ≠ some .leftParen := by
  cases fs with
  | nil => rintro ⟨⟩
  | cons operator next others =>
    intro hlead
    have hop := operator.2
    rw [Option.some.inj hlead] at hop
    cases hop

/-- A further term starts with an operator, which is none of a term. -/
theorem Terms.ends_word (ts : Terms) {rest : List Token} (h : Ends Kind.isMultiplicative rest) :
    Ends Kind.isMultiplicative (ts.word ++ rest) ∧ lead ts.word ≠ some .leftParen := by
  cases ts with
  | nil => exact ⟨h, by rintro ⟨⟩⟩
  | cons operator next others =>
    have hop := operator.2
    refine ⟨ends_cons ?_ _, fun hlead => ?_⟩
    · cases hk : operator.1.kind <;> rw [hk] at hop <;> first | rfl | cases hop
    · rw [Option.some.inj hlead] at hop
      cases hop

/-- What follows an argument cannot continue it. -/
theorem MoreArguments.ends (as : MoreArguments) {close : Token} (hk : close.kind = .rightParen)
    (rest : List Token) : Ends isContinuation (as.word ++ close :: rest) := by
  obtain ⟨t, ts, hts, ht⟩ := as.word_append_eq_cons hk rest
  rw [hts]
  exact ends_cons ht ts

end StackLang.Grammar

namespace StackLang.Parser

open Token (Kind)
open Grammar

/-! ## Expressions -/

/-- A sum ends before what is not one of its operators. -/
theorem sumTail_end (stop : Token) (left : Tree) {rest : List Token}
    (h : Ends Kind.isAdditive rest) : plain (sumTail stop left rest) = .ok (left, rest) := by
  cases rest with
  | nil => exact plain_sumTail_nil stop left
  | cons t rest => rw [plain_sumTail_cons, h t.kind rfl, if_neg Bool.false_ne_true]

/-- A product ends before what is not one of its operators. -/
theorem productTail_end (stop : Token) (left : Tree) {rest : List Token}
    (h : Ends Kind.isMultiplicative rest) :
    plain (productTail stop left rest) = .ok (left, rest) := by
  cases rest with
  | nil => exact plain_productTail_nil stop left
  | cons t rest => rw [plain_productTail_cons, h t.kind rfl, if_neg Bool.false_ne_true]

/-- Parentheses around an expression are read, and leave no trace. -/
theorem factor_parenthesised (stop : Token) (left : Of .leftParen) (right : Of .rightParen)
    {ts rest : List Token} {inner : Tree}
    (h : plain (expression stop ts) = .ok (inner, right.1 :: rest)) :
    plain (factor stop (left.1 :: ts)) = .ok (inner, rest) := by
  have hleft : left.1.kind ≠ .minus := by rw [left.2]; decide
  rw [plain_factor_cons, if_neg hleft, plain_primary_leftParen stop left.2, bind_eq_ok]
  exact ⟨_, h, bind_eq_ok.mpr ⟨_, plain_expectToken_eq_ok.mpr ⟨rfl, right.2⟩, rfl⟩⟩

mutual

/-- An expression is read as it is derived up to what does not continue it. -/
theorem expression_apart (stop : Token) (e : Expression) {rest : List Token}
    (h : Apart e.word rest) : plain (expression stop (e.word ++ rest)) = .ok (e.tree, rest) := by
  cases e with
  | mk first others =>
    obtain ⟨hends, hlead⟩ := others.ends_word h.multiplicative
    rw [Expression.word] at h
    rw [Expression.word, List.append_assoc, plain_expression,
      term_apart stop first hends (h.callFree.left hlead), Expression.tree]
    exact sumTail_apart stop first.tree others h.right

theorem sumTail_apart (stop : Token) (left : Tree) (ts : Terms) {rest : List Token}
    (h : Apart ts.word rest) :
    plain (sumTail stop left (ts.word ++ rest)) = .ok (ts.treeFrom left, rest) := by
  cases ts with
  | nil =>
    rw [Terms.word, List.nil_append, Terms.treeFrom]
    exact sumTail_end stop left h.additive
  | cons operator next others =>
    obtain ⟨hends, hlead⟩ := others.ends_word h.multiplicative
    rw [Terms.word] at h
    have hnext := (h.callFree.left hlead).right (w := [operator.1])
    rw [Terms.word, List.cons_append, List.cons_append, List.append_assoc, plain_sumTail_cons,
      if_pos operator.2, term_apart stop next hends hnext, Terms.treeFrom]
    exact sumTail_apart stop _ others h.right

/-- A term is read as it is derived up to what does not continue it. -/
theorem term_apart (stop : Token) (t : Term) {rest : List Token}
    (hends : Ends Kind.isMultiplicative rest) (hcall : CallFree t.word rest) :
    plain (term stop (t.word ++ rest)) = .ok (t.tree, rest) := by
  cases t with
  | mk first others =>
    rw [Term.word] at hcall
    rw [Term.word, List.append_assoc, plain_term,
      factor_apart stop first (hcall.left others.lead_word_ne), Term.tree]
    exact productTail_apart stop first.tree others hends hcall.right

theorem productTail_apart (stop : Token) (left : Tree) (fs : Factors) {rest : List Token}
    (hends : Ends Kind.isMultiplicative rest) (hcall : CallFree fs.word rest) :
    plain (productTail stop left (fs.word ++ rest)) = .ok (fs.treeFrom left, rest) := by
  cases fs with
  | nil =>
    rw [Factors.word, List.nil_append, Factors.treeFrom]
    exact productTail_end stop left hends
  | cons operator next others =>
    rw [Factors.word] at hcall
    have hnext := (hcall.left others.lead_word_ne).right (w := [operator.1])
    rw [Factors.word, List.cons_append, List.cons_append, List.append_assoc,
      plain_productTail_cons, if_pos operator.2, factor_apart stop next hnext, Factors.treeFrom]
    exact productTail_apart stop _ others hends hcall.right

/-- A factor that is not continued to a call is read as it is derived. -/
theorem factor_apart (stop : Token) (f : Factor) {rest : List Token} (h : CallFree f.word rest) :
    plain (factor stop (f.word ++ rest)) = .ok (f.tree, rest) := by
  cases f with
  | parenthesised left inner right =>
    have hright : isContinuation right.1.kind = false := by rw [right.2]; rfl
    rw [Factor.word, List.cons_append, List.cons_append, List.append_assoc, Factor.tree]
    exact factor_parenthesised stop left right
      (expression_apart stop inner ((ends_cons hright rest).apart _))
  | negative sign operand =>
    rw [Factor.word] at h
    rw [Factor.word, List.cons_append, plain_factor_cons, if_pos sign.2,
      factor_apart stop operand (h.right (w := [sign.1])), Factor.tree]
    rfl
  | number digits =>
    have hdigits : digits.1.kind ≠ .minus := by rw [digits.2]; decide
    rw [Factor.word, List.singleton_append, plain_factor_cons, if_neg hdigits,
      plain_primary_number stop digits.2, Factor.tree]
  | name token =>
    have htoken : token.1.kind ≠ .minus := by rw [token.2]; decide
    rw [Factor.word, List.singleton_append, plain_factor_cons, if_neg htoken,
      plain_primary_variable stop token.2 (h (congrArg some token.2)), Factor.tree]
  | call token left arguments right =>
    have htoken : token.1.kind ≠ .minus := by rw [token.2]; decide
    have hword : (Factor.call token left arguments right).word ++ rest =
        token.1 :: left.1 :: (arguments.word ++ right.1 :: rest) := by simp [Factor.word]
    rw [hword, plain_factor_cons, if_neg htoken, plain_primary_call stop token.2 left.2,
      arguments_exact stop arguments right.2 rest, Factor.tree]
    rfl

/-- Arguments are read up to the parenthesis that closes them. -/
theorem arguments_exact (stop : Token) (as : Arguments) {close : Token}
    (hk : close.kind = .rightParen) (rest : List Token) :
    plain (arguments stop (as.word ++ close :: rest)) = .ok (as.trees, rest) := by
  cases as with
  | none =>
    rw [Arguments.word, List.nil_append, plain_arguments_close stop hk, Arguments.trees]
  | some first others =>
    obtain ⟨t, w, hw, hstart⟩ := first.word_eq_cons
    have hfirst : lead (first.word ++ (others.word ++ close :: rest)) ≠ some .rightParen := by
      rw [hw, List.cons_append, lead_cons]
      intro he
      rw [Option.some.inj he] at hstart
      cases hstart
    rw [Arguments.word, List.append_assoc, plain_arguments stop hfirst, Arguments.trees,
      bind_eq_ok]
    exact ⟨_, expression_apart stop first ((others.ends hk rest).apart _),
      bind_eq_ok.mpr ⟨_, moreArguments_exact stop others hk rest, rfl⟩⟩

/-- Further arguments are read up to the parenthesis that closes them. -/
theorem moreArguments_exact (stop : Token) (as : MoreArguments) {close : Token}
    (hk : close.kind = .rightParen) (rest : List Token) :
    plain (moreArguments stop (as.word ++ close :: rest)) = .ok (as.trees, rest) := by
  cases as with
  | nil =>
    have hcomma : lead (close :: rest) ≠ some .comma := by
      rw [lead_cons, hk]
      decide
    rw [MoreArguments.word, List.nil_append, plain_moreArguments stop hcomma,
      MoreArguments.trees]
    exact bind_eq_ok.mpr ⟨_, plain_expectToken_eq_ok.mpr ⟨rfl, hk⟩, rfl⟩
  | cons comma next others =>
    rw [MoreArguments.word, List.cons_append, List.cons_append, List.append_assoc,
      plain_moreArguments_comma stop comma.2, MoreArguments.trees, bind_eq_ok]
    exact ⟨_, expression_apart stop next ((others.ends hk rest).apart _),
      bind_eq_ok.mpr ⟨_, moreArguments_exact stop others hk rest, rfl⟩⟩

end

/-- An expression before what cannot continue any is read as it is derived. -/
theorem expression_exact (stop : Token) (e : Expression) {rest : List Token}
    (h : Ends isContinuation rest) :
    plain (expression stop (e.word ++ rest)) = .ok (e.tree, rest) :=
  expression_apart stop e (h.apart _)

theorem parenthesised_exact (stop : Token) (d : Test) (rest : List Token) :
    plain (parenthesised stop (d.word ++ rest)) = .ok (d.condition.tree, rest) := by
  obtain ⟨left, ⟨l, operator, r⟩, right⟩ := d
  have hop : isContinuation operator.1.kind = false := by
    have hc := operator.2
    cases hk : operator.1.kind <;> rw [hk] at hc <;> first | rfl | cases hc
  have hright : isContinuation right.1.kind = false := by rw [right.2]; rfl
  have hl := expression_exact stop l (ends_cons hop (r.word ++ right.1 :: rest))
  have hr := expression_exact stop r (ends_cons hright rest)
  have hcondition : plain (condition stop (l.word ++ operator.1 :: (r.word ++ right.1 :: rest))) =
      .ok (binaryNode .condition operator.1 l.tree r.tree, right.1 :: rest) := by
    rw [plain_condition, bind_eq_ok]
    refine ⟨_, hl, bind_eq_ok.mpr ⟨(operator.1, r.word ++ right.1 :: rest), ?_, ?_⟩⟩
    · exact plain_expectWhere_eq_ok.mpr ⟨rfl, operator.2⟩
    · exact bind_eq_ok.mpr ⟨_, hr, rfl⟩
  have hword : Test.word ⟨left, ⟨l, operator, r⟩, right⟩ ++ rest =
      left.1 :: (l.word ++ operator.1 :: (r.word ++ right.1 :: rest)) := by
    simp [Test.word, Condition.word]
  rw [hword, plain_parenthesised, bind_eq_ok]
  refine ⟨_, plain_expectToken_eq_ok.mpr ⟨rfl, left.2⟩, bind_eq_ok.mpr ⟨_, hcondition, ?_⟩⟩
  exact bind_eq_ok.mpr ⟨_, plain_expectToken_eq_ok.mpr ⟨rfl, right.2⟩, rfl⟩

/-! ## Heads of functions -/

theorem parameter_exact (stop : Token) (d : Grammar.Parameter) (rest : List Token) :
    plain (parameter stop (d.word ++ rest)) = .ok (d.tree, rest) := by
  rw [plain_parameter, bind_eq_ok]
  refine ⟨_, plain_expect_eq_ok.mpr ⟨rfl, d.name.2⟩, bind_eq_ok.mpr
    ⟨_, plain_expectToken_eq_ok.mpr ⟨rfl, d.colon.2⟩, bind_eq_ok.mpr ?_⟩⟩
  exact ⟨_, plain_expectWhere_eq_ok.mpr ⟨rfl, d.type.2⟩, rfl⟩

theorem moreParameters_exact (stop : Token) (ds : List (Of .comma × Grammar.Parameter))
    {rest : List Token} (h : lead rest ≠ some .comma) :
    plain (moreParameters stop (moreParametersWord ds ++ rest)) =
      .ok (ds.map (·.2.tree), rest) := by
  induction ds with
  | nil => exact plain_moreParameters stop h
  | cons d ds ih =>
    have hword : moreParametersWord (d :: ds) ++ rest =
        d.1.1 :: (d.2.word ++ (moreParametersWord ds ++ rest)) := by
      simp [moreParametersWord]
    rw [hword, plain_moreParameters_comma stop d.1.2, bind_eq_ok]
    exact ⟨_, parameter_exact stop d.2 _, bind_eq_ok.mpr ⟨_, ih, rfl⟩⟩

theorem parameters_exact (stop : Token) (d : Parameters) {close : Token}
    (hk : close.kind = .rightParen) (rest : List Token) :
    plain (parameters stop (d.word ++ close :: rest)) = .ok (d.trees, close :: rest) := by
  rw [plain_parameters]
  cases d with
  | none =>
    have hpeek : (peek stop (Parameters.none.word ++ close :: rest)).kind = .rightParen := hk
    exact if_pos hpeek
  | some first others =>
    have hpeek : (peek stop ((Parameters.some first others).word ++ close :: rest)).kind ≠
        .rightParen := by
      have hname : (peek stop ((Parameters.some first others).word ++ close :: rest)).kind =
          .identifier := first.name.2
      rw [hname]
      decide
    have hcomma : lead (close :: rest) ≠ some .comma := by
      rw [lead_cons, hk]
      decide
    rw [if_neg hpeek, Parameters.word, List.append_assoc, bind_eq_ok]
    exact ⟨_, parameter_exact stop first _,
      bind_eq_ok.mpr ⟨_, moreParameters_exact stop others hcomma, rfl⟩⟩

theorem functionHead_exact (stop : Token) (name : Of .identifier) (left : Of .leftParen)
    (parameters : Parameters) (right : Of .rightParen) (arrow : Of .arrow)
    (type : OneOf Kind.isType) (rest : List Token) :
    plain (functionHead stop (name.1 :: left.1 ::
      (parameters.word ++ right.1 :: arrow.1 :: type.1 :: rest))) =
      .ok ((name.1.lexeme, parametersNode (parameters.start right.1) parameters.trees,
        type.1.lexeme), rest) := by
  have hstart : (peek stop (parameters.word ++ right.1 :: arrow.1 :: type.1 :: rest)).location =
      parameters.start right.1 := by
    cases parameters <;> rfl
  rw [plain_functionHead, bind_eq_ok, ← hstart]
  refine ⟨_, plain_expect_eq_ok.mpr ⟨rfl, name.2⟩, bind_eq_ok.mpr
    ⟨_, plain_expectToken_eq_ok.mpr ⟨rfl, left.2⟩, bind_eq_ok.mpr
      ⟨_, parameters_exact stop parameters right.2 _, bind_eq_ok.mpr ?_⟩⟩⟩
  refine ⟨_, plain_expectToken_eq_ok.mpr ⟨rfl, right.2⟩, bind_eq_ok.mpr
    ⟨_, plain_expectToken_eq_ok.mpr ⟨rfl, arrow.2⟩, bind_eq_ok.mpr ?_⟩⟩
  exact ⟨_, plain_expectWhere_eq_ok.mpr ⟨rfl, type.2⟩, rfl⟩

end StackLang.Parser

namespace StackLang.Grammar

open Token (Kind)
open StackLang.Parser (lead lead_cons)

/-! ## Statements with enclosed values -/

/-- An expression in parentheses. -/
inductive Expression.IsEnclosed : Expression → Prop
  | mk (left : Of .leftParen) (inner : Expression) (right : Of .rightParen) :
      IsEnclosed (.mk (.mk (.parenthesised left inner right) .nil) .nil)

mutual

/-- The values with which statements end, here and inside, are in parentheses. -/
def Statement.IsEnclosed : Statement → Prop
  | .function _ _ _ _ _ _ _ body => body.IsEnclosed
  | .declaration _ _ _ _ value => ∀ v ∈ value, v.2.IsEnclosed
  | .conditional _ _ body others => body.IsEnclosed ∧ others.IsEnclosed
  | .loop _ _ body => body.IsEnclosed
  | .giveBack _ value => value.IsEnclosed
  | .assignment _ _ value => value.IsEnclosed
  | .expression value => value.IsEnclosed

/-- The values with which statements of a block end are in parentheses. -/
def Block.IsEnclosed : Block → Prop
  | .mk _ statements _ => statements.IsEnclosed

/-- The values with which statements end are in parentheses. -/
def Statements.IsEnclosed : Statements → Prop
  | .nil => True
  | .cons first others => first.IsEnclosed ∧ others.IsEnclosed

/-- The values with which statements in branches end are in parentheses. -/
def Branches.IsEnclosed : Branches → Prop
  | .nil => True
  | .elseIf _ _ body others => body.IsEnclosed ∧ others.IsEnclosed
  | .otherwise _ body => body.IsEnclosed

end

/-- The kinds that do not start a statement whose values are in parentheses, and do not close a
block. -/
def isInside : Kind → Bool
  | .leftParen | .identifier | .rightBrace => false
  | k => !Parser.isStatementWord k

theorem Statement.IsEnclosed.ends {s : Statement} (h : s.IsEnclosed) (ts : List Token) :
    Ends isInside (s.word ++ ts) := by
  cases s with
  | function word => exact ends_cons (by rw [word.2]; rfl) _
  | declaration word => exact ends_cons (by rw [word.2]; rfl) _
  | conditional word => exact ends_cons (by rw [word.2]; rfl) _
  | loop word => exact ends_cons (by rw [word.2]; rfl) _
  | giveBack word => exact ends_cons (by rw [word.2]; rfl) _
  | assignment name => exact ends_cons (by rw [name.2]; rfl) _
  | expression value =>
    rw [Statement.IsEnclosed] at h
    obtain ⟨left, inner, right⟩ := h
    exact ends_cons (by rw [left.2]; rfl) _

theorem Statements.IsEnclosed.ends {ss : Statements} (h : ss.IsEnclosed) {last : List Token}
    (hlast : Ends isInside last) : Ends isInside (ss.word ++ last) := by
  cases ss with
  | nil => exact hlast
  | cons first others =>
    rw [Statements.IsEnclosed] at h
    rw [Statements.word, List.append_assoc]
    exact h.1.ends _

end StackLang.Grammar

namespace StackLang.Parser

open Token (Kind)
open Grammar

/-- An expression in parentheses is read up to the next statement, whatever that starts with. -/
theorem expression_enclosed (stop : Token) {e : Expression} (h : e.IsEnclosed) {rest : List Token}
    (hrest : Ends isInside rest) :
    plain (expression stop (e.word ++ rest)) = .ok (e.tree, rest) := by
  obtain ⟨left, inner, right⟩ := h
  have hright : isContinuation right.1.kind = false := by rw [right.2]; rfl
  have hfactor : plain (factor stop (left.1 :: (inner.word ++ right.1 :: rest))) =
      .ok (inner.tree, rest) :=
    factor_parenthesised stop left right (expression_exact stop inner (ends_cons hright rest))
  have hword : (Expression.mk (.mk (.parenthesised left inner right) .nil) .nil).word ++ rest =
      left.1 :: (inner.word ++ right.1 :: rest) := by
    simp [Expression.word, Term.word, Factor.word, Factors.word, Terms.word]
  rw [hword, plain_expression, bind_eq_ok]
  refine ⟨(inner.tree, rest), ?_, ?_⟩
  · rw [plain_term, hfactor]
    exact productTail_end stop _ (hrest.imp fun k hk => by cases k <;> first | rfl | cases hk)
  · exact sumTail_end stop _ (hrest.imp fun k hk => by cases k <;> first | rfl | cases hk)

theorem declaration_enclosed (stop : Token) (location : Location) (name : Of .identifier)
    (colon : Of .colon) (type : OneOf Kind.isType) {value : Option (Of .assign × Expression)}
    (h : ∀ v ∈ value, v.2.IsEnclosed) {rest : List Token} (hrest : Ends isInside rest) :
    plain (declaration stop location (name.1 :: colon.1 :: type.1 :: (valueWord value ++ rest))) =
      .ok (declarationNode location name.1.lexeme type.1.lexeme (value.map (·.2.tree)), rest) := by
  rw [plain_declaration, bind_eq_ok]
  refine ⟨_, plain_expect_eq_ok.mpr ⟨rfl, name.2⟩, bind_eq_ok.mpr
    ⟨_, plain_expectToken_eq_ok.mpr ⟨rfl, colon.2⟩, bind_eq_ok.mpr
      ⟨_, plain_expectWhere_eq_ok.mpr ⟨rfl, type.2⟩, ?_⟩⟩⟩
  cases value with
  | none => exact if_neg (hrest.lead_ne rfl)
  | some v =>
    have hassign : lead (valueWord (some v) ++ rest) = some .assign := congrArg some v.1.2
    refine (if_pos hassign).trans (bind_eq_ok.mpr ?_)
    exact ⟨_, expression_enclosed stop (h v rfl) hrest, rfl⟩

mutual

/-- Statements whose values are in parentheses are read as they are derived. -/
theorem statement_exact (stop : Token) {s : Statement} (h : s.IsEnclosed) {rest : List Token}
    (hrest : Ends isInside rest) :
    plain (statement stop (s.word ++ rest)) = .ok (s.tree, rest) := by
  cases s with
  | function word name left parameters right arrow type body =>
    rw [Statement.IsEnclosed] at h
    have hhead := functionHead_exact stop name left parameters right arrow type (body.word ++ rest)
    have hword : (Statement.function word name left parameters right arrow type body).word ++ rest =
        word.1 :: name.1 :: left.1 ::
          (parameters.word ++ right.1 :: arrow.1 :: type.1 :: (body.word ++ rest)) := by
      simp [Statement.word]
    rw [hword, plain_statement_fn stop word.2, Statement.tree, bind_eq_ok]
    exact ⟨_, hhead, bind_eq_ok.mpr ⟨_, block_exact stop h rest, rfl⟩⟩
  | declaration word name colon type value =>
    rw [Statement.IsEnclosed] at h
    rw [Statement.word, List.cons_append, plain_statement_var stop word.2, Statement.tree]
    exact declaration_enclosed stop word.1.location name colon type h hrest
  | conditional word test body others =>
    rw [Statement.IsEnclosed] at h
    have htest := parenthesised_exact stop test (body.word ++ (others.word ++ rest))
    rw [Statement.word, List.cons_append, List.append_assoc, List.append_assoc,
      plain_statement_if stop word.2, Statement.tree, bind_eq_ok]
    exact ⟨_, htest, bind_eq_ok.mpr ⟨_, block_exact stop h.1 _,
      bind_eq_ok.mpr ⟨_, branches_exact stop h.2 hrest, rfl⟩⟩⟩
  | loop word test body =>
    rw [Statement.IsEnclosed] at h
    have htest := parenthesised_exact stop test (body.word ++ rest)
    rw [Statement.word, List.cons_append, List.append_assoc, plain_statement_while stop word.2,
      Statement.tree, bind_eq_ok]
    exact ⟨_, htest, bind_eq_ok.mpr ⟨_, block_exact stop h rest, rfl⟩⟩
  | giveBack word value =>
    rw [Statement.IsEnclosed] at h
    rw [Statement.word, List.cons_append, plain_statement_return stop word.2, Statement.tree,
      bind_eq_ok]
    exact ⟨_, expression_enclosed stop h hrest, rfl⟩
  | assignment name sign value =>
    rw [Statement.IsEnclosed] at h
    rw [Statement.word, List.cons_append, List.cons_append,
      plain_statement_assignment stop name.2 sign.2, Statement.tree, bind_eq_ok]
    exact ⟨_, expression_enclosed stop h hrest, rfl⟩
  | expression value =>
    rw [Statement.IsEnclosed] at h
    have hvalue := expression_enclosed stop h hrest
    rw [Statement.word, Statement.tree, ← hvalue]
    obtain ⟨left, inner, right⟩ := h
    have hleft : isStatementWord left.1.kind = false := by rw [left.2]; rfl
    exact plain_statement_expression stop hleft fun hname => by
      rw [left.2] at hname
      cases hname.1

/-- A block whose values are in parentheses is read as it is derived. -/
theorem block_exact (stop : Token) {b : Block} (h : b.IsEnclosed) (rest : List Token) :
    plain (block stop (b.word ++ rest)) = .ok (b.tree, rest) := by
  cases b with
  | mk left statements right =>
    rw [Block.IsEnclosed] at h
    have hword : (Block.mk left statements right).word ++ rest =
        left.1 :: (statements.word ++ right.1 :: rest) := by simp [Block.word]
    rw [hword, plain_block, Block.tree, bind_eq_ok]
    exact ⟨_, plain_expectToken_eq_ok.mpr ⟨rfl, left.2⟩,
      bind_eq_ok.mpr ⟨_, blockTail_exact stop h right.2 rest, rfl⟩⟩

/-- The statements of a block are read up to the brace that closes it. -/
theorem blockTail_exact (stop : Token) {ss : Statements} (h : ss.IsEnclosed) {close : Token}
    (hk : close.kind = .rightBrace) (rest : List Token) :
    plain (blockTail stop (ss.word ++ close :: rest)) = .ok (ss.trees, rest) := by
  cases ss with
  | nil =>
    rw [Statements.word, List.nil_append, plain_blockTail_close stop hk, Statements.trees]
  | cons first others =>
    rw [Statements.IsEnclosed] at h
    have hclose : Ends isInside (close :: rest) := ends_cons (by rw [hk]; rfl) rest
    have hfirst := statement_exact stop h.1 (h.2.ends hclose)
    obtain ⟨t, w, hw, ht⟩ := first.word_eq_cons
    have hne : t.kind ≠ .rightBrace := by
      intro he
      rw [he] at ht
      cases ht
    rw [hw, List.cons_append] at hfirst
    rw [Statements.word, hw, List.append_assoc, List.cons_append, plain_blockTail stop hne,
      Statements.trees, bind_eq_ok]
    exact ⟨_, hfirst, bind_eq_ok.mpr ⟨_, blockTail_exact stop h.2 hk rest, rfl⟩⟩

/-- Further branches are read up to what cannot be one. -/
theorem branches_exact (stop : Token) {bs : Branches} (h : bs.IsEnclosed) {rest : List Token}
    (hrest : Ends isInside rest) :
    plain (branches stop (bs.word ++ rest)) = .ok (bs.trees, rest) := by
  cases bs with
  | nil => exact plain_branches stop (hrest.lead_ne rfl) (hrest.lead_ne rfl)
  | elseIf word test body others =>
    rw [Branches.IsEnclosed] at h
    have htest := parenthesised_exact stop test (body.word ++ (others.word ++ rest))
    rw [Branches.word, List.cons_append, List.append_assoc, List.append_assoc,
      plain_branches_elseif stop word.2, Branches.trees, bind_eq_ok]
    exact ⟨_, htest, bind_eq_ok.mpr ⟨_, block_exact stop h.1 _,
      bind_eq_ok.mpr ⟨_, branches_exact stop h.2 hrest, rfl⟩⟩⟩
  | otherwise word body =>
    rw [Branches.IsEnclosed] at h
    rw [Branches.word, List.cons_append, plain_branches_else stop word.2, Branches.trees,
      bind_eq_ok]
    exact ⟨_, block_exact stop h rest, rfl⟩

end

/-- Statements whose values are in parentheses are read to their end as they are derived. -/
theorem statements_exact (stop : Token) {ss : Statements} (h : ss.IsEnclosed) :
    statements stop ss.word = .ok ss.trees := by
  cases ss with
  | nil => rw [Statements.word, statements_nil, Statements.trees]
  | cons first others =>
    rw [Statements.IsEnclosed] at h
    have hnil : Ends isInside [] := by rintro k ⟨⟩
    have hfirst := statement_exact stop h.1 (h.2.ends hnil)
    obtain ⟨t, w, hw, -⟩ := first.word_eq_cons
    rw [hw, List.cons_append, List.append_nil] at hfirst
    rw [Statements.word, hw, List.cons_append, statements_cons, Statements.trees, bind_eq_ok]
    exact ⟨_, hfirst, bind_eq_ok.mpr ⟨_, statements_exact stop h.2, rfl⟩⟩

end StackLang.Parser
