import StackLang.Proofs.Grammar.Cursor

/-!
# Readers follow the parser

What each reader comes to from a position on is what the parser comes to on the tokens left there,
if its calls may go deep enough. Four calls for each of these tokens are enough, and a few more by
the order of the rules, where no token is taken before a call: this is where the loops are seen to
end.
-/

namespace StackLang.Cursor

open Token (Kind)
open StackLang.Parser (Attempt Expectation Refusal plain lead peek)

variable {α β : Type} {tokens left : List Token} {stop : Token} {i depth : Nat}

/-! ## Outcomes of readers -/

/-- What a reader comes to from a position on. -/
def outcome (x : Reader α) (i : Nat) : Option (Attempt (α × Nat)) := (x.run i).run

theorem outcome_bind_ok {x : Reader α} {f : α → Reader β} {a : α} {j : Nat}
    (h : outcome x i = some (.ok (a, j))) : outcome (x >>= f) i = outcome (f a) j := by
  change (outcome x i).bind _ = _
  rw [h]
  rfl

theorem outcome_bind_error {x : Reader α} {f : α → Reader β} {r : Refusal}
    (h : outcome x i = some (.error r)) : outcome (x >>= f) i = some (.error r) := by
  change (outcome x i).bind _ = _
  rw [h]
  rfl

theorem outcome_look (tokens : List Token) (offset i : Nat) :
    outcome (look tokens offset) i = some (.ok (tokenAt tokens (i + offset), i)) := rfl

/-! ## Positions and the tokens left -/

/-- From a position on, the tokens `left` stand before `stop`, the first end of the input. -/
structure Stands (tokens : List Token) (i : Nat) (left : List Token) (stop : Token) : Prop where
  split : ∃ after, tokens.drop i = left ++ stop :: after
  endless : Grammar.Endless left
  kind_stop : stop.kind = .endOfInput

namespace Stands

theorem tail {t : Token} (h : Stands tokens i (t :: left) stop) :
    Stands tokens (i + 1) left stop := by
  obtain ⟨after, hsplit⟩ := h.split
  refine ⟨⟨after, ?_⟩, (Grammar.endless_cons.mp h.endless).2, h.kind_stop⟩
  rw [← List.drop_drop, hsplit]
  rfl

theorem tokenAt_eq (h : Stands tokens i left stop) : tokenAt tokens i = peek stop left := by
  obtain ⟨after, hsplit⟩ := h.split
  have hhead : tokens[i]? = some (peek stop left) := by
    rw [← List.head?_drop, hsplit]
    cases left <;> rfl
  rw [tokenAt, List.getD_eq_getElem?_getD, hhead, Option.getD_some]

/-- Before the end of the input there is a token left. -/
theorem exists_cons (h : Stands tokens i left stop) (hkind : (peek stop left).kind ≠ .endOfInput) :
    ∃ t rest, left = t :: rest ∧ rest.length < left.length ∧ peek stop left = t ∧
      Stands tokens i (t :: rest) stop := by
  cases left with
  | nil => exact absurd h.kind_stop hkind
  | cons t rest => exact ⟨t, rest, rfl, Nat.lt_succ_self _, rfl, h⟩

end Stands

/-- A reader follows an attempt on the tokens left: they refuse alike, or come to one value, and the
position is that of the tokens which are left then. -/
def Follows (tokens : List Token) (stop : Token) (i : Nat) (left : List Token) (x : Reader α) :
    Attempt (α × List Token) → Prop
  | .error r => outcome x i = some (.error r)
  | .ok (a, rest) => ∃ j, outcome x i = some (.ok (a, j)) ∧ Stands tokens j rest stop ∧
      j + rest.length = i + left.length

namespace Follows

theorem pure (h : Stands tokens i left stop) (a : α) :
    Follows tokens stop i left (Pure.pure a) (.ok (a, left)) :=
  ⟨i, rfl, h, rfl⟩

/-- What goes on after a reader that stopped at a position of its own. -/
theorem after {x : Reader α} {f : α → Reader β} {r : Attempt (β × List Token)} {a : α} {j : Nat}
    {left' : List Token} (hx : outcome x i = some (.ok (a, j)))
    (hlength : j + left'.length = i + left.length)
    (hf : Follows tokens stop j left' (f a) r) : Follows tokens stop i left (x >>= f) r := by
  rcases r with e | ⟨b, rest⟩
  · exact (outcome_bind_ok hx).trans hf
  · obtain ⟨k, hk, hstands, hrest⟩ := hf
    exact ⟨k, (outcome_bind_ok hx).trans hk, hstands, hrest.trans hlength⟩

theorem bind {x : Reader α} {f : α → Reader β} {r : Attempt (α × List Token)}
    {g : α × List Token → Attempt (β × List Token)} (hx : Follows tokens stop i left x r)
    (hf : ∀ a rest j, r = .ok (a, rest) → Stands tokens j rest stop →
      Follows tokens stop j rest (f a) (g (a, rest))) :
    Follows tokens stop i left (x >>= f) (r.bind g) := by
  rcases r with e | ⟨a, rest⟩
  · exact outcome_bind_error hx
  · obtain ⟨j, hj, hstands, hlength⟩ := hx
    exact after hj hlength (hf a rest j rfl hstands)

/-- After what the parser has read, fewer tokens are left. -/
theorem andThen {x : Reader α} {f : α → Reader β} {n : Nat} {r : Attempt (Parser.Parsed n α)}
    {g : α × List Token → Attempt (β × List Token)} (hx : Follows tokens stop i left x (plain r))
    (hf : ∀ a rest j, rest.length < n → Stands tokens j rest stop →
      Follows tokens stop j rest (f a) (g (a, rest))) :
    Follows tokens stop i left (x >>= f) ((plain r).bind g) :=
  hx.bind fun a rest j hr hj => hf a rest j (Parser.length_lt_of_plain hr) hj

theorem look {f : Token → Reader α} {r : Attempt (α × List Token)}
    (h : Stands tokens i left stop) (hf : Follows tokens stop i left (f (peek stop left)) r) :
    Follows tokens stop i left (Cursor.look tokens 0 >>= f) r := by
  refine after ?_ rfl hf
  rw [outcome_look, Nat.add_zero, h.tokenAt_eq]

theorem lookNext {t : Token} {f : Token → Reader α} {r : Attempt (α × List Token)}
    (h : Stands tokens i (t :: left) stop)
    (hf : Follows tokens stop i (t :: left) (f (peek stop left)) r) :
    Follows tokens stop i (t :: left) (Cursor.look tokens 1 >>= f) r := by
  refine after ?_ rfl hf
  rw [outcome_look, h.tail.tokenAt_eq]

/-- A token before the end of the input is taken. -/
theorem outcome_advance {t : Token} (h : Stands tokens i (t :: left) stop) :
    outcome (Cursor.advance tokens) i = some (.ok (t, i + 1)) := by
  have hlook : outcome (Cursor.look tokens 0) i = some (.ok (t, i)) := by
    rw [outcome_look, Nat.add_zero, h.tokenAt_eq]
    rfl
  have hkind : t.kind ≠ .endOfInput := (Grammar.endless_cons.mp h.endless).1
  rw [Cursor.advance, outcome_bind_ok hlook, if_neg hkind]
  rfl

theorem advance {t : Token} {f : Token → Reader α} {r : Attempt (α × List Token)}
    (h : Stands tokens i (t :: left) stop) (hf : Follows tokens stop (i + 1) left (f t) r) :
    Follows tokens stop i (t :: left) (Cursor.advance tokens >>= f) r := by
  refine after (outcome_advance h) ?_ hf
  rw [List.length_cons]
  omega

theorem expectWhere {p : Kind → Bool} (hp : p .endOfInput = false) (expected : Expectation)
    (h : Stands tokens i left stop) :
    Follows tokens stop i left (Cursor.expectWhere tokens p expected)
      (plain (Parser.expectWhere stop p expected left)) := by
  rw [Parser.plain_expectWhere, Cursor.expectWhere]
  refine look h ?_
  cases left with
  | nil =>
    have hstop : ¬p (peek stop []).kind = true := by
      change ¬p stop.kind = true
      rw [h.kind_stop, hp]
      decide
    rw [if_neg hstop]
    rfl
  | cons t left =>
    change Follows tokens stop i (t :: left)
      (if p t.kind then Cursor.advance tokens else throw ⟨expected, t⟩)
      (if p t.kind then .ok (t, left) else .error ⟨expected, t⟩)
    split
    · refine ⟨i + 1, outcome_advance h, h.tail, ?_⟩
      rw [List.length_cons]
      omega
    · rfl

theorem expect {kind : Kind} (hkind : kind ≠ .endOfInput) (expected : Expectation)
    (h : Stands tokens i left stop) :
    Follows tokens stop i left (Cursor.expect tokens kind expected)
      (plain (Parser.expect stop kind expected left)) :=
  expectWhere (decide_eq_false hkind.symm) expected h

theorem expectToken {kind : Kind} (hkind : kind ≠ .endOfInput) (h : Stands tokens i left stop) :
    Follows tokens stop i left (Cursor.expectToken tokens kind)
      (plain (Parser.expectToken stop kind left)) :=
  expect hkind (.token kind) h

/-- A token that is expected and there is taken. -/
theorem expectCons {kind : Kind} {t : Token} {f : Token → Reader α} {r : Attempt (α × List Token)}
    (hkind : kind ≠ .endOfInput) (h : Stands tokens i (t :: left) stop) (ht : t.kind = kind)
    (hf : Follows tokens stop (i + 1) left (f t) r) :
    Follows tokens stop i (t :: left) (Cursor.expectToken tokens kind >>= f) r := by
  have htake := expectToken hkind h
  rw [Parser.plain_expectToken_eq_ok.mpr ⟨rfl, ht⟩] at htake
  obtain ⟨j, hj, -, hlength⟩ := htake
  obtain rfl : j = i + 1 := by
    rw [List.length_cons] at hlength
    omega
  exact after hj hlength hf

/-- A choice by the first token left, which is taken if it is chosen. The end of the input is not
among the tokens to be chosen. -/
theorem choose (p : Kind → Prop) [DecidablePred p] {yes : Token → Token → Reader α}
    {no : Token → Reader α} {r : Attempt (α × List Token)} (hend : ¬p .endOfInput)
    (h : Stands tokens i left stop)
    (hyes : ∀ t rest, left = t :: rest → rest.length < left.length → p t.kind →
      Stands tokens (i + 1) rest stop → Follows tokens stop (i + 1) rest (yes t t) r)
    (hno : ¬p (peek stop left).kind → Follows tokens stop i left (no (peek stop left)) r) :
    Follows tokens stop i left
      (Cursor.look tokens 0 >>= fun token =>
        if p token.kind then Cursor.advance tokens >>= yes token else no token) r := by
  refine look h ?_
  by_cases hp : p (peek stop left).kind
  · rw [if_pos hp]
    cases left with
    | nil => exact absurd (h.kind_stop ▸ hp) hend
    | cons t rest => exact advance h (hyes t rest rfl (Nat.lt_succ_self _) hp h.tail)
  · rw [if_neg hp]
    exact hno hp

end Follows

theorem lead_ne_of_peek {kind : Kind} (h : (peek stop left).kind ≠ kind) :
    lead left ≠ some kind := by
  cases left with
  | nil => simp
  | cons t rest => exact fun heq => h (Option.some.inj heq)

/-! ## Expressions -/

theorem plain_sumTail_of_other (sum : Tree) (h : ¬(peek stop left).kind.isAdditive = true) :
    plain (Parser.sumTail stop sum left) = .ok (sum, left) := by
  cases left with
  | nil => exact Parser.plain_sumTail_nil stop sum
  | cons t rest => rw [Parser.plain_sumTail_cons]; exact if_neg h

theorem plain_productTail_of_other (product : Tree)
    (h : ¬(peek stop left).kind.isMultiplicative = true) :
    plain (Parser.productTail stop product left) = .ok (product, left) := by
  cases left with
  | nil => exact Parser.plain_productTail_nil stop product
  | cons t rest => rw [Parser.plain_productTail_cons]; exact if_neg h

/-- Without a minus sign in front, a factor is a primary. -/
theorem plain_factor_of_other (h : (peek stop left).kind ≠ .minus) :
    plain (Parser.factor stop left) = plain (Parser.primary stop left) := by
  cases left with
  | nil => rw [Parser.plain_factor_nil, Parser.primary]; rfl
  | cons t rest => rw [Parser.plain_factor_cons]; exact if_neg h

/-- Puts minus signs in front of an operand, the first of the list innermost. -/
def negated (signs : List Token) (operand : Tree) : Tree :=
  signs.foldl (fun operand sign => Grammar.negationNode sign operand) operand

/-- The signs that were taken before are put in front of what is read. -/
theorem follows_signLoop {x : Reader Tree} (signs : List Token) (h : Stands tokens i left stop)
    (hd : left.length < depth)
    (hx : ∀ j rest, rest.length ≤ left.length → Stands tokens j rest stop →
      Follows tokens stop j rest x (plain (Parser.primary stop rest))) :
    Follows tokens stop i left
      (signLoop tokens depth signs >>= fun signs =>
        x >>= fun operand => pure (negated signs operand))
      ((plain (Parser.factor stop left)).bind fun y => .ok (negated signs y.1, y.2)) := by
  induction depth generalizing signs i left with
  | zero => exact absurd hd (Nat.not_lt_zero _)
  | succ d ih =>
    rw [signLoop, bind_assoc]
    refine .look h ?_
    by_cases hsign : (peek stop left).kind = .minus
    · obtain ⟨t, rest, hleft, hrest, hpeek, ht⟩ := h.exists_cons (by rw [hsign]; decide)
      have hothers := ih (t :: signs) ht.tail (by omega) fun j us hus => hx j us (by omega)
      have hfactor : ((plain (Parser.factor stop left)).bind fun y =>
            (.ok (negated signs y.1, y.2) : Attempt (Tree × List Token))) =
          (plain (Parser.factor stop rest)).bind fun y => .ok (negated (t :: signs) y.1, y.2) := by
        rw [hleft, Parser.plain_factor_cons, if_pos (hpeek ▸ hsign)]
        cases plain (Parser.factor stop rest) <;> rfl
      rw [if_pos hsign, bind_assoc, hfactor, hleft]
      exact .advance ht hothers
    · rw [if_neg hsign, pure_bind, plain_factor_of_other hsign]
      exact (hx i left (Nat.le_refl _) h).andThen fun operand rest j _ hj => .pure hj _

-- Each bound on the depth is above those of the calls: a call after a token has one token less, and
-- one before any token goes to a rule that needs less.
mutual

theorem follows_expression {depth i : Nat} {left : List Token} (h : Stands tokens i left stop)
    (hd : 4 * left.length + 4 < depth) :
    Follows tokens stop i left (expression tokens depth) (plain (Parser.expression stop left)) := by
  obtain ⟨d, hsucc⟩ := Nat.exists_eq_add_one.mpr (Nat.zero_lt_of_lt hd)
  rw [hsucc, expression, Parser.plain_expression]
  refine (follows_term h (by omega)).andThen fun v rest j hlt hj => ?_
  exact follows_sumLoop v hj (by omega)
termination_by depth

theorem follows_sumLoop (sum : Tree) {depth i : Nat} {left : List Token}
    (h : Stands tokens i left stop) (hd : 4 * left.length < depth) :
    Follows tokens stop i left (sumLoop tokens depth sum)
      (plain (Parser.sumTail stop sum left)) := by
  obtain ⟨d, hsucc⟩ := Nat.exists_eq_add_one.mpr (Nat.zero_lt_of_lt hd)
  rw [hsucc, sumLoop]
  refine .choose (·.isAdditive = true) (by decide) h (fun operator rest hleft hrest hkind hj => ?_)
    fun hother => ?_
  · rw [hleft, Parser.plain_sumTail_cons, if_pos hkind]
    refine (follows_term hj (by omega)).andThen fun v rest' k hlt hk => ?_
    exact follows_sumLoop _ hk (by omega)
  · rw [plain_sumTail_of_other sum hother]
    exact .pure h sum
termination_by depth

theorem follows_term {depth i : Nat} {left : List Token} (h : Stands tokens i left stop)
    (hd : 4 * left.length + 3 < depth) :
    Follows tokens stop i left (term tokens depth) (plain (Parser.term stop left)) := by
  obtain ⟨d, hsucc⟩ := Nat.exists_eq_add_one.mpr (Nat.zero_lt_of_lt hd)
  rw [hsucc, term, Parser.plain_term]
  refine (follows_factor h (by omega)).andThen fun v rest j hlt hj => ?_
  exact follows_productLoop v hj (by omega)
termination_by depth

theorem follows_productLoop (product : Tree) {depth i : Nat} {left : List Token}
    (h : Stands tokens i left stop) (hd : 4 * left.length < depth) :
    Follows tokens stop i left (productLoop tokens depth product)
      (plain (Parser.productTail stop product left)) := by
  obtain ⟨d, hsucc⟩ := Nat.exists_eq_add_one.mpr (Nat.zero_lt_of_lt hd)
  rw [hsucc, productLoop]
  refine .choose (·.isMultiplicative = true) (by decide) h
    (fun operator rest hleft hrest hkind hj => ?_) fun hother => ?_
  · rw [hleft, Parser.plain_productTail_cons, if_pos hkind]
    refine (follows_factor hj (by omega)).andThen fun v rest' k hlt hk => ?_
    exact follows_productLoop _ hk (by omega)
  · rw [plain_productTail_of_other product hother]
    exact .pure h product
termination_by depth

theorem follows_factor {depth i : Nat} {left : List Token} (h : Stands tokens i left stop)
    (hd : 4 * left.length + 2 < depth) :
    Follows tokens stop i left (factor tokens depth) (plain (Parser.factor stop left)) := by
  obtain ⟨d, hsucc⟩ := Nat.exists_eq_add_one.mpr (Nat.zero_lt_of_lt hd)
  have hlength : left.length < d := by omega
  have hsigns := follows_signLoop (x := primary tokens d) [] h hlength fun j rest hrest hj =>
    follows_primary hj (by omega)
  rw [hsucc, factor]
  cases hfactor : plain (Parser.factor stop left) with
  | error r =>
    rw [hfactor] at hsigns
    exact hsigns
  | ok x =>
    rw [hfactor] at hsigns
    exact hsigns
termination_by depth

theorem follows_primary {depth i : Nat} {left : List Token} (h : Stands tokens i left stop)
    (hd : 4 * left.length + 1 < depth) :
    Follows tokens stop i left (primary tokens depth) (plain (Parser.primary stop left)) := by
  obtain ⟨d, hsucc⟩ := Nat.exists_eq_add_one.mpr (Nat.zero_lt_of_lt hd)
  rw [hsucc, primary]
  refine .look h ?_
  by_cases hparen : (peek stop left).kind = .leftParen
  · obtain ⟨t, rest, hleft, hrest, hpeek, ht⟩ := h.exists_cons (by rw [hparen]; decide)
    rw [if_pos hparen, hleft, Parser.plain_primary_leftParen stop (hpeek ▸ hparen)]
    refine .advance ht ?_
    refine (follows_expression ht.tail (by omega)).andThen fun inner rest' j _ hj => ?_
    exact (Follows.expectToken (by decide) hj).andThen fun close rest'' k _ hk => .pure hk _
  rw [if_neg hparen]
  by_cases hnumber : (peek stop left).kind = .number
  · obtain ⟨t, rest, hleft, hrest, hpeek, ht⟩ := h.exists_cons (by rw [hnumber]; decide)
    rw [if_pos hnumber, hpeek, hleft, Parser.plain_primary_number stop (hpeek ▸ hnumber)]
    exact .advance ht (.pure ht.tail _)
  rw [if_neg hnumber]
  by_cases hname : (peek stop left).kind = .identifier
  · obtain ⟨t, rest, hleft, hrest, hpeek, ht⟩ := h.exists_cons (by rw [hname]; decide)
    rw [if_pos hname, hpeek, hleft]
    refine .lookNext ht ?_
    by_cases hcall : (peek stop rest).kind = .leftParen
    · obtain ⟨l, rest', hnext, hrest', hpeek', hl⟩ := ht.tail.exists_cons (by rw [hcall]; decide)
      rw [if_pos hcall, hnext, Parser.plain_primary_call stop (hpeek ▸ hname) (hpeek' ▸ hcall)]
      refine .advance (hnext ▸ ht) (.expectCons (by decide) hl (hpeek' ▸ hcall) ?_)
      exact (follows_arguments hl.tail (by omega)).andThen fun children _ _ _ hend => .pure hend _
    · rw [if_neg hcall, Parser.plain_primary_variable stop (hpeek ▸ hname) (lead_ne_of_peek hcall)]
      exact .advance ht (.pure ht.tail _)
  rw [if_neg hname]
  cases left with
  | nil =>
    rw [Parser.primary]
    rfl
  | cons t rest =>
    rw [Parser.plain_primary_other (t := t) stop hparen hnumber hname]
    rfl
termination_by depth

theorem follows_arguments {depth i : Nat} {left : List Token} (h : Stands tokens i left stop)
    (hd : 4 * left.length + 5 < depth) :
    Follows tokens stop i left (arguments tokens depth) (plain (Parser.arguments stop left)) := by
  obtain ⟨d, hsucc⟩ := Nat.exists_eq_add_one.mpr (Nat.zero_lt_of_lt hd)
  rw [hsucc, arguments]
  refine .choose (· = .rightParen) (by decide) h (fun close rest hleft hrest hkind hj => ?_)
    fun hother => ?_
  · rw [hleft, Parser.plain_arguments_close stop hkind]
    exact .pure hj []
  · rw [Parser.plain_arguments stop (lead_ne_of_peek hother)]
    refine (follows_expression h (by omega)).andThen fun first rest j hlt hj => ?_
    exact (follows_argumentLoop hj (by omega)).andThen fun others rest' k _ hk => .pure hk _
termination_by depth

theorem follows_argumentLoop {depth i : Nat} {left : List Token} (h : Stands tokens i left stop)
    (hd : 4 * left.length + 1 < depth) :
    Follows tokens stop i left (argumentLoop tokens depth)
      (plain (Parser.moreArguments stop left)) := by
  obtain ⟨d, hsucc⟩ := Nat.exists_eq_add_one.mpr (Nat.zero_lt_of_lt hd)
  rw [hsucc, argumentLoop]
  refine .choose (· = .comma) (by decide) h (fun comma rest hleft hrest hkind hj => ?_)
    fun hother => ?_
  · rw [hleft, Parser.plain_moreArguments_comma stop hkind]
    refine (follows_expression hj (by omega)).andThen fun next rest' k hlt hk => ?_
    exact (follows_argumentLoop hk (by omega)).andThen fun others rest'' m _ hm => .pure hm _
  · rw [Parser.plain_moreArguments stop (lead_ne_of_peek hother)]
    exact (Follows.expectToken (by decide) h).andThen fun close rest j _ hj => .pure hj _
termination_by depth

end

theorem follows_condition (h : Stands tokens i left stop) (hd : 4 * left.length + 4 < depth) :
    Follows tokens stop i left (condition tokens depth) (plain (Parser.condition stop left)) := by
  rw [condition, Parser.plain_condition]
  refine (follows_expression h (by omega)).andThen fun l _ _ _ hl => ?_
  refine (Follows.expectWhere rfl _ hl).andThen fun operator _ _ _ ho => ?_
  exact (follows_expression ho (by omega)).andThen fun r _ _ _ hr => .pure hr _

theorem follows_parenthesised (h : Stands tokens i left stop) (hd : 4 * left.length < depth) :
    Follows tokens stop i left (parenthesised tokens depth)
      (plain (Parser.parenthesised stop left)) := by
  rw [parenthesised, Parser.plain_parenthesised]
  refine (Follows.expectToken (by decide) h).andThen fun _ _ _ _ hopen => ?_
  refine (follows_condition hopen (by omega)).andThen fun inner _ _ _ hinner => ?_
  exact (Follows.expectToken (by decide) hinner).andThen fun _ _ _ _ hclose => .pure hclose _

/-! ## Statements -/

theorem follows_parameter (h : Stands tokens i left stop) :
    Follows tokens stop i left (parameter tokens) (plain (Parser.parameter stop left)) := by
  rw [parameter, Parser.plain_parameter]
  refine (Follows.expect (by decide) _ h).andThen fun name _ _ _ hname => ?_
  refine (Follows.expectToken (by decide) hname).andThen fun _ _ _ _ hcolon => ?_
  exact (Follows.expectWhere rfl _ hcolon).andThen fun type _ _ _ htype => .pure htype _

theorem follows_parameterLoop {depth i : Nat} {left : List Token} (h : Stands tokens i left stop)
    (hd : left.length < depth) :
    Follows tokens stop i left (parameterLoop tokens depth)
      (plain (Parser.moreParameters stop left)) := by
  obtain ⟨d, hsucc⟩ := Nat.exists_eq_add_one.mpr (Nat.zero_lt_of_lt hd)
  rw [hsucc, parameterLoop]
  refine .choose (· = .comma) (by decide) h (fun comma rest hleft hrest hkind hj => ?_)
    fun hother => ?_
  · rw [hleft, Parser.plain_moreParameters_comma stop hkind]
    refine (follows_parameter hj).andThen fun next rest' k hlt hk => ?_
    exact (follows_parameterLoop hk (by omega)).andThen fun others _ _ _ hm => .pure hm _
  · rw [Parser.plain_moreParameters stop (lead_ne_of_peek hother)]
    exact .pure h []
termination_by depth

theorem follows_parameters (h : Stands tokens i left stop) (hd : left.length < depth) :
    Follows tokens stop i left (parameters tokens depth) (plain (Parser.parameters stop left)) := by
  rw [parameters, Parser.plain_parameters]
  refine .look h ?_
  split
  · exact .pure h []
  · refine (follows_parameter h).andThen fun first _ _ _ hfirst => ?_
    exact (follows_parameterLoop hfirst (by omega)).andThen fun others _ _ _ hend => .pure hend _

theorem follows_functionHead (h : Stands tokens i left stop) (hd : left.length < depth) :
    Follows tokens stop i left (functionHead tokens depth)
      (plain (Parser.functionHead stop left)) := by
  rw [functionHead, Parser.plain_functionHead]
  refine (Follows.expect (by decide) _ h).andThen fun name _ _ _ hname => ?_
  refine (Follows.expectToken (by decide) hname).andThen fun _ _ _ _ hopen => ?_
  refine .look hopen ?_
  refine (follows_parameters hopen (by omega)).andThen fun children _ _ _ hchildren => ?_
  refine (Follows.expectToken (by decide) hchildren).andThen fun _ _ _ _ hclose => ?_
  refine (Follows.expectToken (by decide) hclose).andThen fun _ _ _ _ harrow => ?_
  exact (Follows.expectWhere rfl _ harrow).andThen fun type _ _ _ htype => .pure htype _

theorem follows_declaration (location : Location) (h : Stands tokens i left stop)
    (hd : 4 * left.length < depth) :
    Follows tokens stop i left (declaration tokens depth location)
      (plain (Parser.declaration stop location left)) := by
  rw [declaration, Parser.plain_declaration]
  refine (Follows.expect (by decide) _ h).andThen fun name _ _ _ hname => ?_
  refine (Follows.expectToken (by decide) hname).andThen fun _ _ _ _ hcolon => ?_
  refine (Follows.expectWhere rfl _ hcolon).andThen fun type rest _ _ htype => ?_
  refine .choose (· = .assign) (by decide) htype (fun sign rest' hnext hrest hkind hj => ?_)
    fun hother => ?_
  · dsimp only
    rw [hnext, Parser.lead_cons, hkind, if_pos rfl]
    exact (follows_expression hj (by omega)).andThen fun value _ _ _ hvalue => .pure hvalue _
  · dsimp only
    rw [if_neg (lead_ne_of_peek hother)]
    exact .pure htype _

/-- At a brace or at the end of the input, only a brace can follow. -/
theorem plain_blockTail_of_end
    (h : (peek stop left).kind = .rightBrace ∨ (peek stop left).kind = .endOfInput)
    (hleft : Grammar.Endless left) :
    plain (Parser.blockTail stop left) =
      (plain (Parser.expectToken stop .rightBrace left)).bind fun x => .ok ([], x.2) := by
  cases left with
  | nil => exact Parser.plain_blockTail_nil stop
  | cons t rest =>
    have hkind : t.kind = .rightBrace := h.resolve_right (Grammar.endless_cons.mp hleft).1
    have htake : plain (Parser.expectToken stop .rightBrace (t :: rest)) = .ok (t, rest) :=
      Parser.plain_expectToken_eq_ok.mpr ⟨rfl, hkind⟩
    rw [Parser.plain_blockTail_close stop hkind, htake]
    rfl

theorem isStatementWord_eq_false {kind : Kind} (hfn : kind ≠ .keywordFn) (hvar : kind ≠ .keywordVar)
    (hif : kind ≠ .keywordIf) (hwhile : kind ≠ .keywordWhile) (hreturn : kind ≠ .keywordReturn) :
    Parser.isStatementWord kind = false := by
  cases kind <;> first | rfl | contradiction

/-- What starts with no word for statements and with no name is an expression. -/
theorem plain_statement_of_other (hword : Parser.isStatementWord (peek stop left).kind = false)
    (hname : (peek stop left).kind ≠ .identifier) :
    plain (Parser.statement stop left) = plain (Parser.expression stop left) := by
  cases left with
  | nil => exact Parser.plain_statement_nil stop
  | cons t rest => exact Parser.plain_statement_expression stop hword fun ha => hname ha.1

mutual

theorem follows_statement {depth i : Nat} {left : List Token} (h : Stands tokens i left stop)
    (hd : 4 * left.length + 5 < depth) :
    Follows tokens stop i left (statement tokens depth) (plain (Parser.statement stop left)) := by
  obtain ⟨d, hsucc⟩ := Nat.exists_eq_add_one.mpr (Nat.zero_lt_of_lt hd)
  rw [hsucc, statement]
  refine .look h ?_
  by_cases hfn : (peek stop left).kind = .keywordFn
  · obtain ⟨t, rest, hleft, hrest, hpeek, ht⟩ := h.exists_cons (by rw [hfn]; decide)
    rw [if_pos hfn, hpeek, hleft, Parser.plain_statement_fn stop (hpeek ▸ hfn)]
    refine .advance ht ?_
    refine (follows_functionHead ht.tail (by omega)).andThen fun head us j hlt hj => ?_
    exact (follows_block hj (by omega)).andThen fun body _ _ _ hbody => .pure hbody _
  rw [if_neg hfn]
  by_cases hvar : (peek stop left).kind = .keywordVar
  · obtain ⟨t, rest, hleft, hrest, hpeek, ht⟩ := h.exists_cons (by rw [hvar]; decide)
    rw [if_pos hvar, hpeek, hleft, Parser.plain_statement_var stop (hpeek ▸ hvar)]
    exact .advance ht (follows_declaration t.location ht.tail (by omega))
  rw [if_neg hvar]
  by_cases hif : (peek stop left).kind = .keywordIf
  · obtain ⟨t, rest, hleft, hrest, hpeek, ht⟩ := h.exists_cons (by rw [hif]; decide)
    rw [if_pos hif, hpeek, hleft, Parser.plain_statement_if stop (hpeek ▸ hif)]
    refine .advance ht ?_
    refine (follows_parenthesised ht.tail (by omega)).andThen fun test us j hlt hj => ?_
    refine (follows_block hj (by omega)).andThen fun body us' k hlt' hk => ?_
    exact (follows_branchLoop hk (by omega)).andThen fun others _ _ _ hothers => .pure hothers _
  rw [if_neg hif]
  by_cases hwhile : (peek stop left).kind = .keywordWhile
  · obtain ⟨t, rest, hleft, hrest, hpeek, ht⟩ := h.exists_cons (by rw [hwhile]; decide)
    rw [if_pos hwhile, hpeek, hleft, Parser.plain_statement_while stop (hpeek ▸ hwhile)]
    refine .advance ht ?_
    refine (follows_parenthesised ht.tail (by omega)).andThen fun test us j hlt hj => ?_
    exact (follows_block hj (by omega)).andThen fun body _ _ _ hbody => .pure hbody _
  rw [if_neg hwhile]
  by_cases hreturn : (peek stop left).kind = .keywordReturn
  · obtain ⟨t, rest, hleft, hrest, hpeek, ht⟩ := h.exists_cons (by rw [hreturn]; decide)
    rw [if_pos hreturn, hpeek, hleft, Parser.plain_statement_return stop (hpeek ▸ hreturn)]
    refine .advance ht ?_
    exact (follows_expression ht.tail (by omega)).andThen fun value _ _ _ hvalue => .pure hvalue _
  rw [if_neg hreturn]
  have hword := isStatementWord_eq_false hfn hvar hif hwhile hreturn
  by_cases hname : (peek stop left).kind = .identifier
  · obtain ⟨t, rest, hleft, hrest, hpeek, ht⟩ := h.exists_cons (by rw [hname]; decide)
    rw [if_pos hname, hleft]
    refine .lookNext ht ?_
    by_cases hassign : (peek stop rest).kind = .assign
    · obtain ⟨u, rest', hnext, hrest', hpeek', hu⟩ := ht.tail.exists_cons (by rw [hassign]; decide)
      rw [if_pos hassign, hnext,
        Parser.plain_statement_assignment stop (hpeek ▸ hname) (hpeek' ▸ hassign)]
      refine .advance (hnext ▸ ht) (.expectCons (by decide) hu (hpeek' ▸ hassign) ?_)
      exact (follows_expression hu.tail (by omega)).andThen fun value _ _ _ hvalue => .pure hvalue _
    · rw [if_neg hassign, Parser.plain_statement_expression stop (hpeek ▸ hword) fun ha =>
        lead_ne_of_peek hassign ha.2]
      exact follows_expression ht (by rw [← hleft]; omega)
  · rw [if_neg hname, plain_statement_of_other hword hname]
    exact follows_expression h (by omega)
termination_by depth

theorem follows_block {depth i : Nat} {left : List Token} (h : Stands tokens i left stop)
    (hd : 4 * left.length + 3 < depth) :
    Follows tokens stop i left (block tokens depth) (plain (Parser.block stop left)) := by
  obtain ⟨d, hsucc⟩ := Nat.exists_eq_add_one.mpr (Nat.zero_lt_of_lt hd)
  rw [hsucc, block, Parser.plain_block]
  refine (Follows.expectToken (by decide) h).andThen fun brace rest j hlt hj => ?_
  exact (follows_blockLoop hj (by omega)).andThen fun children _ _ _ hchildren => .pure hchildren _
termination_by depth

theorem follows_blockLoop {depth i : Nat} {left : List Token} (h : Stands tokens i left stop)
    (hd : 4 * left.length + 6 < depth) :
    Follows tokens stop i left (blockLoop tokens depth) (plain (Parser.blockTail stop left)) := by
  obtain ⟨d, hsucc⟩ := Nat.exists_eq_add_one.mpr (Nat.zero_lt_of_lt hd)
  rw [hsucc, blockLoop]
  refine .look h ?_
  by_cases hend : (peek stop left).kind = .rightBrace ∨ (peek stop left).kind = .endOfInput
  · rw [if_pos hend, plain_blockTail_of_end hend h.endless]
    exact (Follows.expectToken (by decide) h).andThen fun _ _ _ _ hclose => .pure hclose _
  · rw [if_neg hend]
    obtain ⟨t, rest, hleft, -, hpeek, ht⟩ := h.exists_cons (not_or.mp hend).2
    rw [hleft] at hd
    rw [hleft, Parser.plain_blockTail stop (hpeek ▸ (not_or.mp hend).1)]
    refine (follows_statement ht (by omega)).andThen fun first us j hlt hj => ?_
    exact (follows_blockLoop hj (by omega)).andThen fun others _ _ _ hothers => .pure hothers _
termination_by depth

theorem follows_branchLoop {depth i : Nat} {left : List Token} (h : Stands tokens i left stop)
    (hd : 4 * left.length < depth) :
    Follows tokens stop i left (branchLoop tokens depth) (plain (Parser.branches stop left)) := by
  obtain ⟨d, hsucc⟩ := Nat.exists_eq_add_one.mpr (Nat.zero_lt_of_lt hd)
  rw [hsucc, branchLoop]
  refine .choose (· = .keywordElseif) (by decide) h (fun t rest hleft hrest hkind hj => ?_)
    fun hother => ?_
  · rw [hleft, Parser.plain_branches_elseif stop hkind]
    refine (follows_parenthesised hj (by omega)).andThen fun test us k hlt hk => ?_
    refine (follows_block hk (by omega)).andThen fun body us' m hlt' hm => ?_
    exact (follows_branchLoop hm (by omega)).andThen fun others _ _ _ hothers => .pure hothers _
  · by_cases helse : (peek stop left).kind = .keywordElse
    · obtain ⟨t, rest, hleft, hrest, hpeek, ht⟩ := h.exists_cons (by rw [helse]; decide)
      rw [if_pos helse, hpeek, hleft, Parser.plain_branches_else stop (hpeek ▸ helse)]
      refine .advance ht ?_
      exact (follows_block ht.tail (by omega)).andThen fun body _ _ _ hbody => .pure hbody _
    · rw [if_neg helse,
        Parser.plain_branches stop (lead_ne_of_peek hother) (lead_ne_of_peek helse)]
      exact .pure h []
termination_by depth

end

/-- The statements up to the end of the input, and no token left. -/
def wholeStatements (stop : Token) (left : List Token) : Attempt (List Tree × List Token) :=
  (Parser.statements stop left).bind fun children => .ok (children, [])

theorem wholeStatements_cons (stop t : Token) (left : List Token) :
    wholeStatements stop (t :: left) =
      (plain (Parser.statement stop (t :: left))).bind fun (first, rest) =>
        (wholeStatements stop rest).bind fun (others, rest') => .ok (first :: others, rest') := by
  rw [wholeStatements, Parser.statements_cons]
  cases plain (Parser.statement stop (t :: left)) with
  | error r => rfl
  | ok x =>
    change ((Parser.statements stop x.2).bind _).bind _ =
      ((Parser.statements stop x.2).bind _).bind _
    cases Parser.statements stop x.2 <;> rfl

theorem follows_statementLoop {depth i : Nat} {left : List Token} (h : Stands tokens i left stop)
    (hd : 4 * left.length + 6 < depth) :
    Follows tokens stop i left (statementLoop tokens depth) (wholeStatements stop left) := by
  obtain ⟨d, hsucc⟩ := Nat.exists_eq_add_one.mpr (Nat.zero_lt_of_lt hd)
  rw [hsucc, statementLoop]
  refine .look h ?_
  by_cases hend : (peek stop left).kind = .endOfInput
  · cases left with
    | nil =>
      rw [if_pos hend, wholeStatements, Parser.statements_nil]
      exact .pure h []
    | cons t rest => exact absurd hend (Grammar.endless_cons.mp h.endless).1
  · obtain ⟨t, rest, hleft, -, hpeek, ht⟩ := h.exists_cons hend
    rw [hleft] at hd
    rw [if_neg hend, hleft, wholeStatements_cons]
    refine (follows_statement ht (by omega)).andThen fun first us j hlt hj => ?_
    exact (follows_statementLoop hj (by omega)).bind fun others _ _ _ hothers => .pure hothers _
termination_by depth

end StackLang.Cursor
