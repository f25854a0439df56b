import Mathlib.Logic.Nonempty
import StackLang.Proofs.Grammar.Plain

/-!
# How far the parser looks

Every function of the parser settles its input from the tokens it takes and one more. If it
succeeds, it took a word of its nonterminal. If it refuses a token, the tokens before that one start
a word of its nonterminal. Either way the outcome is the same whatever comes after the token at
which it stopped.

One rule for each way in which the functions are put together; then each function is settled along
its equation, by induction on the tokens left.
-/

namespace StackLang.Parser

open Token (Kind)
open Grammar

/-- A function of the parser: it is told which token ends the input. -/
abbrev Reader (α : Type) := Token → List Token → Attempt (α × List Token)

/-! ## The next token -/

/-- The tokens `us` start with the token with which `ts` starts. -/
structure Alike (us ts : List Token) : Prop where
  ne_nil : us ≠ []
  head? : us.head? = ts.head?

theorem Alike.append {us ts : List Token} (h : Alike us ts) (start : List Token) :
    Alike (start ++ us) (start ++ ts) := by
  refine ⟨by simp [h.ne_nil], ?_⟩
  rw [List.head?_append, List.head?_append, h.head?]

theorem Alike.exists_cons {t : Token} {us ts : List Token} (h : Alike us (t :: ts)) :
    ∃ us', us = t :: us' := by
  cases us with
  | nil => exact absurd rfl h.ne_nil
  | cons u us => exact ⟨us, by rw [Option.some.inj h.head?]⟩

theorem Alike.peek {us ts : List Token} (h : Alike us ts) (stop stop' : Token) :
    peek stop' us = Parser.peek stop ts := by
  cases ts with
  | nil => exact absurd (List.head?_eq_none_iff.mp h.head?) h.ne_nil
  | cons t ts =>
    obtain ⟨us', rfl⟩ := h.exists_cons
    rfl

theorem not_alike_nil {us : List Token} : ¬Alike us [] :=
  fun h => h.ne_nil (List.head?_eq_none_iff.mp h.head?)

/-! ## Rules -/

/-- The reader `f` settles the tokens `ts`, where `word` gives the words of its nonterminal. -/
inductive Settles {α D : Type} (f : Reader α) (word : D → List Token) (stop : Token)
    (ts : List Token) : Prop
  /-- A word is taken. -/
  | taken (v : α) (d : D) (rest : List Token) (split : ts = word d ++ rest)
      (result : f stop ts = .ok (v, rest))
      (steady : ∀ stop' us, Alike us rest → f stop' (word d ++ us) = .ok (v, us))
  /-- The token after the start of a word is refused. -/
  | refused (r : Refusal) (start rest : List Token) (split : ts = start ++ rest)
      (result : f stop ts = .error r) (found : r.found = peek stop rest)
      (viable : ∃ d more, word d = start ++ more)
      (steady : ∀ stop' us, Alike us rest → f stop' (start ++ us) = .error r)

namespace Settles

variable {α β D E K : Type} {f g : Reader α} {word : D → List Token} {word' : K → List Token}
  {stop : Token} {ts : List Token}

/-- Nothing is taken. -/
theorem stay (v : α) (d : D) (hd : word d = []) (h : f stop ts = .ok (v, ts))
    (hsteady : ∀ stop' us, Alike us ts → f stop' us = .ok (v, us)) : Settles f word stop ts := by
  refine .taken v d ts (by rw [hd, List.nil_append]) h ?_
  rw [hd]
  exact hsteady

/-- The first token is refused. -/
theorem refuse [Nonempty D] {expected : Expectation}
    (h : ∀ stop, f stop ts = .error ⟨expected, peek stop ts⟩)
    (hsteady : ∀ stop' us, Alike us ts → f stop' us = .error ⟨expected, peek stop' us⟩) :
    Settles f word stop ts := by
  obtain ⟨d⟩ := ‹Nonempty D›
  refine .refused _ [] ts rfl (h stop) rfl ⟨d, word d, rfl⟩ ?_
  intro stop' us hus
  rw [List.nil_append, hsteady stop' us hus, hus.peek stop stop']

/-- Words of one nonterminal that are words of another one. -/
theorem weaken (h : Settles f word stop ts) (make : D → K)
    (hmake : ∀ d, word' (make d) = word d) : Settles f word' stop ts := by
  cases h with
  | taken v d rest split result steady =>
    rw [← hmake] at split steady
    exact .taken v (make d) rest split result steady
  | refused r start rest split result found viable steady =>
    obtain ⟨d, more, hd⟩ := viable
    exact .refused r start rest split result found ⟨make d, more, by rw [hmake, hd]⟩ steady

/-- Readers that agree on every input with the same first token. -/
theorem congr (h : Settles g word stop ts) (heq : f stop ts = g stop ts)
    (hhead : ∀ stop' us, Alike us ts → f stop' us = g stop' us) : Settles f word stop ts := by
  cases h with
  | taken v d rest split result steady =>
    refine .taken v d rest split (heq.trans result) fun stop' us hus => ?_
    rw [hhead stop' _ (split ▸ hus.append _), steady stop' us hus]
  | refused r start rest split result found viable steady =>
    refine .refused r start rest split (heq.trans result) found viable fun stop' us hus => ?_
    rw [hhead stop' _ (split ▸ hus.append _), steady stop' us hus]

/-- Readers that agree everywhere. -/
theorem of_eq (heq : ∀ stop ts, f stop ts = g stop ts) (h : Settles g word stop ts) :
    Settles f word stop ts :=
  h.congr (heq stop ts) fun _ _ _ => heq _ _

/-- Readers that agree on every input that starts with the token `t`. -/
theorem of_head {t : Token} (heq : ∀ stop us, f stop (t :: us) = g stop (t :: us))
    (h : Settles g word stop (t :: ts)) : Settles f word stop (t :: ts) := by
  refine h.congr (heq stop ts) ?_
  intro stop' us hus
  obtain ⟨us', rfl⟩ := hus.exists_cons
  exact heq stop' us'

/-- The token `t` is taken, and the rest is left to another reader. The token after `t` may decide
which one that is. -/
theorem cons {t : Token} (heq : ∀ stop us, us.head? = ts.head? → f stop (t :: us) = g stop us)
    (h : Settles g word stop ts) (make : D → K) (hmake : ∀ d, word' (make d) = t :: word d) :
    Settles f word' stop (t :: ts) := by
  have hresult : f stop (t :: ts) = g stop ts := heq stop ts rfl
  cases h with
  | taken v d rest split result steady =>
    refine .taken v (make d) rest ?_ (hresult.trans result) fun stop' us hus => ?_
    · rw [hmake, split, List.cons_append]
    · rw [hmake, List.cons_append, heq stop' _ (split ▸ (hus.append _).head?), steady stop' us hus]
  | refused r start rest split result found viable steady =>
    obtain ⟨d, more, hd⟩ := viable
    refine .refused r (t :: start) rest ?_ (hresult.trans result) found ⟨make d, more, ?_⟩
      fun stop' us hus => ?_
    · rw [split, List.cons_append]
    · rw [hmake, hd, List.cons_append]
    · rw [List.cons_append, heq stop' _ (split ▸ (hus.append _).head?), steady stop' us hus]

/-- Readers that agree on every input that starts with the token `t` and has the same second token.
The other reader must not stop at `t` in all of them, because then the second token is not looked
at. -/
theorem of_second {t : Token}
    (heq : ∀ stop us, us.head? = ts.head? → f stop (t :: us) = g stop (t :: us))
    (hmoves : ∃ stop us v rest, g stop (t :: us) = .ok (v, rest) ∧ rest ≠ t :: us)
    (h : Settles g word stop (t :: ts)) : Settles f word stop (t :: ts) := by
  obtain ⟨stop₀, us₀, v₀, rest₀, hmove, hne⟩ := hmoves
  have hself : Alike (t :: us₀) (t :: ts) := ⟨List.cons_ne_nil _ _, rfl⟩
  have hsame : ∀ {start rest us : List Token} (stop' : Token), t :: ts = t :: start ++ rest →
      Alike us rest → f stop' (t :: start ++ us) = g stop' (t :: start ++ us) := by
    intro start rest us stop' hsplit hus
    refine heq stop' _ ?_
    rw [(List.cons.inj hsplit).2]
    exact (hus.append start).head?
  cases h with
  | taken v d rest split result steady =>
    cases hd : word d with
    | nil =>
      rw [hd, List.nil_append] at split
      have hstay := steady stop₀ _ (split ▸ hself)
      rw [hd, List.nil_append, hmove] at hstay
      exact absurd (Prod.mk.inj (Except.ok.inj hstay)).2 hne
    | cons u start =>
      obtain rfl : t = u := by
        rw [hd] at split
        exact (List.cons.inj split).1
      refine .taken v d rest split ((heq stop ts rfl).trans result) fun stop' us hus => ?_
      rw [← steady stop' us hus, hd]
      exact hsame stop' (hd ▸ split) hus
  | refused r start rest split result found viable steady =>
    cases start with
    | nil =>
      have hstay := steady stop₀ _ (split ▸ hself)
      rw [List.nil_append, hmove] at hstay
      cases hstay
    | cons u start =>
      obtain rfl : t = u := (List.cons.inj split).1
      refine .refused r (t :: start) rest split ((heq stop ts rfl).trans result) found viable
        fun stop' us hus => ?_
      rw [← steady stop' us hus]
      exact hsame stop' split hus

/-- One reader after another. -/
theorem bind [Nonempty E] {next : α → Reader β} {word' : E → List Token}
    (hf : Settles f word stop ts)
    (hnext : ∀ v rest, f stop ts = .ok (v, rest) → Settles (next v) word' stop rest) :
    Settles (fun stop ts => (f stop ts).bind fun p => next p.1 stop p.2)
      (fun p : D × E => word p.1 ++ word' p.2) stop ts := by
  cases hf with
  | taken v d rest split result steady =>
    cases hnext v rest result with
    | taken w e rest' split' result' steady' =>
      refine .taken w (d, e) rest' ?_ ?_ fun stop' us hus => ?_
      · rw [List.append_assoc, ← split', split]
      · simp only [result, Except.bind, result']
      · rw [List.append_assoc]
        simp only [steady stop' _ (split' ▸ hus.append _), Except.bind, steady' stop' us hus]
    | refused r start rest' split' result' found viable steady' =>
      obtain ⟨e, more, he⟩ := viable
      refine .refused r (word d ++ start) rest' ?_ ?_ found ⟨(d, e), more, ?_⟩
        fun stop' us hus => ?_
      · rw [List.append_assoc, ← split', split]
      · simp only [result, Except.bind, result']
      · rw [he, List.append_assoc]
      · rw [List.append_assoc]
        simp only [steady stop' _ (split' ▸ hus.append _), Except.bind, steady' stop' us hus]
  | refused r start rest split result found viable steady =>
    obtain ⟨d, more, hd⟩ := viable
    obtain ⟨e⟩ := ‹Nonempty E›
    refine .refused r start rest split ?_ found ⟨(d, e), more ++ word' e, ?_⟩ fun stop' us hus => ?_
    · simp only [result, Except.bind]
    · simp only [hd, List.append_assoc]
    · simp only [steady stop' us hus, Except.bind]

/-- A reader that also tells where it started. -/
theorem located (h : Settles f word stop ts) :
    Settles (fun stop ts => (f stop ts).bind fun p => .ok (((peek stop ts).location, p.1), p.2))
      word stop ts := by
  cases h with
  | taken v d rest split result steady =>
    refine .taken ((peek stop ts).location, v) d rest split ?_ fun stop' us hus => ?_
    · simp only [result, Except.bind]
    · have hpeek : peek stop' (word d ++ us) = peek stop ts :=
        split ▸ (hus.append (word d)).peek stop stop'
      simp only [steady stop' us hus, Except.bind, hpeek]
  | refused r start rest split result found viable steady =>
    refine .refused r start rest split ?_ found viable fun stop' us hus => ?_
    · simp only [result, Except.bind]
    · simp only [steady stop' us hus, Except.bind]

/-- A reader of which the value is changed. -/
theorem map (h : Settles f word stop ts) (change : α → β) :
    Settles (fun stop ts => (f stop ts).bind fun p => .ok (change p.1, p.2)) word stop ts := by
  have hgive : ∀ v rest, Settles (fun _ us => .ok (change v, us)) (fun _ : Unit => []) stop rest :=
    fun v rest => .stay (change v) () rfl rfl fun _ _ _ => rfl
  exact (h.bind fun v rest _ => hgive v rest).weaken Prod.fst fun p => (List.append_nil _).symm

/-- The token `t` alone is taken. -/
theorem single {t : Token} (v : α) (d : D)
    (heq : ∀ stop us, us.head? = ts.head? → f stop (t :: us) = .ok (v, us))
    (hd : word d = [t]) : Settles f word stop (t :: ts) := by
  have hgive : Settles (fun _ us => .ok (v, us)) (fun _ : Unit => []) stop ts :=
    .stay v () rfl rfl fun _ _ _ => rfl
  exact hgive.cons heq (fun _ => d) fun _ => hd

end Settles

/-! ## Samples

There is a derivation of every nonterminal, so that whatever was started can be completed.
-/

instance (k : Kind) : Nonempty (Of k) := ⟨⟨⟨k, "", .ofPosition "" .start⟩, rfl⟩⟩

instance : Nonempty (OneOf Kind.isType) := ⟨⟨⟨.typeInt, "", .ofPosition "" .start⟩, rfl⟩⟩

instance : Nonempty (OneOf Kind.isComparison) := ⟨⟨⟨.equal, "", .ofPosition "" .start⟩, rfl⟩⟩

instance : Nonempty Factor := ⟨.number (Classical.arbitrary _)⟩

instance : Nonempty Factors := ⟨.nil⟩

instance : Nonempty Term := ⟨.mk (Classical.arbitrary _) (Classical.arbitrary _)⟩

instance : Nonempty Terms := ⟨.nil⟩

instance : Nonempty Expression := ⟨.mk (Classical.arbitrary _) (Classical.arbitrary _)⟩

instance : Nonempty Condition :=
  ⟨.mk (Classical.arbitrary _) (Classical.arbitrary _) (Classical.arbitrary _)⟩

instance : Nonempty Arguments := ⟨.none⟩

instance : Nonempty MoreArguments := ⟨.nil⟩

instance : Nonempty Grammar.Parameter :=
  ⟨.mk (Classical.arbitrary _) (Classical.arbitrary _) (Classical.arbitrary _)⟩

instance : Nonempty Parameters := ⟨.none⟩

instance : Nonempty Statements := ⟨.nil⟩

instance : Nonempty Block :=
  ⟨.mk (Classical.arbitrary _) (Classical.arbitrary _) (Classical.arbitrary _)⟩

instance : Nonempty Branches := ⟨.nil⟩

/-! ## Expressions -/

theorem lead_congr {us ts : List Token} (h : us.head? = ts.head?) : lead us = lead ts := by
  rw [lead, lead, h]

theorem expectWhere_settles (p : Kind → Bool) [Nonempty (OneOf p)] (expected : Expectation)
    (stop : Token) (ts : List Token) :
    Settles (fun stop ts => plain (expectWhere stop p expected ts)) (fun t : OneOf p => [t.1]) stop
      ts := by
  cases ts with
  | nil => exact .refuse (fun _ => rfl) fun _ _ hus => absurd hus not_alike_nil
  | cons t ts =>
    by_cases hp : p t.kind = true
    · refine .single t ⟨t, hp⟩ (fun stop us _ => ?_) rfl
      rw [plain_expectWhere]
      exact if_pos hp
    · have hrefuse : ∀ stop us, plain (expectWhere stop p expected (t :: us)) =
          .error ⟨expected, t⟩ := by
        intro stop us
        rw [plain_expectWhere]
        exact if_neg hp
      refine .refuse (fun stop => hrefuse stop ts) fun stop us hus => ?_
      obtain ⟨us', rfl⟩ := hus.exists_cons
      exact hrefuse stop us'

theorem expect_settles (k : Kind) (expected : Expectation) (stop : Token) (ts : List Token) :
    Settles (fun stop ts => plain (expect stop k expected ts)) (fun t : Of k => [t.1]) stop ts := by
  have hsample : Nonempty (OneOf fun k' => k' = k) :=
    Nonempty.map (fun t : Of k => ⟨t.1, decide_eq_true t.2⟩) inferInstance
  exact (expectWhere_settles (fun k' => k' = k) expected stop ts).weaken
    (fun t => ⟨t.1, of_decide_eq_true t.2⟩) fun _ => rfl

theorem expectToken_settles (k : Kind) (stop : Token) (ts : List Token) :
    Settles (fun stop ts => plain (expectToken stop k ts)) (fun t : Of k => [t.1]) stop ts :=
  expect_settles k (.token k) stop ts

/-- The tokens of the arguments of a call, with the parenthesis that closes them. -/
def argumentsWord (p : Arguments × Of .rightParen) : List Token := p.1.word ++ [p.2.1]

/-- The tokens of the further arguments of a call, with the parenthesis that closes them. -/
def moreArgumentsWord (p : MoreArguments × Of .rightParen) : List Token := p.1.word ++ [p.2.1]

mutual

theorem expression_settles (stop : Token) (ts : List Token) :
    Settles (fun stop ts => plain (expression stop ts)) Expression.word stop ts := by
  have hchain := (term_settles stop ts).bind fun left rest hterm =>
    have hlt := length_lt_of_plain hterm
    sumTail_settles stop left rest
  exact .of_eq plain_expression (hchain.weaken (fun p => .mk p.1 p.2) fun _ => rfl)
termination_by 6 * ts.length + 4

theorem sumTail_settles (stop : Token) (left : Tree) (ts : List Token) :
    Settles (fun stop ts => plain (sumTail stop left ts)) Terms.word stop ts := by
  match ts with
  | [] =>
    exact .stay left .nil rfl (plain_sumTail_nil stop left) fun _ _ hus => absurd hus not_alike_nil
  | operator :: ts₀ =>
    by_cases hop : operator.kind.isAdditive = true
    · have hchain := (term_settles stop ts₀).bind fun right rest hterm =>
        have hlt := length_lt_of_plain hterm
        sumTail_settles stop (binaryNode .expression operator left right) rest
      refine .cons (fun stop us _ => ?_) hchain (fun p => .cons ⟨operator, hop⟩ p.1 p.2)
        fun _ => rfl
      rw [plain_sumTail_cons, if_pos hop]
    · have hstay : ∀ stop us, plain (sumTail stop left (operator :: us)) =
          .ok (left, operator :: us) := by
        intro stop us
        rw [plain_sumTail_cons, if_neg hop]
      exact .of_head hstay (.stay left .nil rfl rfl fun _ _ _ => rfl)
termination_by 6 * ts.length
decreasing_by all_goals simp only [List.length_cons]; omega

theorem term_settles (stop : Token) (ts : List Token) :
    Settles (fun stop ts => plain (term stop ts)) Term.word stop ts := by
  have hchain := (factor_settles stop ts).bind fun left rest hfactor =>
    have hlt := length_lt_of_plain hfactor
    productTail_settles stop left rest
  exact .of_eq plain_term (hchain.weaken (fun p => .mk p.1 p.2) fun _ => rfl)
termination_by 6 * ts.length + 3

theorem productTail_settles (stop : Token) (left : Tree) (ts : List Token) :
    Settles (fun stop ts => plain (productTail stop left ts)) Factors.word stop ts := by
  match ts with
  | [] =>
    exact .stay left .nil rfl (plain_productTail_nil stop left)
      fun _ _ hus => absurd hus not_alike_nil
  | operator :: ts₀ =>
    by_cases hop : operator.kind.isMultiplicative = true
    · have hchain := (factor_settles stop ts₀).bind fun right rest hfactor =>
        have hlt := length_lt_of_plain hfactor
        productTail_settles stop (binaryNode .term operator left right) rest
      refine .cons (fun stop us _ => ?_) hchain (fun p => .cons ⟨operator, hop⟩ p.1 p.2)
        fun _ => rfl
      rw [plain_productTail_cons, if_pos hop]
    · have hstay : ∀ stop us, plain (productTail stop left (operator :: us)) =
          .ok (left, operator :: us) := by
        intro stop us
        rw [plain_productTail_cons, if_neg hop]
      exact .of_head hstay (.stay left .nil rfl rfl fun _ _ _ => rfl)
termination_by 6 * ts.length
decreasing_by all_goals simp only [List.length_cons]; omega

theorem factor_settles (stop : Token) (ts : List Token) :
    Settles (fun stop ts => plain (factor stop ts)) Factor.word stop ts := by
  match ts with
  | [] => exact .refuse plain_factor_nil fun _ _ hus => absurd hus not_alike_nil
  | t :: ts₀ =>
    by_cases hk : t.kind = .minus
    · refine .cons (fun stop us _ => ?_) ((factor_settles stop ts₀).map (negationNode t))
        (fun d => .negative ⟨t, hk⟩ d) fun _ => rfl
      rw [plain_factor_cons, if_pos hk]
    · refine .of_head (fun stop us => ?_) (primary_settles stop (t :: ts₀))
      rw [plain_factor_cons, if_neg hk]
termination_by 6 * ts.length + 2

theorem primary_settles (stop : Token) (ts : List Token) :
    Settles (fun stop ts => plain (primary stop ts)) Factor.word stop ts := by
  match ts with
  | [] =>
    have hrefuse : ∀ stop, plain (primary stop []) = .error ⟨.expression, stop⟩ := by
      intro stop
      rw [primary]
      rfl
    exact .refuse hrefuse fun _ _ hus => absurd hus not_alike_nil
  | t :: ts₀ =>
    by_cases hp : t.kind = .leftParen
    · have hchain := (expression_settles stop ts₀).bind fun inner rest _ =>
        (expectToken_settles .rightParen stop rest).map fun _ => inner
      exact .cons (fun stop us _ => plain_primary_leftParen stop hp us) hchain
        (fun p => .parenthesised ⟨t, hp⟩ p.1 p.2) fun _ => rfl
    by_cases hn : t.kind = .number
    · exact .single (numberNode t) (.number ⟨t, hn⟩)
        (fun stop us _ => plain_primary_number stop hn us) rfl
    by_cases hi : t.kind = .identifier
    · by_cases hl : lead ts₀ = some .leftParen
      · obtain ⟨l, ts₁, hts₀, hlp⟩ := lead_eq_some_iff.mp hl
        have hcall : Settles (fun stop us => plain (primary stop (t :: us)))
            (fun p => l :: argumentsWord p) stop (l :: ts₁) :=
          .cons (fun stop us _ => plain_primary_call stop hi hlp us)
            ((arguments_settles stop ts₁).map (callNode t)) id fun _ => rfl
        rw [hts₀]
        exact .cons (fun _ _ _ => rfl) hcall (fun p => .call ⟨t, hi⟩ ⟨l, hlp⟩ p.1 p.2) fun _ => rfl
      · refine .single (variableNode t) (.name ⟨t, hi⟩) (fun stop us hus => ?_) rfl
        exact plain_primary_variable stop hi (lead_congr hus ▸ hl)
    · have hrefuse := fun stop => plain_primary_other stop hp hn hi
      refine .refuse (fun stop => hrefuse stop ts₀) fun stop us hus => ?_
      obtain ⟨us', rfl⟩ := hus.exists_cons
      exact hrefuse stop us'
termination_by 6 * ts.length + 1
decreasing_by all_goals (try simp only [hts₀]); simp only [List.length_cons]; omega

theorem arguments_settles (stop : Token) (ts : List Token) :
    Settles (fun stop ts => plain (arguments stop ts)) argumentsWord stop ts := by
  by_cases hl : lead ts = some .rightParen
  · obtain ⟨close, ts₁, rfl, hk⟩ := lead_eq_some_iff.mp hl
    exact .single [] (.none, ⟨close, hk⟩) (fun stop us _ => plain_arguments_close stop hk us) rfl
  · have hchain := (expression_settles stop ts).bind fun first rest hexpression =>
      have hlt := length_lt_of_plain hexpression
      (moreArguments_settles stop rest).map (first :: ·)
    refine .congr (hchain.weaken (fun p => (.some p.1 p.2.1, p.2.2)) fun p => ?_)
      (plain_arguments stop hl) fun stop us hus => plain_arguments stop (lead_congr hus.head? ▸ hl)
    rw [argumentsWord, Arguments.word, moreArgumentsWord, List.append_assoc]
termination_by 6 * ts.length + 5

theorem moreArguments_settles (stop : Token) (ts : List Token) :
    Settles (fun stop ts => plain (moreArguments stop ts)) moreArgumentsWord stop ts := by
  by_cases hl : lead ts = some .comma
  · obtain ⟨comma, ts₁, hts₁, hk⟩ := lead_eq_some_iff.mp hl
    have hchain := (expression_settles stop ts₁).bind fun first rest hexpression =>
      have hlt := length_lt_of_plain hexpression
      (moreArguments_settles stop rest).map (first :: ·)
    rw [hts₁]
    refine .cons (fun stop us _ => plain_moreArguments_comma stop hk us) hchain
      (fun p => (.cons ⟨comma, hk⟩ p.1 p.2.1, p.2.2)) fun p => ?_
    rw [moreArgumentsWord, MoreArguments.word, moreArgumentsWord, List.append_assoc,
      List.cons_append]
  · have hclose := (expectToken_settles .rightParen stop ts).map fun _ => ([] : List Tree)
    exact .congr (hclose.weaken (fun close => (.nil, close)) fun _ => rfl)
      (plain_moreArguments stop hl)
      fun stop us hus => plain_moreArguments stop (lead_congr hus.head? ▸ hl)
termination_by 6 * ts.length
decreasing_by all_goals simp only [hts₁, List.length_cons] at *; omega

end

theorem condition_settles (stop : Token) (ts : List Token) :
    Settles (fun stop ts => plain (condition stop ts)) Condition.word stop ts := by
  have hchain := (expression_settles stop ts).bind fun left rest _ =>
    (expectWhere_settles Kind.isComparison .comparison stop rest).bind fun operator rest' _ =>
      (expression_settles stop rest').map (binaryNode .condition operator left)
  exact .of_eq plain_condition (hchain.weaken (fun p => ⟨p.1, p.2.1, p.2.2⟩) fun _ => rfl)

theorem parenthesised_settles (stop : Token) (ts : List Token) :
    Settles (fun stop ts => plain (parenthesised stop ts)) Test.word stop ts := by
  have hchain := (expectToken_settles .leftParen stop ts).bind fun _ rest _ =>
    (condition_settles stop rest).bind fun inner rest' _ =>
      (expectToken_settles .rightParen stop rest').map fun _ => inner
  exact .of_eq plain_parenthesised (hchain.weaken (fun p => ⟨p.1, p.2.1, p.2.2⟩) fun _ => rfl)

/-! ## Statements -/

theorem parameter_settles (stop : Token) (ts : List Token) :
    Settles (fun stop ts => plain (parameter stop ts)) Grammar.Parameter.word stop ts := by
  have hchain := (expect_settles .identifier .parameterName stop ts).bind fun name rest _ =>
    (expectToken_settles .colon stop rest).bind fun _ rest' _ =>
      (expectWhere_settles Kind.isType .parameterType stop rest').map (parameterNode name)
  exact .of_eq plain_parameter (hchain.weaken (fun p => ⟨p.1, p.2.1, p.2.2⟩) fun _ => rfl)

theorem moreParameters_settles (stop : Token) (ts : List Token) :
    Settles (fun stop ts => plain (moreParameters stop ts)) moreParametersWord stop ts := by
  by_cases hl : lead ts = some .comma
  · obtain ⟨comma, ts₁, hts₁, hk⟩ := lead_eq_some_iff.mp hl
    have hchain := (parameter_settles stop ts₁).bind fun first rest hparameter =>
      have hlt := length_lt_of_plain hparameter
      (moreParameters_settles stop rest).map (first :: ·)
    rw [hts₁]
    exact .cons (fun stop us _ => plain_moreParameters_comma stop hk us) hchain
      (fun p => (⟨comma, hk⟩, p.1) :: p.2) fun _ => rfl
  · exact .stay [] [] rfl (plain_moreParameters stop hl)
      fun stop us hus => plain_moreParameters stop (lead_congr hus.head? ▸ hl)
termination_by ts.length
decreasing_by simp only [hts₁, List.length_cons]; omega

theorem parameters_settles (stop : Token) (ts : List Token) :
    Settles (fun stop ts => plain (parameters stop ts)) Parameters.word stop ts := by
  by_cases hk : (peek stop ts).kind = .rightParen
  · refine .stay [] .none rfl ?_ fun stop' us hus => ?_
    · rw [plain_parameters, if_pos hk]
    · rw [plain_parameters, if_pos (by rwa [hus.peek stop stop'])]
  · have hchain := (parameter_settles stop ts).bind fun first rest _ =>
      (moreParameters_settles stop rest).map (first :: ·)
    refine .congr (hchain.weaken (fun p => .some p.1 p.2) fun _ => rfl) ?_ fun stop' us hus => ?_
    · rw [plain_parameters, if_neg hk]
    · rw [plain_parameters, if_neg (by rwa [hus.peek stop stop'])]

/-- The tokens of the head of a function. -/
def headWord (p : Of .identifier × Of .leftParen × Parameters × Of .rightParen × Of .arrow ×
    OneOf Kind.isType) : List Token :=
  p.1.1 :: p.2.1.1 :: (p.2.2.1.word ++ [p.2.2.2.1.1, p.2.2.2.2.1.1, p.2.2.2.2.2.1])

theorem functionHead_settles (stop : Token) (ts : List Token) :
    Settles (fun stop ts => plain (functionHead stop ts)) headWord stop ts := by
  have hchain := (expect_settles .identifier .functionName stop ts).bind fun name rest _ =>
    (expectToken_settles .leftParen stop rest).bind fun _ rest₁ _ =>
      (parameters_settles stop rest₁).located.bind fun children rest₂ _ =>
        (expectToken_settles .rightParen stop rest₂).bind fun _ rest₃ _ =>
          (expectToken_settles .arrow stop rest₃).bind fun _ rest₄ _ =>
            (expectWhere_settles Kind.isType .returnType stop rest₄).map fun type =>
              (name.lexeme, parametersNode children.1 children.2, type.lexeme)
  refine .of_eq (fun stop ts => ?_) (hchain.weaken id fun _ => rfl)
  rw [plain_functionHead]
  rcases plain (expect stop .identifier .functionName ts) with r | ⟨name, ts₁⟩
  · rfl
  rcases hleft : plain (expectToken stop .leftParen ts₁) with r | ⟨left, ts₂⟩
  · simp only [Except.bind, hleft]
  · cases hchildren : plain (parameters stop ts₂) <;> simp only [Except.bind, hleft, hchildren]

theorem value_settles (node : Option Tree → Tree) (stop : Token) (ts : List Token) :
    Settles (fun stop ts =>
      if lead ts = some .assign then
        (plain (expression stop ts.tail)).bind fun p => .ok (node (some p.1), p.2)
      else .ok (node none, ts)) valueWord stop ts := by
  by_cases hl : lead ts = some .assign
  · obtain ⟨sign, ts₁, rfl, hs⟩ := lead_eq_some_iff.mp hl
    exact .cons (fun stop us _ => if_pos (congrArg some hs))
      ((expression_settles stop ts₁).map fun v => node (some v))
      (fun d => some (⟨sign, hs⟩, d)) fun _ => rfl
  · exact .stay (node none) none rfl (if_neg hl)
      fun stop us hus => if_neg (lead_congr hus.head? ▸ hl)

/-- The tokens of a declaration after the word that starts it. -/
def declarationWord (p : Of .identifier × Of .colon × OneOf Kind.isType ×
    Option (Of .assign × Expression)) : List Token :=
  p.1.1 :: p.2.1.1 :: p.2.2.1.1 :: valueWord p.2.2.2

theorem declaration_settles (location : Location) (stop : Token) (ts : List Token) :
    Settles (fun stop ts => plain (declaration stop location ts)) declarationWord stop ts := by
  have hchain := (expect_settles .identifier .variableName stop ts).bind fun name rest _ =>
    (expectToken_settles .colon stop rest).bind fun _ rest₁ _ =>
      (expectWhere_settles Kind.isType .variableType stop rest₁).bind fun type rest₂ _ =>
        value_settles (declarationNode location name.lexeme type.lexeme) stop rest₂
  exact .of_eq (fun stop ts => plain_declaration stop location ts)
    (hchain.weaken id fun _ => rfl)

/-- The tokens of the statements of a block, with the brace that closes it. -/
def blockTailWord (p : Statements × Of .rightBrace) : List Token := p.1.word ++ [p.2.1]

/-- A name alone is an expression. -/
theorem plain_expression_name (stop : Token) {t : Token} (h : t.kind = .identifier) :
    plain (expression stop [t]) = .ok (variableNode t, []) := by
  rw [plain_expression, plain_term, plain_factor_cons, if_neg (by rw [h]; decide),
    plain_primary_variable stop h (by simp)]
  simp only [Except.bind, plain_productTail_nil, plain_sumTail_nil]

mutual

theorem statement_settles (stop : Token) (ts : List Token) :
    Settles (fun stop ts => plain (statement stop ts)) Statement.word stop ts := by
  have hexpression : Settles (fun stop ts => plain (expression stop ts)) Statement.word stop ts :=
    (expression_settles stop ts).weaken .expression fun _ => rfl
  match ts with
  | [] => exact hexpression.congr (plain_statement_nil stop) fun _ _ hus => absurd hus not_alike_nil
  | t :: ts₀ =>
    by_cases hw : isStatementWord t.kind = true
    · cases hk : t.kind with
      | keywordFn =>
        have hchain := (functionHead_settles stop ts₀).bind fun head rest hhead =>
          have hlt := length_lt_of_plain hhead
          (block_settles stop rest).map (functionNode t.location head.1 head.2.1 head.2.2)
        refine .cons (fun stop us _ => plain_statement_fn stop hk us) hchain
          (fun (head, body) => .function ⟨t, hk⟩ head.1 head.2.1 head.2.2.1 head.2.2.2.1
            head.2.2.2.2.1 head.2.2.2.2.2 body) fun p => ?_
        simp [Statement.word, headWord]
      | keywordVar =>
        exact .cons (fun stop us _ => plain_statement_var stop hk us)
          (declaration_settles t.location stop ts₀)
          (fun (name, colon, type, value) => .declaration ⟨t, hk⟩ name colon type value)
          fun _ => rfl
      | keywordIf =>
        have hchain := (parenthesised_settles stop ts₀).bind fun test rest htest =>
          have hlt := length_lt_of_plain htest
          (block_settles stop rest).bind fun body rest' hbody =>
            have hlt' := length_lt_of_plain hbody
            (branches_settles stop rest').map fun others =>
              plainNode .conditional t.location (test :: body :: others)
        refine .cons (fun stop us _ => plain_statement_if stop hk us) hchain
          (fun (test, body, others) => .conditional ⟨t, hk⟩ test body others) fun p => ?_
        simp [Statement.word]
      | keywordWhile =>
        have hchain := (parenthesised_settles stop ts₀).bind fun test rest htest =>
          have hlt := length_lt_of_plain htest
          (block_settles stop rest).map fun body => plainNode .loop t.location [test, body]
        exact .cons (fun stop us _ => plain_statement_while stop hk us) hchain
          (fun (test, body) => .loop ⟨t, hk⟩ test body) fun _ => rfl
      | keywordReturn =>
        exact .cons (fun stop us _ => plain_statement_return stop hk us)
          ((expression_settles stop ts₀).map fun v => plainNode .giveBack t.location [v])
          (fun d => .giveBack ⟨t, hk⟩ d) fun _ => rfl
      | _ => rw [hk] at hw; cases hw
    rw [Bool.not_eq_true] at hw
    by_cases hi : t.kind = .identifier
    · by_cases hl : lead ts₀ = some .assign
      · obtain ⟨u, ts₁, rfl, hu⟩ := lead_eq_some_iff.mp hl
        have hassign : Settles (fun stop us => plain (statement stop (t :: us)))
            (fun d : Expression => u :: d.word) stop (u :: ts₁) :=
          .cons (fun stop us _ => plain_statement_assignment stop hi hu us)
            ((expression_settles stop ts₁).map (assignmentNode t.location t.lexeme)) id fun _ => rfl
        exact .cons (fun _ _ _ => rfl) hassign (fun d => .assignment ⟨t, hi⟩ ⟨u, hu⟩ d) fun _ => rfl
      · -- The second token says that this is no assignment, and a name alone is taken.
        refine .of_second (fun stop us hus => ?_) ?_ hexpression
        · exact plain_statement_expression stop hw fun ha => hl (lead_congr hus ▸ ha.2)
        · exact ⟨stop, [], _, [], plain_expression_name stop hi, (List.cons_ne_nil _ _).symm⟩
    · exact .of_head (fun stop us => plain_statement_expression stop hw fun ha => hi ha.1)
        hexpression
termination_by 3 * ts.length + 1

theorem block_settles (stop : Token) (ts : List Token) :
    Settles (fun stop ts => plain (block stop ts)) Block.word stop ts := by
  have hchain := (expectToken_settles .leftBrace stop ts).bind fun brace rest hbrace =>
    have hlt := length_lt_of_plain hbrace
    (blockTail_settles stop rest).map (plainNode .block brace.location)
  exact .of_eq plain_block (hchain.weaken (fun p => .mk p.1 p.2.1 p.2.2) fun _ => rfl)
termination_by 3 * ts.length

theorem blockTail_settles (stop : Token) (ts : List Token) :
    Settles (fun stop ts => plain (blockTail stop ts)) blockTailWord stop ts := by
  match ts with
  | [] => exact .refuse plain_blockTail_nil fun _ _ hus => absurd hus not_alike_nil
  | t :: ts₀ =>
    by_cases hk : t.kind = .rightBrace
    · exact .single [] (.nil, ⟨t, hk⟩) (fun stop us _ => plain_blockTail_close stop hk us) rfl
    · have hchain := (statement_settles stop (t :: ts₀)).bind fun first rest hfirst =>
        have hlt := length_lt_of_plain hfirst
        (blockTail_settles stop rest).map (first :: ·)
      refine .of_head (fun stop us => plain_blockTail stop hk us)
        (hchain.weaken (fun p => (.cons p.1 p.2.1, p.2.2)) fun p => ?_)
      rw [blockTailWord, Statements.word, blockTailWord, List.append_assoc]
termination_by 3 * ts.length + 2
decreasing_by all_goals simp only [List.length_cons] at *; omega

theorem branches_settles (stop : Token) (ts : List Token) :
    Settles (fun stop ts => plain (branches stop ts)) Branches.word stop ts := by
  by_cases hi : lead ts = some .keywordElseif
  · obtain ⟨t, ts₀, hts₀, hk⟩ := lead_eq_some_iff.mp hi
    have hchain := (parenthesised_settles stop ts₀).bind fun test rest htest =>
      have hlt := length_lt_of_plain htest
      (block_settles stop rest).bind fun body rest' hbody =>
        have hlt' := length_lt_of_plain hbody
        (branches_settles stop rest').map fun others =>
          plainNode .elseIf t.location [test, body] :: others
    rw [hts₀]
    refine .cons (fun stop us _ => plain_branches_elseif stop hk us) hchain
      (fun (test, body, others) => .elseIf ⟨t, hk⟩ test body others) fun p => ?_
    simp [Branches.word]
  by_cases he : lead ts = some .keywordElse
  · obtain ⟨t, ts₀, hts₀, hk⟩ := lead_eq_some_iff.mp he
    rw [hts₀]
    exact .cons (fun stop us _ => plain_branches_else stop hk us)
      ((block_settles stop ts₀).map fun body => [plainNode .otherwise t.location [body]])
      (fun body => .otherwise ⟨t, hk⟩ body) fun _ => rfl
  · refine .stay [] .nil rfl (plain_branches stop hi he) fun stop us hus => ?_
    exact plain_branches stop (lead_congr hus.head? ▸ hi) (lead_congr hus.head? ▸ he)
termination_by 3 * ts.length
decreasing_by all_goals simp only [hts₀, List.length_cons]; omega

end

/-- The statements up to the end of the input, as a reader that leaves nothing. -/
theorem statements_settles (stop : Token) (ts : List Token) :
    Settles (fun stop ts => (statements stop ts).bind fun v => .ok (v, [])) Statements.word stop
      ts := by
  match ts with
  | [] =>
    refine .stay [] .nil rfl ?_ fun _ _ hus => absurd hus not_alike_nil
    rw [statements_nil]
    rfl
  | t :: ts₀ =>
    have hchain := (statement_settles stop (t :: ts₀)).bind fun first rest hfirst =>
      have hlt := length_lt_of_plain hfirst
      (statements_settles stop rest).map (first :: ·)
    refine .of_head (fun stop us => ?_) (hchain.weaken (fun p => .cons p.1 p.2) fun _ => rfl)
    rw [statements_cons]
    rcases plain (statement stop (t :: us)) with r | ⟨first, rest⟩
    · rfl
    · cases hothers : statements stop rest <;> simp only [Except.bind, hothers]
termination_by ts.length
decreasing_by simp only [List.length_cons] at *; omega

end StackLang.Parser
