import StackLang.Proofs.Grammar.Following

/-!
# Every rule moves on

A rule that is read from a position on refuses a token or stops behind that position, and never
behind the first end of the input. So all loops end, whatever the tokens are and wherever a loop
starts, and the calls go no deeper than the number of tokens up to that end allows.
-/

namespace StackLang.Cursor

open StackLang.Parser (Attempt plain peek)
open StackLang.Grammar (ended)

variable {α β : Type} {tokens left : List Token} {stop : Token} {i depth : Nat}

/-! ## All rules and loops -/

/-- The rules that read a tree. -/
inductive Rule where
  | statement | block | expression | term | factor | primary

namespace Rule

/-- Reads a tree from the position on. -/
def reader (tokens : List Token) (depth : Nat) : Rule → Reader Tree
  | statement => Cursor.statement tokens depth
  | block => Cursor.block tokens depth
  | expression => Cursor.expression tokens depth
  | term => Cursor.term tokens depth
  | factor => Cursor.factor tokens depth
  | primary => Cursor.primary tokens depth

/-- Reads a tree from the tokens left. -/
def parser (rule : Rule) (stop : Token) (left : List Token) :
    Attempt (Parser.Parsed left.length Tree) :=
  match rule with
  | statement => Parser.statement stop left
  | block => Parser.block stop left
  | expression => Parser.expression stop left
  | term => Parser.term stop left
  | factor => Parser.factor stop left
  | primary => Parser.primary stop left

theorem follows (rule : Rule) (h : Stands tokens i left stop)
    (hd : 4 * left.length + 8 ≤ depth) :
    Follows tokens stop i left (rule.reader tokens depth) (plain (rule.parser stop left)) := by
  cases rule with
  | statement => exact follows_statement h (by omega)
  | block => exact follows_block h (by omega)
  | expression => exact follows_expression h (by omega)
  | term => exact follows_term h (by omega)
  | factor => exact follows_factor h (by omega)
  | primary => exact follows_primary h (by omega)

end Rule

/-- The loops, with what they start from. -/
inductive Loop where
  | statements | block | branches | parameters | arguments
  | sum (first : Tree)
  | product (first : Tree)
  | signs (taken : List Token)

/-- A loop that starts at a position comes to an end before it is cut off. -/
def Loop.Ends (tokens : List Token) (depth i : Nat) : Loop → Prop
  | statements => outcome (statementLoop tokens depth) i ≠ none
  | block => outcome (blockLoop tokens depth) i ≠ none
  | branches => outcome (branchLoop tokens depth) i ≠ none
  | parameters => outcome (parameterLoop tokens depth) i ≠ none
  | arguments => outcome (argumentLoop tokens depth) i ≠ none
  | sum first => outcome (sumLoop tokens depth first) i ≠ none
  | product first => outcome (productLoop tokens depth first) i ≠ none
  | signs taken => outcome (signLoop tokens depth taken) i ≠ none

theorem Follows.outcome_ne_none {x : Reader α} {r : Attempt (α × List Token)}
    (h : Follows tokens stop i left x r) : outcome x i ≠ none := by
  rcases r with e | ⟨a, rest⟩
  · rw [show outcome x i = some (.error e) from h]
    exact Option.some_ne_none _
  · obtain ⟨j, hj, -⟩ := h
    rw [hj]
    exact Option.some_ne_none _

/-- The first part of a reader that ends does so too. -/
theorem outcome_ne_none_of_bind {x : Reader α} {f : α → Reader β}
    (h : outcome (x >>= f) i ≠ none) : outcome x i ≠ none := by
  intro hx
  refine h ?_
  change (outcome x i).bind _ = _
  rw [hx]
  rfl

theorem Loop.ends (loop : Loop) (h : Stands tokens i left stop)
    (hd : 4 * left.length + 8 ≤ depth) : loop.Ends tokens depth i := by
  cases loop with
  | statements => exact (follows_statementLoop h (by omega)).outcome_ne_none
  | block => exact (follows_blockLoop h (by omega)).outcome_ne_none
  | branches => exact (follows_branchLoop h (by omega)).outcome_ne_none
  | parameters => exact (follows_parameterLoop h (by omega)).outcome_ne_none
  | arguments => exact (follows_argumentLoop h (by omega)).outcome_ne_none
  | sum first => exact (follows_sumLoop first h (by omega)).outcome_ne_none
  | product first => exact (follows_productLoop first h (by omega)).outcome_ne_none
  | signs taken =>
    have hlength : left.length < depth := by omega
    have hsigns := follows_signLoop (x := primary tokens depth) taken h hlength
      fun j rest hrest hj => follows_primary hj (by omega)
    exact outcome_ne_none_of_bind hsigns.outcome_ne_none

/-! ## Positions of a token list -/

/-- Of the tokens from the position `i` on, the one at `e` is the first that ends the input. -/
structure IsFirstEnd (tokens : List Token) (i e : Nat) : Prop where
  le : i ≤ e
  lt : e < tokens.length
  kind : (tokenAt tokens e).kind = .endOfInput
  before : ∀ k, i ≤ k → k < e → (tokenAt tokens k).kind ≠ .endOfInput

namespace Stands

theorem drop (h : Stands tokens i left stop) {k : Nat} (hk : k ≤ left.length) :
    Stands tokens (i + k) (left.drop k) stop := by
  obtain ⟨after, hsplit⟩ := h.split
  refine ⟨⟨after, ?_⟩, fun t ht => h.endless t (List.mem_of_mem_drop ht), h.kind_stop⟩
  rw [← List.drop_drop, hsplit, List.drop_append_of_le_length hk]

/-- The tokens left are those before the first end of the input. -/
theorem isFirstEnd (h : Stands tokens i left stop) : IsFirstEnd tokens i (i + left.length) := by
  refine ⟨Nat.le_add_right _ _, ?_, ?_, fun k hik hk => ?_⟩
  · obtain ⟨after, hsplit⟩ := h.split
    have hlength := congrArg List.length hsplit
    simp only [List.length_drop, List.length_append, List.length_cons] at hlength
    omega
  · rw [(h.drop (Nat.le_refl _)).tokenAt_eq, List.drop_length]
    exact h.kind_stop
  · obtain ⟨m, rfl⟩ := Nat.exists_eq_add_of_le hik
    have hm : m < left.length := by omega
    rw [(h.drop hm.le).tokenAt_eq, List.drop_eq_getElem_cons hm]
    exact h.endless _ (List.getElem_mem hm)

theorem take_drop (h : Stands tokens i left stop) :
    (tokens.take (i + left.length)).drop i = left := by
  obtain ⟨after, hsplit⟩ := h.split
  rw [List.drop_take, hsplit, Nat.add_sub_cancel_left, List.take_left]

theorem tokenAt_stop (h : Stands tokens i left stop) : tokenAt tokens (i + left.length) = stop := by
  rw [(h.drop (Nat.le_refl _)).tokenAt_eq, List.drop_length]
  rfl

end Stands

theorem kind_last_ended (file : String) (ts : List Token) :
    ∃ last, (ended file ts).getLast? = some last ∧ last.kind = .endOfInput := by
  unfold ended
  split
  · rename_i hlast
    exact Option.map_eq_some_iff.mp hlast
  · exact ⟨_, List.getLast?_concat, rfl⟩

/-- At every position some end of the input is ahead. -/
theorem exists_stands {file : String} {ts : List Token} (h : i < (ended file ts).length) :
    ∃ left stop, Stands (ended file ts) i left stop := by
  obtain ⟨last, hlast, hkind⟩ := kind_last_ended file ts
  have hmem : last ∈ (ended file ts).drop i := by
    refine List.mem_of_getLast? ?_
    rw [List.getLast?_drop, if_neg (Nat.not_le.mpr h), hlast]
  obtain ⟨stop, hfind⟩ :
      ∃ stop, ((ended file ts).drop i).find? (·.kind = .endOfInput) = some stop :=
    Option.isSome_iff_exists.mp (List.find?_isSome.mpr ⟨last, hmem, decide_eq_true hkind⟩)
  obtain ⟨hstop, left, after, hsplit, hleft⟩ := List.find?_eq_some_iff_append.mp hfind
  exact ⟨left, stop, ⟨after, hsplit⟩, fun t ht => by simpa using hleft t ht, by simpa using hstop⟩

/-- Behind the last token the input has ended. -/
theorem lt_length_of_kind_ne {file : String} {ts : List Token}
    (h : (tokenAt (ended file ts) i).kind ≠ .endOfInput) : i < (ended file ts).length := by
  by_contra hge
  obtain ⟨last, hlast, hkind⟩ := kind_last_ended file ts
  refine h ?_
  rw [tokenAt, List.getD_eq_getElem?_getD, List.getElem?_eq_none (Nat.not_lt.mp hge),
    Option.getD_none, List.getLastD_eq_getLast?, hlast]
  exact hkind

theorem stands_sentence (file : String) (ts : List Token) :
    Stands (ended file ts) 0 (Parser.sentence file ts).1 (Parser.sentence file ts).2 :=
  ⟨Grammar.exists_ended file ts, Grammar.endless_sentence file ts, Grammar.kind_stop file ts⟩

/-! ## Progress -/

/-- A rule that is read from the position `i` on refuses the token that the parser refuses, or comes
to the tree of the parser; then its position is behind `i`, not behind `e`, and that of the tokens
that the parser leaves. -/
def Advances (tokens : List Token) (depth i e : Nat) (rule : Rule) : Prop :=
  (∃ r, rule.parser (tokenAt tokens e) ((tokens.take e).drop i) = .error r ∧
    outcome (rule.reader tokens depth) i = some (.error r)) ∨
  ∃ p j, rule.parser (tokenAt tokens e) ((tokens.take e).drop i) = .ok p ∧
    outcome (rule.reader tokens depth) i = some (.ok (p.value, j)) ∧ i < j ∧ j ≤ e ∧
    p.rest = (tokens.take e).drop j

theorem Stands.advances (h : Stands tokens i left stop) (hd : 4 * left.length + 8 ≤ depth)
    (rule : Rule) : Advances tokens depth i (i + left.length) rule := by
  have hfollows := rule.follows h hd
  rw [Advances, h.tokenAt_stop, h.take_drop]
  cases hparser : rule.parser stop left with
  | error r =>
    rw [hparser] at hfollows
    exact .inl ⟨r, rfl, hfollows⟩
  | ok p =>
    rw [hparser] at hfollows
    obtain ⟨j, hj, hstands, hlength⟩ := hfollows
    have hfewer := p.fewer
    change j + p.rest.length = i + left.length at hlength
    refine .inr ⟨p, j, rfl, hj, by omega, by omega, ?_⟩
    rw [← hlength]
    exact hstands.take_drop.symm

/-- The whole list is read as the parser reads it, up to its first end. -/
theorem outcome_program (file : String) (ts : List Token)
    (hd : 4 * (Parser.sentence file ts).1.length + 8 ≤ depth) :
    outcome (program (ended file ts) depth) 0 =
      some ((Parser.program file ts).map
        fun tree => (tree, (Parser.sentence file ts).1.length)) := by
  have hstands := stands_sentence file ts
  have hfollows : Follows (ended file ts) (Parser.sentence file ts).2 0 (Parser.sentence file ts).1
      (program (ended file ts) depth) (.bind (wholeStatements _ _) fun x => .ok
        (Grammar.plainNode .program (peek (Parser.sentence file ts).2
          (Parser.sentence file ts).1).location x.1, x.2)) :=
    .look hstands ((follows_statementLoop hstands (by omega)).bind
      fun children _ _ _ hend => .pure hend _)
  have hprogram : Parser.program file ts =
      (Parser.statements (Parser.sentence file ts).2 (Parser.sentence file ts).1).bind fun v =>
        .ok (Grammar.plainNode .program (peek (Parser.sentence file ts).2
          (Parser.sentence file ts).1).location v) := rfl
  rw [wholeStatements] at hfollows
  rw [hprogram]
  cases hstatements : Parser.statements (Parser.sentence file ts).2 (Parser.sentence file ts).1 with
  | error r =>
    rw [hstatements] at hfollows
    exact hfollows
  | ok children =>
    rw [hstatements] at hfollows
    obtain ⟨j, hj, -, hlength⟩ := hfollows
    rw [hj, ← Nat.zero_add (Parser.sentence file ts).1.length, ← hlength]
    rfl

/-- In a list of tokens in which the end of the input may be missing, early or repeated, every rule
moves on from every position before an end, and not past the first end; all loops end; and the whole
list is read as the parser reads it, up to its first end. The depth of the calls that this takes is
bounded by the number of tokens up to that end. -/
theorem rules_move_on (file : String) (ts : List Token) :
    (∀ i, (tokenAt (ended file ts) i).kind ≠ .endOfInput →
      ∃ e, IsFirstEnd (ended file ts) i e ∧ ∀ depth ≥ 4 * (e - i) + 8, ∀ rule,
        Advances (ended file ts) depth i e rule) ∧
    (∀ i < (ended file ts).length,
      ∃ e, IsFirstEnd (ended file ts) i e ∧ ∀ depth ≥ 4 * (e - i) + 8, ∀ loop : Loop,
        loop.Ends (ended file ts) depth i) ∧
    ∃ e, IsFirstEnd (ended file ts) 0 e ∧ ∀ depth ≥ 4 * e + 8,
      outcome (program (ended file ts) depth) 0 =
        some ((Parser.program file ts).map fun tree => (tree, e)) := by
  refine ⟨fun i hkind => ?_, fun i hi => ?_, ?_⟩
  · obtain ⟨left, stop, h⟩ := exists_stands (lt_length_of_kind_ne hkind)
    refine ⟨_, h.isFirstEnd, fun depth hd rule => h.advances ?_ rule⟩
    omega
  · obtain ⟨left, stop, h⟩ := exists_stands hi
    refine ⟨_, h.isFirstEnd, fun depth hd loop => loop.ends h ?_⟩
    omega
  · refine ⟨_, (stands_sentence file ts).isFirstEnd, fun depth hd => ?_⟩
    rw [Nat.zero_add] at hd ⊢
    exact outcome_program file ts hd

/-- Tokens with an end among them and none at their end. -/
def scattered : List Token :=
  [⟨.number, "1", ⟨"f", 1, 0⟩⟩, ⟨.endOfInput, "?", ⟨"f", 1, 1⟩⟩, ⟨.minus, "", ⟨"f", 2, 0⟩⟩,
    ⟨.identifier, "-", ⟨"f", 2, 1⟩⟩]

/-- Behind the first end, the rules go on to the second one; at an end, the loops stop. -/
theorem rules_move_on_scattered :
    (tokenAt (ended "f" scattered) 2).kind ≠ .endOfInput ∧
      (∃ e, IsFirstEnd (ended "f" scattered) 2 e ∧
        ∀ rule, Advances (ended "f" scattered) 20 2 e rule) ∧
      1 < (ended "f" scattered).length ∧ ∀ loop : Loop, loop.Ends (ended "f" scattered) 20 1 := by
  have hmoves := rules_move_on "f" scattered
  have hlength : (ended "f" scattered).length = 5 := by decide
  refine ⟨by decide, ?_, by decide, ?_⟩
  · obtain ⟨e, he, hadvances⟩ := hmoves.1 2 (by decide)
    have hlt := he.lt
    exact ⟨e, he, hadvances 20 (by omega)⟩
  · obtain ⟨e, he, hends⟩ := hmoves.2.1 1 (by decide)
    have hlt := he.lt
    exact hends 20 (by omega)

end StackLang.Cursor
