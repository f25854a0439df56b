import StackLang.Proofs.Grammar.Moved
import StackLang.Proofs.Places
import StackLang.Proofs.Spacing

/-!
# Formatting does not matter

What compiling a source text comes to is decided by the kinds and the texts of its tokens: the
spaces and comments between them move the tokens to other places, and places are there for messages
only.
-/

namespace StackLang

/-! ## Parsing -/

mutual

theorem Tree.unplaced_moved (move : Location → Location) :
    (t : Tree) → (t.moved move).unplaced = t.unplaced
  | ⟨kind, value, attributes, children, location⟩ => by
    rw [Tree.moved, Tree.unplaced, Tree.unplacedAll_movedAll move children, Tree.unplaced]

theorem Tree.unplacedAll_movedAll (move : Location → Location) :
    (ts : List Tree) → Tree.unplacedAll (Tree.movedAll move ts) = Tree.unplacedAll ts
  | [] => rfl
  | t :: ts => by
    rw [Tree.movedAll, Tree.unplacedAll, Tree.unplaced_moved move t,
      Tree.unplacedAll_movedAll move ts, Tree.unplacedAll]

end

/-- Tokens that are equal without their places are moved to the same place. -/
theorem Token.moved_eq_of_bare {t u : Token} (h : t.bare = u.bare) (place : Location) :
    t.moved (fun _ => place) = u.moved fun _ => place := by
  obtain ⟨hkind, hlexeme⟩ := Prod.mk.inj h
  rw [Token.moved, Token.moved, hkind, hlexeme]

theorem Token.map_moved_eq_of_bare {ts us : List Token} (h : ts.map bare = us.map bare)
    (place : Location) :
    ts.map (moved fun _ => place) = us.map (moved fun _ => place) := by
  have hmoved : moved (fun _ => place) = (fun b => ⟨b.1, b.2, place⟩) ∘ bare := rfl
  rw [hmoved, ← List.map_map, h, List.map_map]

namespace Parser

open Token (Kind bare)

/-- What an attempt at statements comes to, without places. -/
def outcome : Attempt (List Tree) → Except Cause (List Tree)
  | .ok trees => .ok (Tree.unplacedAll trees)
  | .error r => .error r.cause

theorem outcome_movedAll (move : Location → Location) (a : Attempt (List Tree)) :
    outcome (movedAll move a) = outcome a := by
  cases a with
  | ok trees => exact congrArg Except.ok (Tree.unplacedAll_movedAll move trees)
  | error r => rfl

/-- What is parsed depends on the kinds and the texts of the tokens only. -/
theorem outcome_statements {stop stop' : Token} {ts us : List Token}
    (hstop : stop.bare = stop'.bare) (h : ts.map bare = us.map bare) :
    outcome (statements stop ts) = outcome (statements stop' us) := by
  let place : Location := .ofPosition "" .start
  rw [← outcome_movedAll (fun _ => place) (statements stop ts), ← statements_moved,
    Token.moved_eq_of_bare hstop, Token.map_moved_eq_of_bare h, statements_moved, outcome_movedAll]

theorem bare_sentence (file file' : String) {ts us : List Token} (h : ts.map bare = us.map bare) :
    (sentence file ts).1.map bare = (sentence file' us).1.map bare ∧
      (sentence file ts).2.bare = (sentence file' us).2.bare := by
  have hfind (vs : List Token) (file : String) :
      ((vs.find? (·.kind = .endOfInput)).getD (Token.ending (.ofPosition file .start))).bare =
        ((vs.map bare).find? (·.1 = .endOfInput)).getD (.endOfInput, "") := by
    rw [List.find?_map]
    have hcomp : (fun b : Kind × String => decide (b.1 = .endOfInput)) ∘ bare =
        fun t => decide (t.kind = .endOfInput) := rfl
    rw [hcomp]
    cases vs.find? (·.kind = .endOfInput) <;> rfl
  rw [sentence, sentence, Token.map_bare_takeWhile, Token.map_bare_takeWhile, hfind, hfind, h]
  exact ⟨rfl, rfl⟩

/-- The tree of a program without its places, or why there is none. -/
def verdict : Attempt Tree → Except Cause Tree
  | .ok t => .ok t.unplaced
  | .error r => .error r.cause

theorem verdict_program (file : String) (ts : List Token) :
    verdict (program file ts) =
      (outcome (statements (sentence file ts).2 (sentence file ts).1)).map fun children =>
        { kind := .program, children } := by
  unfold program
  cases hparsed : statements (sentence file ts).2 (sentence file ts).1 with
  | error r =>
    simp only [hparsed]
    rfl
  | ok children =>
    simp only [hparsed]
    rfl

theorem verdict_congr {file file' : String} {ts us : List Token} (h : ts.map bare = us.map bare) :
    verdict (program file ts) = verdict (program file' us) := by
  obtain ⟨htokens, hstop⟩ := bare_sentence file file' h
  rw [verdict_program, verdict_program, outcome_statements hstop htokens]

end Parser

/-! ## Compiling -/

/-- What compiling a source text comes to, without places. -/
inductive Verdict where
  /-- A program, with the number of tokens it was compiled from and the warnings about it. -/
  | compiled (tokenCount : Nat) (program : Program) (warnings : List String)
  /-- The text leaves the language for this cause. -/
  | refused (cause : Cause)
  /-- Errors for these causes are reported. -/
  | reported (report : Report Cause)
  /-- Compiling breaks down. -/
  | brokenDown (b : Breakdown)

/-- What a compilation comes to, without places. -/
def Compilation.verdict (c : Compilation) : Verdict :=
  match c.result with
  | .ok compiled => .compiled compiled.tokenCount compiled.program compiled.warnings
  | .error (.diagnostic d) => .refused d.cause
  | .error (.report r) => .reported (r.map Diagnostic.cause)
  | .error (.breakdown b) => .brokenDown b

/-- What generated code with its report comes to in a compilation. -/
def Generation.verdict (tokenCount : Nat) : Except Breakdown (Program × Report Cause) → Verdict
  | .error b => .brokenDown b
  | .ok (program, report) =>
    if report.hasErrors then .reported report else .compiled tokenCount program report.warnings

/-- What a compilation comes to depends on what is parsed and on what is generated. -/
theorem Compilation.verdict_ofSource (options : CompileOptions) {file source : String}
    {ts : List Token} (h : Source.tokens file source = .ok ts) :
    (ofSource options file source).verdict =
      match Parser.program file ts with
      | .error r => .refused r.cause
      | .ok t => Generation.verdict ts.length
          ((Generation.ofTree options (Source.lines source) t).result.map Generation.gist) := by
  unfold ofSource
  rw [h]
  simp only [Source.treeOfTokens]
  cases Parser.program file ts with
  | error r => rfl
  | ok t =>
    simp only
    cases hresult : (Generation.ofTree options (Source.lines source) t).result with
    | error b => rfl
    | ok generated =>
      obtain ⟨program, report⟩ := generated
      simp only [Except.map, Generation.gist, Generation.verdict, Report.hasErrors_map]
      split <;> rfl

/-- Source texts whose tokens are equal without places come to the same, without places. -/
theorem Compilation.verdict_congr (options : CompileOptions) {file file' source source' : String}
    {ts us : List Token} (hts : Source.tokens file source = .ok ts)
    (hus : Source.tokens file' source' = .ok us) (h : us.map Token.bare = ts.map Token.bare) :
    (ofSource options file' source').verdict = (ofSource options file source).verdict := by
  have hlength : us.length = ts.length := by
    rw [← List.length_map Token.bare, h, List.length_map]
  have hparsed : Parser.verdict (Parser.program file' us) =
      Parser.verdict (Parser.program file ts) := Parser.verdict_congr h
  rw [verdict_ofSource options hts, verdict_ofSource options hus, hlength]
  generalize Parser.program file ts = a, Parser.program file' us = a' at hparsed
  cases a with
  | error r =>
    cases a' with
    | error r' => exact congrArg Verdict.refused (Except.error.inj hparsed)
    | ok u => cases hparsed
  | ok t =>
    cases a' with
    | error r' => cases hparsed
    | ok u =>
      exact congrArg (Generation.verdict ts.length)
        (Generation.map_gist_ofTree (Except.ok.inj hparsed) options _ _)

/-- Formatting does not matter. Any text in which the lexemes of a source text stand with space and
comments between them has the same tokens, apart from their places. And source texts with the same
tokens, apart from their places, both compile to the same program, or both fail for the same
causes. -/
theorem formatting_irrelevant {file source : String} {ts : List Token}
    (h : Source.tokens file source = .ok ts) :
    (∀ file' text, Token.Layout ((Token.words ts).map fun w => w.2.toList) text.toList →
      ∃ us, Source.tokens file' text = .ok us ∧ us.map Token.bare = ts.map Token.bare) ∧
    ∀ options file' source' us, Source.tokens file' source' = .ok us →
      us.map Token.bare = ts.map Token.bare →
      (Compilation.ofSource options file' source').verdict =
        (Compilation.ofSource options file source).verdict :=
  ⟨fun _ _ hlayout => Token.exists_tokens_layout h hlayout,
    fun options _ _ _ hus hbare => Compilation.verdict_congr options h hus hbare⟩

/-- A quotient with nothing around its lexemes. -/
def tightQuotient : String := "a/b"

/-- The same quotient with space and comments. -/
def looseQuotient : String := "//x\na /\t//y//\n b // z"

theorem formatting_irrelevant_quotient :
    ∃ ts, Source.tokens "tight" tightQuotient = .ok ts ∧
      Token.Layout ((Token.words ts).map fun w => w.2.toList) looseQuotient.toList ∧
      ∃ us, Source.tokens "loose" looseQuotient = .ok us ∧
        us.map Token.bare = ts.map Token.bare ∧
        ∀ options, (Compilation.ofSource options "loose" looseQuotient).verdict =
          (Compilation.ofSource options "tight" tightQuotient).verdict := by
  have hread : (Source.tokens "tight" tightQuotient).toOption.map (fun ts =>
      (Token.words ts).map fun w => w.2.toList) = some [['a'], ['/'], ['b']] := by decide +kernel
  cases h : Source.tokens "tight" tightQuotient with
  | error d =>
    rw [h] at hread
    cases hread
  | ok ts =>
    rw [h] at hread
    have hlast : Token.Spaced [] " // z".toList :=
      .remark ' ' [] "// z".toList (by decide) .nil (.inr ⟨" z".toList, by decide, rfl⟩)
    have hgap : Token.Filler "//y//\n ".toList :=
      .comment "y//".toList [' '] (by decide) (.space ' ' [] (by decide) .nil)
    have hright : Token.Spaced [['b']] "\t//y//\n b // z".toList :=
      .next '\t' "//y//\n ".toList ['b'] " // z".toList [] (by decide) hgap hlast
    have hslash : Token.Spaced [['/'], ['b']] " /\t//y//\n b // z".toList :=
      .next ' ' [] ['/'] "\t//y//\n b // z".toList [['b']] (by decide) .nil hright
    have hlayout : Token.Layout ((Token.words ts).map fun w => w.2.toList)
        looseQuotient.toList := by
      have hwords : ((Token.words ts).map fun w => w.2.toList) = [['a'], ['/'], ['b']] :=
        Option.some.inj hread
      rw [hwords]
      exact .first "//x\n".toList ['a'] _ _ (.comment ['x'] [] (by decide) .nil) hslash
    obtain ⟨hspread, hsame⟩ := formatting_irrelevant h
    obtain ⟨us, hus, hbare⟩ := hspread "loose" looseQuotient hlayout
    exact ⟨ts, rfl, hlayout, us, hus, hbare, fun options => hsame options _ _ us hus hbare⟩

end StackLang
