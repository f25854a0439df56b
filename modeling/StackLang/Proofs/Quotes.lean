import StackLang.Proofs.Lexemes
import StackLang.Proofs.Located
import StackLang.Proofs.Reports

/-!
# Diagnostics quote lines

Places count newlines, and quotes count line breaks of all kinds. A character that starts no token
is quoted with its own line. All other diagnostics quote the line that has as many line breaks
before it as the token has newlines. This is the line of the token if newlines, alone or after a
carriage return, are the only line breaks up to its end; then the quote leaves out the carriage
return at the end of the line, and the token stands at the column of its place.
-/

namespace StackLang

/-! ## Two senses of a line -/

namespace Text

/-- No line break is in a line, but for a carriage return at its end. -/
def isUnbroken : List Char → Bool
  | [] => true
  | c :: cs => (c == '\r' && cs.isEmpty) || (!isLineBreak c && isUnbroken cs)

/-- A line without the carriage return at its end. -/
def withoutReturn : List Char → List Char
  | [] => []
  | c :: cs => if c = '\r' ∧ cs = [] then [] else c :: withoutReturn cs

theorem withoutReturn_append_of_ne (line : List Char) {rest : List Char} (h : rest ≠ []) :
    withoutReturn (line ++ rest) = line ++ withoutReturn rest := by
  induction line with
  | nil => rfl
  | cons c cs ih =>
    rw [List.cons_append, withoutReturn, if_neg (by simp [h]), ih, List.cons_append]

theorem withoutReturn_append_of_not_mem {line : List Char} (h : '\r' ∉ line) (rest : List Char) :
    withoutReturn (line ++ rest) = line ++ withoutReturn rest := by
  induction line with
  | nil => rfl
  | cons c cs ih =>
    obtain ⟨hc, hcs⟩ := not_or.mp (List.mem_cons.not.mp h)
    rw [List.cons_append, withoutReturn, if_neg fun h => hc h.1.symm, ih hcs, List.cons_append]

theorem withoutReturn_eq_self {line : List Char} (h : '\r' ∉ line) : withoutReturn line = line := by
  simpa [withoutReturn] using withoutReturn_append_of_not_mem h []

theorem lines_cons {c : Char} (hc : isLineBreak c = false) {cs line : List Char}
    {others : List (List Char)} (hcs : lines cs = line :: others) :
    lines (c :: cs) = (c :: line) :: others := by
  rw [lines, if_neg (by simp [hc]), hcs]
  rintro rest rfl -
  cases hc

/-- An unbroken line is a carriage return, or starts with a character that breaks no line. -/
theorem isUnbroken_cons {c : Char} {cs : List Char} (h : isUnbroken (c :: cs) = true) :
    (c = '\r' ∧ cs = []) ∨
      (isLineBreak c = false ∧ isUnbroken cs = true ∧
        withoutReturn (c :: cs) = c :: withoutReturn cs) := by
  simp only [isUnbroken, Bool.or_eq_true, Bool.and_eq_true, beq_iff_eq, List.isEmpty_iff,
    Bool.not_eq_true'] at h
  rcases h with h | ⟨hc, hcs⟩
  · exact .inl h
  · refine .inr ⟨hc, hcs, if_neg ?_⟩
    rintro ⟨rfl, -⟩
    cases hc

/-- A newline after an unbroken line is the first break. -/
theorem lines_append_newline {line : List Char} (h : isUnbroken line = true) (rest : List Char) :
    lines (line ++ '\n' :: rest) = withoutReturn line :: lines rest := by
  induction line with
  | nil => rfl
  | cons c cs ih =>
    rcases isUnbroken_cons h with ⟨rfl, rfl⟩ | ⟨hc, hcs, hline⟩
    · rfl
    · rw [hline]
      exact lines_cons hc (ih hcs)

/-- An unbroken text is its own line, unless it is empty. -/
theorem lines_of_isUnbroken {line : List Char} (h : isUnbroken line = true) (hne : line ≠ []) :
    lines line = [withoutReturn line] := by
  induction line with
  | nil => exact absurd rfl hne
  | cons c cs ih =>
    rcases isUnbroken_cons h with ⟨rfl, rfl⟩ | ⟨hc, hcs, hline⟩
    · rfl
    · rw [hline]
      cases cs with
      | nil =>
        rw [lines, if_neg (by simp [hc])]
        rfl
        rintro rest - ⟨⟩
      | cons d ds => exact lines_cons hc (ih hcs (by simp))

theorem eq_withoutReturn_of_isUnbroken {n : Nat} {line quote : List Char}
    (h : isUnbroken line = true) (hquote : (lines line)[n]? = some quote) :
    n = 0 ∧ quote = withoutReturn line := by
  by_cases hne : line = []
  · subst hne
    cases hquote
  · rw [lines_of_isUnbroken h hne, List.getElem?_singleton] at hquote
    split at hquote
    · exact ⟨‹n = 0›, (Option.some.inj hquote).symm⟩
    · cases hquote

/-- The first line is all of a text, or a newline and the other lines follow it. -/
theorem newlineLine_split (cs : List Char) :
    newlineLine 0 cs = cs ∨ ∃ rest, cs = newlineLine 0 cs ++ '\n' :: rest ∧
      ∀ n, newlineLine (n + 1) cs = newlineLine n rest := by
  have hcs : newlineLine 0 cs ++ cs.dropWhile (· != '\n') = cs := List.takeWhile_append_dropWhile
  cases hdrop : cs.dropWhile (· != '\n') with
  | nil =>
    rw [hdrop, List.append_nil] at hcs
    exact .inl hcs
  | cons c rest =>
    have hc : c = '\n' := by
      simpa [hdrop] using List.head?_dropWhile_not (· != '\n') cs
    refine .inr ⟨rest, ?_, fun n => ?_⟩
    · rw [← hc, ← hdrop, hcs]
    · rw [newlineLine, hdrop, List.drop_one, List.tail_cons]

/-- As long as lines are unbroken, both senses of a line agree but for the carriage return. -/
theorem eq_withoutReturn_of_lines {n : Nat} {cs quote : List Char}
    (h : ∀ k ≤ n, isUnbroken (newlineLine k cs) = true) (hquote : (lines cs)[n]? = some quote) :
    quote = withoutReturn (newlineLine n cs) := by
  -- each newline before the line takes one unbroken line off both senses
  induction n generalizing cs with
  | zero =>
    have hfirst := h 0 le_rfl
    rcases newlineLine_split cs with hwhole | ⟨rest, hsplit, -⟩
    · rw [hwhole] at hfirst ⊢
      exact (eq_withoutReturn_of_isUnbroken hfirst hquote).2
    · rw [hsplit, lines_append_newline hfirst] at hquote
      exact (Option.some.inj hquote).symm
  | succ n ih =>
    have hfirst := h 0 (Nat.zero_le _)
    rcases newlineLine_split cs with hwhole | ⟨rest, hsplit, hlater⟩
    · rw [hwhole] at hfirst
      cases (eq_withoutReturn_of_isUnbroken hfirst hquote).1
    · rw [hsplit, lines_append_newline hfirst, List.getElem?_cons_succ] at hquote
      rw [hlater]
      refine ih (fun k hk => ?_) hquote
      rw [← hlater]
      exact h (k + 1) (Nat.succ_le_succ hk)

end Text

/-- Without the carriage return at the end of a line, what is at a place is at its column, and the
line goes on to this column, unless the place is an end after a carriage return. -/
theorem caret_lineAround {before reported : List Char} (after : List Char)
    (h : ∀ c ∈ reported, Text.isLineBreak c = false) :
    let line := lineAround before (reported ++ after)
    reported <+: (Text.withoutReturn line).drop (sinceNewline before).length ∧
      ((sinceNewline before).length ≤ (Text.withoutReturn line).length ∨
        reported = [] ∧ '\r' ∈ line) := by
  intro line
  have hmem (c : Char) (hc : Text.isLineBreak c = true) : c ∉ reported := fun hmem => by
    rw [h c hmem] at hc
    cases hc
  have hline : line = sinceNewline before ++ (reported ++ after.takeWhile (· != '\n')) :=
    congrArg (sinceNewline before ++ ·) (List.takeWhile_append_of_pos fun c hc =>
      bne_iff_ne.mpr (ne_of_mem_of_not_mem hc (hmem '\n' rfl)))
  -- only behind a place with nothing at it can the carriage return be all that is left of the line
  by_cases hreported : reported = []
  · subst hreported
    refine ⟨List.nil_prefix, or_iff_not_imp_right.mpr fun hreturn => ?_⟩
    rw [Text.withoutReturn_eq_self fun hmem => hreturn ⟨rfl, hmem⟩, hline, List.length_append]
    exact Nat.le_add_right _ _
  · rw [hline, Text.withoutReturn_append_of_ne _ (by simp [hreported]),
      Text.withoutReturn_append_of_not_mem (hmem '\r' rfl), List.drop_left, List.length_append]
    exact ⟨List.prefix_append _ _, .inl (Nat.le_add_right _ _)⟩

/-! ## Places of tokens -/

namespace Token

theorem isLineBreak_eq_false_of_isWordChar {c : Char} (h : isWordChar c = true) :
    Text.isLineBreak c = false := by
  have hbetween := between_of_isWordChar h
  have hfirst : 0x30 ≤ c.toNat := hbetween.1
  have hlast : c.toNat ≤ 0x7A := hbetween.2
  simp [Text.isLineBreak]
  omega

/-- No lexeme has a line break in it. -/
theorem Lexeme.isLineBreak_eq_false {k : Kind} {cs : List Char} (h : Lexeme k cs) :
    ∀ c ∈ cs, Text.isLineBreak c = false := by
  have hall : ∀ k ∈ Kind.keywords ++ Kind.operators,
      k.spelling.toList.all (fun c => !Text.isLineBreak c) = true := by decide
  have hspelling (k : Kind) (hk : k ∈ Kind.keywords ++ Kind.operators) :
      ∀ c ∈ k.spelling.toList, Text.isLineBreak c = false :=
    fun c hc => by simpa using List.all_eq_true.mp (hall k hk) c hc
  cases h with
  | keyword k h => exact hspelling k (List.mem_append_left _ h)
  | identifier cs hcs => exact fun c hc => isLineBreak_eq_false_of_isWordChar (hcs.chars c hc)
  | number cs hne hdigits =>
    exact fun c hc => isLineBreak_eq_false_of_isWordChar (by simp [isWordChar, hdigits c hc])
  | operator k h => exact hspelling k (List.mem_append_right _ h)

/-- A token stands where its lexeme is cut out. -/
theorem Cut.exists_split {file : String} {rest before text : List Char} {ts : List Token}
    (h : Cut file rest before text ts) {t : Token} (ht : t ∈ ts) :
    ∃ start after, before ++ text = start ++ (t.lexeme.toList ++ after) ∧
      t.location = .afterText file start := by
  induction h with
  | last before gap hgap hbare => cases ht
  | token before gap text k lexeme ts hgap hbare hlexeme hcut ih =>
    rcases List.mem_cons.mp ht with rfl | ht
    · refine ⟨before ++ gap, text, ?_, rfl⟩
      rw [String.toList_ofList, List.append_assoc]
    · obtain ⟨start, after, hsplit, hplace⟩ := ih ht
      exact ⟨start, after, by simpa using hsplit, hplace⟩

end Token

namespace Source

/-- The tokens of a source text are cut out of it and end where it ends. The parser reads all of
them. -/
theorem exists_cut_of_tokens {file source : String} {ts : List Token}
    (h : tokens file source = .ok ts) :
    ∃ us, Token.Cut file [] [] source.toList us ∧
      ts = us ++ [Token.ending (.afterText file source.toList)] ∧
      Parser.readTokens file ts = ts := by
  have hcuts := Token.explains_scan file [] source.toList
  rw [Position.after_nil] at hcuts
  unfold tokens at h
  split at h
  case h_2 => cases h
  rename_i ts' hscan
  obtain rfl := Except.ok.inj h
  rw [hscan] at hcuts
  obtain ⟨us, hcut, rfl⟩ := hcuts
  refine ⟨us, hcut, rfl, ?_⟩
  rw [Parser.readTokens, Grammar.sentence_append file [] hcut.kind_ne_end rfl]

/-- The tokens of a source text stand where their lexemes are cut out, and no lexeme has a line
break in it. The parser reads all of them. -/
theorem exists_split_of_tokens {file source : String} {ts : List Token}
    (h : tokens file source = .ok ts) {t : Token} (ht : t ∈ Parser.readTokens file ts) :
    t ∈ ts ∧ (∀ c ∈ t.lexeme.toList, Text.isLineBreak c = false) ∧
      ∃ before after, source.toList = before ++ (t.lexeme.toList ++ after) ∧
        t.location = .afterText file before := by
  obtain ⟨us, hcut, rfl, hread⟩ := exists_cut_of_tokens h
  rw [hread] at ht
  refine ⟨ht, ?_⟩
  rcases List.mem_append.mp ht with ht | ht
  · exact ⟨(hcut.isLexeme t ht).isLineBreak_eq_false, hcut.exists_split ht⟩
  · obtain rfl := List.mem_singleton.mp ht
    exact ⟨List.forall_mem_nil _, source.toList, [], by simp [Token.ending], rfl⟩

/-- A refused character is quoted with the line that newlines bound. -/
theorem exists_split_of_error {file source : String} {d : Diagnostic}
    (h : tokens file source = .error d) :
    ∃ before c after, source.toList = before ++ c :: after ∧
      d = ⟨.invalidCharacter c (characterHint c), some (.afterText file before),
        some (String.ofList (lineAround before (c :: after)))⟩ ∧ c ≠ '\n' := by
  have hcuts := Token.explains_scan file [] source.toList
  rw [Position.after_nil] at hcuts
  unfold tokens at h
  split at h
  case h_1 => cases h
  rename_i p c hscan
  obtain rfl := Except.error.inj h
  rw [hscan] at hcuts
  obtain ⟨us, before, after, hcut, hsplit, rfl, -⟩ := hcuts
  rw [List.nil_append] at hsplit
  refine ⟨before, c, after, hsplit, ?_, ?_⟩
  · rw [refusedCharacter, Location.ofPosition_after, Position.line_after, Nat.add_sub_cancel_left,
      hsplit, newlineLine_count]
  · rintro rfl
    exact hcut.not_gapStarts (.inl ⟨'\n', by decide, rfl⟩)

/-- What a diagnostic at the place after a text quotes is counted by the newlines of this text. -/
theorem getElem?_of_sourceLine {source q : String} {cause : Cause} {file : String}
    {before : List Char}
    (h : (Diagnostic.ofCause (lines source) cause (some (.afterText file before))).sourceLine =
      some q) :
    (Text.lines source.toList)[before.count '\n']? = some q.toList := by
  have hquote : lineAt? (lines source) (1 + before.count '\n' : Int) = some q := by
    rw [Diagnostic.ofCause] at h
    dsimp only at h
    split at h
    · exact h
    · cases h
  have hindex : (1 + before.count '\n' : Int).toNat - 1 = before.count '\n' := by omega
  rw [lineAt?, if_pos (by omega), hindex, lines, List.getElem?_map] at hquote
  obtain ⟨line, hline, rfl⟩ := Option.map_eq_some_iff.mp hquote
  rw [hline, String.toList_ofList]

end Source

/-! ## Diagnostics of a compilation -/

/-- The report on a tree is about places of the tree. -/
theorem Generation.exists_place {P : Location → Prop} {options : CompileOptions}
    {lines : List String} {t : Tree} {program : Program} {report : Report Diagnostic}
    (h : t.LocatedIn P) (hresult : (ofTree options lines t).result = .ok (program, report))
    {d : Diagnostic} (hd : d ∈ report.errors) :
    ∃ cause location, d = .ofCause lines cause location ∧ ∀ l ∈ location, P l := by
  unfold ofTree at hresult
  split at hresult
  · rename_i s hs
    cases hbreakdown : s.breakdown? with
    | none =>
      rw [result_ofScript hbreakdown] at hresult
      obtain ⟨-, rfl⟩ := Prod.mk.inj (Except.ok.inj hresult)
      obtain ⟨cause, location, hfinding, rfl⟩ := exists_finding_of_mem_errors hd
      exact ⟨cause, location, rfl, Script.locatedIn_findings h hs _ hfinding⟩
    | some b =>
      rw [result_ofScript_of_breakdown? hbreakdown] at hresult
      cases hresult
  · obtain ⟨-, rfl⟩ := Prod.mk.inj (Except.ok.inj hresult)
    have hkept := Report.errors_addAll { limit := options.limit }
      [Diagnostic.ofCause lines (.misuse (.notProgram t.kind)) t.location]
    rw [Report.addAll, List.foldl_cons, List.foldl_nil] at hkept
    rw [hkept] at hd
    have hd := List.mem_singleton.mp (List.mem_of_mem_take hd)
    exact ⟨_, t.location, hd, h.location⟩

namespace Compilation

/-- The diagnostic that ends a compilation, or all that its report keeps. -/
def diagnostics (c : Compilation) : List Diagnostic :=
  match c.result with
  | .error (.diagnostic d) => [d]
  | .error (.report r) => r.errors
  | _ => []

/-- A diagnostic is about a character that starts no token, or at the place of a token. -/
theorem exists_origin {options : CompileOptions} {file source : String} {d : Diagnostic}
    (h : d ∈ (ofSource options file source).diagnostics) :
    Source.tokens file source = .error d ∨
      ∃ ts cause location, Source.tokens file source = .ok ts ∧
        d = .ofCause (Source.lines source) cause location ∧
        ∀ l ∈ location, ∃ t ∈ Parser.readTokens file ts, t.location = l := by
  unfold ofSource at h
  split at h
  · rename_i d' htokens
    rw [List.mem_singleton.mp h]
    exact .inl htokens
  · rename_i ts htokens
    refine .inr ⟨ts, ?_⟩
    split at h
    · rename_i d' htree
      obtain rfl := List.mem_singleton.mp h
      unfold Source.treeOfTokens at htree
      split at htree
      · cases htree
      · rename_i r hprogram
        obtain rfl := Except.error.inj htree
        refine ⟨r.cause, some r.found.location, htokens, rfl, ?_⟩
        rintro l ⟨⟩
        exact ⟨r.found, Parser.found_mem_readTokens hprogram, rfl⟩
    · rename_i tree htree
      have hprogram : Parser.program file ts = .ok tree := by
        unfold Source.treeOfTokens at htree
        split at htree
        · rw [← Except.ok.inj htree]
          assumption
        · cases htree
      dsimp only at h
      split at h
      · cases h
      · rename_i program report hresult
        split at h
        · obtain ⟨cause, location, hd, hplace⟩ :=
            Generation.exists_place (Parser.locatedIn_program hprogram) hresult h
          exact ⟨cause, location, htokens, hd, hplace⟩
        · cases h

/-- A diagnostic that quotes a line has a place in the source text at which the reported text
stands. A character that starts no token is quoted with the line that newlines bound, and stands at
its column in it. Any other reported text is a token, and the quote is the line with as many line
breaks of any kind before it as there are newlines before the token. If no line up to there is
broken by anything else, this is the line of the token without the carriage return at its end; the
token stands at its column in it, and only the end of the input after a carriage return is beyond
its last column. -/
theorem quotes_reported_line {options : CompileOptions} {file source : String} {d : Diagnostic}
    {l : Location} {q : String} (hd : d ∈ (ofSource options file source).diagnostics)
    (hl : d.location = some l) (hq : d.sourceLine = some q) :
    ∃ before reported after line,
      source.toList = before ++ (reported ++ after) ∧ l = .afterText file before ∧
      line = Text.newlineLine (before.count '\n') source.toList ∧
      ((∃ c hint, d.cause = .invalidCharacter c hint ∧ reported = [c] ∧ q.toList = line ∧
          reported <+: line.drop l.column.toNat ∧ l.column ≤ q.length) ∨
        (∃ ts, Source.tokens file source = .ok ts ∧
            ∃ t ∈ ts, t.location = l ∧ t.lexeme.toList = reported) ∧
          (Text.lines source.toList)[before.count '\n']? = some q.toList ∧
          ((∀ k ≤ before.count '\n',
              Text.isUnbroken (Text.newlineLine k source.toList) = true) →
            q.toList = Text.withoutReturn line ∧ reported <+: q.toList.drop l.column.toNat ∧
              (l.column ≤ q.length ∨ reported = [] ∧ '\r' ∈ line))) := by
  rcases exists_origin hd with htokens | ⟨ts, cause, location, htokens, rfl, hplaces⟩
  · obtain ⟨before, c, after, hsplit, rfl, hc⟩ := Source.exists_split_of_error htokens
    cases hl
    cases hq
    have hline : lineAround before (c :: after) =
        sinceNewline before ++ c :: after.takeWhile (· != '\n') :=
      congrArg (sinceNewline before ++ ·) (List.takeWhile_cons_of_pos (bne_iff_ne.mpr hc))
    refine ⟨before, [c], after, lineAround before (c :: after), hsplit, rfl, ?_,
      .inl ⟨c, _, rfl, rfl, String.toList_ofList, ?_, ?_⟩⟩
    · rw [hsplit, newlineLine_count]
    · rw [hline, Location.afterText, Int.toNat_natCast, List.drop_left]
      exact List.prefix_append [c] _
    · refine Int.ofNat_le.mpr ?_
      rw [String.length_ofList, hline, List.length_append]
      exact Nat.le_add_right _ _
  · obtain rfl : location = some l := hl
    obtain ⟨t, ht, hplace⟩ := hplaces l rfl
    obtain ⟨ht, hunbroken, before, after, hsplit, hafter⟩ :=
      Source.exists_split_of_tokens htokens ht
    obtain rfl : l = .afterText file before := hplace.symm.trans hafter
    have hquote := Source.getElem?_of_sourceLine hq
    refine ⟨before, t.lexeme.toList, after, lineAround before (t.lexeme.toList ++ after), hsplit,
      rfl, ?_, .inr ⟨⟨ts, htokens, t, ht, hafter, rfl⟩, hquote, fun h => ?_⟩⟩
    · rw [hsplit, newlineLine_count]
    · have hwithout := Text.eq_withoutReturn_of_lines h hquote
      rw [hsplit, newlineLine_count] at hwithout
      obtain ⟨hcaret, hcolumn⟩ := caret_lineAround after hunbroken
      rw [← hwithout] at hcaret hcolumn
      exact ⟨hwithout, hcaret, hcolumn.imp_left Int.ofNat_le.mpr⟩

/-- With a carriage return before each newline, a line is quoted without it. -/
theorem quotes_reported_line_undeclared :
    ∃ before reported after line,
      "fn main() -> int \x7b\r\n return b\r\n\x7d".toList = before ++ (reported ++ after) ∧
      (⟨"f", 2, 8⟩ : Location) = .afterText "f" before ∧
      line = Text.newlineLine 1 "fn main() -> int \x7b\r\n return b\r\n\x7d".toList ∧
      " return b".toList = Text.withoutReturn line ∧ reported <+: " return b".toList.drop 8 := by
  have hd : (⟨.undeclaredIdentifier "b" [], some ⟨"f", 2, 8⟩, some " return b"⟩ : Diagnostic) ∈
      (ofSource {} "f" "fn main() -> int \x7b\r\n return b\r\n\x7d").diagnostics := by
    decide +kernel
  obtain ⟨before, reported, after, line, hsplit, hplace, hline, hquote⟩ :=
    quotes_reported_line hd rfl rfl
  have hcount : before.count '\n' = 1 := by
    have hnumber : (2 : Int) = 1 + before.count '\n' := congrArg Location.line hplace
    omega
  rw [hcount] at hline hquote
  rcases hquote with ⟨c, hint, hcause, -⟩ | ⟨-, -, hquote⟩
  · cases hcause
  · obtain ⟨hwithout, hcaret, -⟩ := hquote (by decide)
    exact ⟨before, reported, after, line, hsplit, hplace, hline, hwithout, hcaret⟩

/-- A form feed in a comment is a line break in quotes but not in places: another line than that of
the token is quoted. -/
theorem quotes_other_line_after_formFeed :
    ∃ d ∈ (ofSource {} "f" "//\x0cb\n  )").diagnostics,
      d.location = some ⟨"f", 2, 2⟩ ∧ d.sourceLine = some "b" ∧
        Text.newlineLine 1 "//\x0cb\n  )".toList = "  )".toList := by
  decide +kernel

end Compilation

end StackLang
