import StackLang.Proofs.Lexemes

/-!
# Lexemes with space between them

A text in which lexemes stand one after the other, with space behind each, is cut into exactly these
lexemes: no lexeme goes on over a space, and no gap starts in a lexeme that a space follows.
-/

namespace StackLang.Token

/-- What a token is, without its place. -/
def bare (t : Token) : Kind × String := (t.kind, t.lexeme)

/-- The tokens before the end of the input, without their places. -/
theorem map_bare_takeWhile (ts : List Token) :
    (ts.takeWhile (·.kind ≠ .endOfInput)).map bare =
      (ts.map bare).takeWhile (·.1 ≠ .endOfInput) := by
  rw [List.takeWhile_map]
  rfl

/-! ## Texts with space between lexemes -/

/-- Spaces and comments, each of which a newline ends. -/
inductive Filler : List Char → Prop
  | nil : Filler []
  | space (c : Char) (filler : List Char) (hc : c ∈ [' ', '\t', '\n', '\r']) (h : Filler filler) :
      Filler (c :: filler)
  | comment (body filler : List Char) (hbody : '\n' ∉ body) (h : Filler filler) :
      Filler ('/' :: '/' :: body ++ '\n' :: filler)

/-- A comment that goes on to the end of the text, or none. -/
def IsRemark (text : List Char) : Prop :=
  text = [] ∨ ∃ body, '\n' ∉ body ∧ text = '/' :: '/' :: body

/-- Lexemes, each behind a filler that starts with a space. Behind the last one there is nothing, or
another such filler and a comment that may go on to the end. -/
inductive Spaced : List (List Char) → List Char → Prop
  | last : Spaced [] []
  | remark (c : Char) (filler remark : List Char) (hc : c ∈ [' ', '\t', '\n', '\r'])
      (hfiller : Filler filler) (hremark : IsRemark remark) : Spaced [] (c :: filler ++ remark)
  | next (c : Char) (filler lexeme text : List Char) (lexemes : List (List Char))
      (hc : c ∈ [' ', '\t', '\n', '\r']) (hfiller : Filler filler) (h : Spaced lexemes text) :
      Spaced (lexeme :: lexemes) (c :: filler ++ (lexeme ++ text))

/-- A text of these lexemes, with any filler before the first one. -/
inductive Layout : List (List Char) → List Char → Prop
  | empty (filler remark : List Char) (hfiller : Filler filler) (hremark : IsRemark remark) :
      Layout [] (filler ++ remark)
  | first (filler lexeme text : List Char) (lexemes : List (List Char)) (hfiller : Filler filler)
      (h : Spaced lexemes text) : Layout (lexeme :: lexemes) (filler ++ (lexeme ++ text))

theorem spaced_flatMap (lexemes : List (List Char)) :
    Spaced lexemes (lexemes.flatMap (' ' :: ·)) := by
  induction lexemes with
  | nil => exact .last
  | cons lexeme lexemes ih => exact .next ' ' [] lexeme _ lexemes (by decide) .nil ih

/-- Lexemes with a space before each have a layout. -/
theorem layout_flatMap (lexemes : List (List Char)) :
    Layout lexemes (lexemes.flatMap (' ' :: ·)) := by
  cases lexemes with
  | nil => exact .empty [] [] .nil (.inl rfl)
  | cons lexeme lexemes =>
    exact .first [' '] lexeme _ lexemes (.space ' ' [] (by decide) .nil) (spaced_flatMap lexemes)

/-- A text is at its end or goes on with a space. -/
def Parts (text : List Char) : Prop := ∀ c ∈ text.head?, c ∈ [' ', '\t', '\n', '\r']

variable {k : Kind} {lexeme text filler : List Char} {lexemes : List (List Char)} {c : Char}
  {p : Position}

theorem Spaced.parts (h : Spaced lexemes text) : Parts text := by
  cases h with
  | last => rintro c ⟨⟩
  | remark c filler remark hc => rintro d ⟨⟩; exact hc
  | next c filler lexeme text lexemes hc => rintro d ⟨⟩; exact hc

/-! ## Reading a lexeme before a space -/

/-- Spaces are in no lexeme. -/
theorem not_lexeme_space (hc : c ∈ [' ', '\t', '\n', '\r']) :
    isWordChar c = false ∧ Text.isAsciiDigit c = false := by
  simp only [List.mem_cons, List.not_mem_nil, or_false] at hc
  rcases hc with rfl | rfl | rfl | rfl <;> decide

/-- What is all in a class without spaces is read up to the space behind it. -/
theorem takeWhile_parts {q : Char → Bool} (hall : ∀ c ∈ lexeme, q c = true)
    (hspace : ∀ c ∈ [' ', '\t', '\n', '\r'], q c = false) (htext : Parts text) :
    (lexeme ++ text).takeWhile q = lexeme ∧ (lexeme ++ text).dropWhile q = text := by
  rw [List.takeWhile_append_of_pos hall, List.dropWhile_append_of_pos hall]
  cases text with
  | nil => simp
  | cons c text =>
    have hc : ¬q c = true := by
      rw [hspace c (htext c rfl)]
      exact Bool.false_ne_true
    rw [List.takeWhile_cons_of_neg hc, List.dropWhile_cons_of_neg hc, List.append_nil]
    exact ⟨rfl, rfl⟩

theorem ofWord_keyword (h : k ∈ Kind.keywords) : Kind.ofWord k.spelling = k := by
  have hall : ∀ k ∈ Kind.keywords, Kind.ofWord k.spelling = k := by decide
  exact hall k h

theorem ofWord_identifier (hother : ∀ k ∈ Kind.keywords, k.spelling.toList ≠ lexeme) :
    Kind.ofWord (String.ofList lexeme) = .identifier := by
  have hnone : Kind.keywords.find? (·.spelling = String.ofList lexeme) = none := by
    refine List.find?_eq_none.mpr fun k hk heq => hother k hk ?_
    rw [of_decide_eq_true heq, String.toList_ofList]
  rw [Kind.ofWord, hnone, Option.getD_none]

theorem munch_word (hword : IsWord lexeme) (htext : Parts text) :
    munch (lexeme ++ text) = some (Kind.ofWord (String.ofList lexeme), lexeme, text) := by
  obtain ⟨c, hc, hstart⟩ := hword.start
  obtain ⟨lexeme, rfl⟩ := List.head?_eq_some_iff.mp hc
  obtain ⟨htake, hdrop⟩ :=
    takeWhile_parts hword.chars (fun c hc => (not_lexeme_space hc).1) htext
  simp only [munch, List.cons_append, hstart, if_true]
  rw [← List.cons_append, htake, hdrop]

theorem munch_number (hne : lexeme ≠ []) (hdigits : ∀ c ∈ lexeme, Text.isAsciiDigit c = true)
    (htext : Parts text) : munch (lexeme ++ text) = some (.number, lexeme, text) := by
  obtain ⟨c, lexeme, rfl⟩ := List.exists_cons_of_ne_nil hne
  have hdigit := hdigits c List.mem_cons_self
  have hstart : isWordStart c = false := by
    cases hstart : isWordStart c with
    | false => rfl
    | true => rw [isAsciiDigit_of_isWordStart hstart] at hdigit; cases hdigit
  obtain ⟨htake, hdrop⟩ := takeWhile_parts hdigits (fun c hc => (not_lexeme_space hc).2) htext
  simp only [munch, List.cons_append, hstart, hdigit, if_true, Bool.false_eq_true, if_false]
  rw [← List.cons_append, htake, hdrop]

theorem munch_operator (h : k ∈ Kind.operators) (htext : Parts text) :
    munch (k.spelling.toList ++ text) = some (k, k.spelling.toList, text) := by
  have hother : munch (k.spelling.toList ++ text) = operator? (k.spelling.toList ++ text) := by
    obtain ⟨c, hc, hstart, hdigit⟩ := first_operator h
    obtain ⟨rest, hrest⟩ := List.head?_eq_some_iff.mp hc
    simp only [munch, hrest, List.cons_append, hstart, hdigit, Bool.false_eq_true, if_false]
  rw [hother]
  -- The character behind decides only between operators of one and of two characters.
  cases text with
  | nil =>
    rw [List.append_nil]
    have hall : ∀ k ∈ Kind.operators,
        operator? k.spelling.toList = some (k, k.spelling.toList, []) := by decide
    exact hall k h
  | cons c text =>
    have hc := htext c rfl
    simp only [Kind.operators, List.mem_cons, List.not_mem_nil, or_false] at h hc
    rcases hc with rfl | rfl | rfl | rfl <;>
      rcases h with rfl | rfl | rfl | rfl | rfl | rfl | rfl | rfl | rfl | rfl | rfl | rfl | rfl |
        rfl | rfl | rfl | rfl | rfl <;> rfl

/-- A lexeme before a space is read whole. -/
theorem munch_lexeme (h : Lexeme k lexeme) (htext : Parts text) :
    munch (lexeme ++ text) = some (k, lexeme, text) := by
  cases h with
  | keyword k h =>
    rw [munch_word (isWord_keyword h) htext, String.ofList_toList, ofWord_keyword h]
  | identifier lexeme hword hother => rw [munch_word hword htext, ofWord_identifier hother]
  | number lexeme hne hdigits => exact munch_number hne hdigits htext
  | operator k h => exact munch_operator h htext

/-! ## Skipping the filler before a lexeme -/

theorem skipGap_space (hc : c ∈ [' ', '\t', '\n', '\r']) (p : Position) (text : List Char) :
    skipGap p (c :: text) = skipGap (p.next c) text := by
  rw [skipGap, if_pos (isSpace_iff.mpr hc)]

theorem skipGap_comment {body : List Char} (hbody : '\n' ∉ body) (p : Position)
    (text : List Char) (htext : text = [] ∨ text.head? = some '\n') :
    skipGap p ('/' :: '/' :: body ++ text) = skipGap (p.after ('/' :: '/' :: body)) text := by
  have hall : ∀ c ∈ '/' :: body, (c != '\n') = true := by
    refine List.forall_mem_cons.mpr ⟨by decide, fun c hc => ?_⟩
    exact bne_iff_ne.mpr fun heq => hbody (heq ▸ hc)
  have hcut : ('/' :: body ++ text).takeWhile (· != '\n') = '/' :: body ∧
      ('/' :: body ++ text).dropWhile (· != '\n') = text := by
    rw [List.takeWhile_append_of_pos hall, List.dropWhile_append_of_pos hall]
    rcases htext with rfl | htext
    · simp
    · obtain ⟨rest, rfl⟩ := List.head?_eq_some_iff.mp htext
      simp
  rw [List.cons_append, skipGap, if_neg (by decide), if_pos ⟨rfl, rfl⟩, hcut.1, hcut.2]

theorem skipGap_filler (h : Filler filler) (p : Position) (text : List Char) :
    skipGap p (filler ++ text) = skipGap (p.after filler) text := by
  induction h generalizing p with
  | nil => rfl
  | space c filler hc h ih => rw [List.cons_append, skipGap_space hc, ih, Position.after_cons]
  | comment body filler hbody h ih =>
    have hnewline : '\n' ∈ [' ', '\t', '\n', '\r'] := by decide
    rw [List.append_assoc, skipGap_comment hbody _ _ (.inr rfl), List.cons_append,
      skipGap_space hnewline, ih, Position.after_append _ ('/' :: '/' :: body)]
    rfl

theorem skipGap_remark {remark : List Char} (h : IsRemark remark) (p : Position) :
    skipGap p remark = (p.after remark, []) := by
  rcases h with rfl | ⟨body, hbody, rfl⟩
  · rw [skipGap, Position.after_nil]
  · have hskip := skipGap_comment hbody p [] (.inl rfl)
    rwa [List.append_nil, skipGap] at hskip

/-- No operator starts with a space, and one with a slash is just that. -/
theorem start_operator (h : k ∈ Kind.operators) (hc : k.spelling.toList.head? = some c) :
    isSpace c = false ∧ (c = '/' → k.spelling.toList = ['/']) := by
  have hall : ∀ k ∈ Kind.operators, k.spelling.toList.head?.all (fun c =>
      !isSpace c && (c != '/' || k.spelling.toList == ['/'])) = true := by decide
  have hk := hall k h
  rw [hc, Option.all_some, Bool.and_eq_true, Bool.or_eq_true, bne_iff_ne, beq_iff_eq] at hk
  exact ⟨by simpa using hk.1, fun hslash => hk.2.resolve_left fun hne => hne hslash⟩

/-- A lexeme before a space starts no gap. -/
theorem skipGap_lexeme (h : Lexeme k lexeme) (htext : Parts text) (p : Position) :
    skipGap p (lexeme ++ text) = (p, lexeme ++ text) := by
  obtain ⟨c, hc, hclass⟩ := h.exists_first
  obtain ⟨rest, rfl⟩ := List.head?_eq_some_iff.mp hc
  have hstart : ¬isSpace c = true ∧ (c = '/' → rest = []) := by
    rcases hclass with ⟨hword, -⟩ | ⟨hdigit, -⟩ | ⟨-, -, hoperator, hspelling⟩
    · refine ⟨fun hspace => ?_, fun hslash => ?_⟩
      · have hchar := (not_lexeme_space (isSpace_iff.mp hspace)).1
        rw [isWordChar, hword] at hchar
        cases hchar
      · rw [hslash] at hword
        exact absurd hword (by decide)
    · refine ⟨fun hspace => ?_, fun hslash => ?_⟩
      · rw [(not_lexeme_space (isSpace_iff.mp hspace)).2] at hdigit
        cases hdigit
      · rw [hslash] at hdigit
        exact absurd hdigit (by decide)
    · obtain ⟨hspace, hslash⟩ := start_operator hoperator (hspelling ▸ hc)
      rw [← hspelling] at hslash
      exact ⟨by rw [hspace]; exact Bool.false_ne_true, fun heq => (List.cons.inj (hslash heq)).2⟩
  have hslashes : ¬(c = '/' ∧ (rest ++ text).head? = some '/') := by
    rintro ⟨hslash, hnext⟩
    rw [hstart.2 hslash, List.nil_append] at hnext
    exact absurd (htext _ hnext) (by decide)
  rw [List.cons_append, skipGap, if_neg hstart.1, if_neg hslashes]

/-! ## Reading spaced lexemes -/

/-- A lexeme behind a filler and before a space is the next token. -/
theorem scan_lexeme (file : String) (hfiller : Filler filler) (h : Lexeme k lexeme)
    (htext : Parts text) (p : Position) {ts : List Token}
    (hrest : scan file ((p.after filler).after lexeme) text = .ok ts) :
    scan file p (filler ++ (lexeme ++ text)) =
      .ok (⟨k, String.ofList lexeme, .ofPosition file (p.after filler)⟩ :: ts) := by
  have hskip := (skipGap_filler hfiller p _).trans (skipGap_lexeme h htext (p.after filler))
  have hmunch := munch_lexeme h htext
  obtain ⟨c, hc, -⟩ := h.exists_first
  obtain ⟨rest, rfl⟩ := List.head?_eq_some_iff.mp hc
  rw [scan_token file hskip hmunch, hrest]

theorem scan_remark (file : String) (hfiller : Filler filler) {remark : List Char}
    (h : IsRemark remark) (p : Position) :
    scan file p (filler ++ remark) =
      .ok [ending (.ofPosition file ((p.after filler).after remark))] :=
  scan_last file ((skipGap_filler hfiller p _).trans (skipGap_remark h _))

/-- Spaced lexemes are the tokens of their text. -/
theorem exists_scan_spaced (file : String) {words : List (Kind × String)}
    (hwords : ∀ w ∈ words, Lexeme w.1 w.2.toList)
    (h : Spaced (words.map fun w => w.2.toList) text) (p : Position) :
    ∃ ts, scan file p text = .ok ts ∧ ts.map bare = words ++ [(.endOfInput, "")] := by
  induction words generalizing text p with
  | nil =>
    cases h with
    | last => exact ⟨_, scan_last file (skipGap_remark (.inl rfl) p), rfl⟩
    | remark c filler remark hc hfiller hremark =>
      exact ⟨_, scan_remark file (.space c filler hc hfiller) hremark p, rfl⟩
  | cons w words ih =>
    obtain ⟨hw, hwords⟩ := List.forall_mem_cons.mp hwords
    cases h with
    | next c filler lexeme text lexemes hc hfiller h =>
      have hfiller' := Filler.space c filler hc hfiller
      obtain ⟨ts, hts, hbare⟩ :=
        ih hwords h ((p.after (c :: filler)).after w.2.toList)
      refine ⟨_, scan_lexeme file hfiller' hw h.parts p hts, ?_⟩
      rw [List.map_cons, hbare, bare, String.ofList_toList, List.cons_append]

/-- The lexemes of a layout are the tokens of its text. -/
theorem exists_scan_layout (file : String) {words : List (Kind × String)}
    (hwords : ∀ w ∈ words, Lexeme w.1 w.2.toList)
    (h : Layout (words.map fun w => w.2.toList) text) (p : Position) :
    ∃ ts, scan file p text = .ok ts ∧ ts.map bare = words ++ [(.endOfInput, "")] := by
  cases words with
  | nil =>
    cases h with
    | empty filler remark hfiller hremark => exact ⟨_, scan_remark file hfiller hremark p, rfl⟩
  | cons w words =>
    obtain ⟨hw, hwords⟩ := List.forall_mem_cons.mp hwords
    cases h with
    | first filler lexeme text lexemes hfiller h =>
      obtain ⟨ts, hts, hbare⟩ :=
        exists_scan_spaced file hwords h ((p.after filler).after w.2.toList)
      refine ⟨_, scan_lexeme file hfiller hw h.parts p hts, ?_⟩
      rw [List.map_cons, hbare, bare, String.ofList_toList, List.cons_append]

/-! ## Words of source texts -/

/-- The tokens before the end of the input, without their places. -/
def words (ts : List Token) : List (Kind × String) :=
  (ts.filter (·.kind ≠ .endOfInput)).map bare

/-- The tokens of a source text are lexemes, and one more that ends the input. -/
theorem words_of_tokens {file source : String} {ts : List Token}
    (h : Source.tokens file source = .ok ts) :
    (∀ w ∈ words ts, Lexeme w.1 w.2.toList) ∧ ts.map bare = words ts ++ [(.endOfInput, "")] := by
  have hexplains := explains_scan file [] source.toList
  unfold Source.tokens at h
  rw [Position.after_nil] at hexplains
  cases hscan : scan file .start source.toList with
  | error e => rw [hscan] at h; cases h
  | ok us =>
    rw [hscan] at h hexplains
    obtain rfl := Except.ok.inj h
    obtain ⟨us, hcut, rfl⟩ := hexplains
    have hall : us.filter (·.kind ≠ .endOfInput) = us :=
      List.filter_eq_self.mpr fun t ht => decide_eq_true (hcut.kind_ne_end t ht)
    have hwords (l : Location) : words (us ++ [ending l]) = us.map bare := by
      rw [words, List.filter_append, hall]
      exact congrArg (List.map bare) (List.append_nil us)
    rw [hwords]
    refine ⟨fun w hw => ?_, ?_⟩
    · obtain ⟨t, ht, rfl⟩ := List.mem_map.mp hw
      exact hcut.isLexeme t ht
    · rw [List.map_append]
      rfl

/-- A text of the lexemes of a source text has the same tokens, apart from their places. -/
theorem exists_tokens_layout {file file' source text : String} {ts : List Token}
    (h : Source.tokens file source = .ok ts)
    (hlayout : Layout ((words ts).map fun w => w.2.toList) text.toList) :
    ∃ us, Source.tokens file' text = .ok us ∧ us.map bare = ts.map bare := by
  obtain ⟨hwords, hbare⟩ := words_of_tokens h
  obtain ⟨us, hus, hbare'⟩ := exists_scan_layout file' hwords hlayout .start
  refine ⟨us, ?_, hbare'.trans hbare.symm⟩
  rw [Source.tokens, hus]

end StackLang.Token
