import StackLang.Proofs.Quotes

/-!
# Nodes stand in the order of the text

The places of the tokens of a source text ascend, since each is counted along the text. The nodes of
its tree are read off these tokens from left to right, so their places never descend along the tree,
each node before its children. A leaf stands where its text stands in the source text.
-/

namespace StackLang

/-! ## Places ascend along a text -/

theorem sinceNewline_append {more : List Char} (h : '\n' ∉ more) (before : List Char) :
    sinceNewline (before ++ more) = sinceNewline before ++ more := by
  have hall : ∀ c ∈ more.reverse, (c != '\n') = true := fun c hc =>
    bne_iff_ne.mpr (ne_of_mem_of_not_mem (List.mem_reverse.mp hc) h)
  rw [sinceNewline, List.reverse_append, List.takeWhile_append_of_pos hall, List.reverse_append,
    List.reverse_reverse, sinceNewline]

namespace Location

/-- An earlier line, or the same line and no later column. -/
def AtOrBefore (l m : Location) : Prop :=
  l.line < m.line ∨ l.line = m.line ∧ l.column ≤ m.column

theorem AtOrBefore.refl (l : Location) : l.AtOrBefore l := .inr ⟨rfl, le_rfl⟩

/-- More text leads to the same place or to a later one. -/
theorem afterText_atOrBefore (file : String) (before more : List Char) :
    (afterText file before).AtOrBefore (afterText file (before ++ more)) := by
  by_cases hnewline : '\n' ∈ more
  · have hcount : 0 < more.count '\n' := List.count_pos_iff.mpr hnewline
    refine .inl ?_
    simp only [afterText, List.count_append]
    omega
  · refine .inr ⟨?_, ?_⟩
    · simp only [afterText, List.count_append, List.count_eq_zero.mpr hnewline, Nat.add_zero]
    · simp only [afterText, sinceNewline_append hnewline, List.length_append]
      omega

end Location

namespace Token

/-- The tokens stand at ascending places. -/
def Ascending (ts : List Token) : Prop :=
  ts.Pairwise fun t u => t.location.AtOrBefore u.location

variable {file : String} {rest before text : List Char} {ts : List Token}

/-- A token stands after a part of the text that is still to be cut. -/
theorem Cut.exists_start (h : Cut file rest before text ts) {t : Token} (ht : t ∈ ts) :
    ∃ start after, text = start ++ after ∧ t.location = .afterText file (before ++ start) := by
  induction h with
  | last before gap hgap hbare => cases ht
  | token before gap text k lexeme ts hgap hbare hlexeme hcut ih =>
    rcases List.mem_cons.mp ht with rfl | ht
    · exact ⟨gap, lexeme ++ text, rfl, rfl⟩
    · obtain ⟨start, after, rfl, hplace⟩ := ih ht
      refine ⟨gap ++ (lexeme ++ start), after, ?_, ?_⟩
      · simp only [List.append_assoc]
      · simpa only [List.append_assoc] using hplace

theorem Cut.ascending (h : Cut file rest before text ts) : Ascending ts := by
  induction h with
  | last before gap hgap hbare => exact .nil
  | token before gap text k lexeme ts hgap hbare hlexeme hcut ih =>
    refine List.pairwise_cons.mpr ⟨fun t ht => ?_, ih⟩
    obtain ⟨start, after, -, hplace⟩ := hcut.exists_start ht
    rw [hplace, List.append_assoc (before ++ gap)]
    exact Location.afterText_atOrBefore file (before ++ gap) (lexeme ++ start)

/-- The end of the text is the last place. -/
theorem Cut.ascending_concat (h : Cut file rest before text ts) :
    Ascending (ts ++ [ending (.afterText file (before ++ text))]) := by
  refine List.pairwise_append.mpr ⟨h.ascending, List.pairwise_singleton .., fun t ht u hu => ?_⟩
  obtain ⟨start, after, rfl, hplace⟩ := h.exists_start ht
  rw [List.mem_singleton.mp hu, hplace, ← List.append_assoc]
  exact Location.afterText_atOrBefore file (before ++ start) after

end Token

/-! ## Nodes are read off in this order -/

namespace Grammar.Traced

variable {w : List Token} {ns : List Tree}

/-- Nodes that are read off tokens at ascending places stand at ascending places of tokens. -/
theorem exists_places (h : Traced w ns) (hw : Token.Ascending w) :
    ∃ places : List Location, ns.map Tree.location = places.map some ∧
      places.Pairwise Location.AtOrBefore ∧ ∀ l ∈ places, ∃ t ∈ w, t.location = l := by
  induction h with
  | nil w => exact ⟨[], rfl, .nil, List.forall_mem_nil _⟩
  | skip t h ih =>
    obtain ⟨places, hplaces, hascend, htokens⟩ := ih (List.Pairwise.of_cons hw)
    refine ⟨places, hplaces, hascend, fun l hl => ?_⟩
    obtain ⟨u, hu, hplace⟩ := htokens l hl
    exact ⟨u, List.mem_cons_of_mem t hu, hplace⟩
  | @node t w n ns hread h ih =>
    obtain ⟨places, hplaces, hascend, htokens⟩ := ih hw
    refine ⟨t.location :: places, ?_, List.pairwise_cons.mpr ⟨fun l hl => ?_, hascend⟩,
      List.forall_mem_cons.mpr ⟨⟨t, List.mem_cons_self, rfl⟩, htokens⟩⟩
    · rw [List.map_cons, List.map_cons, hread.location, hplaces]
    · -- the later node stands at this token or at a later one
      obtain ⟨u, hu, rfl⟩ := htokens l hl
      rcases List.mem_cons.mp hu with rfl | hu
      · exact .refl _
      · exact List.rel_of_pairwise_cons hw hu

end Grammar.Traced

namespace Source

/-- The tree of a source text is the tree of its tokens. -/
theorem exists_program_of_tree {file source : String} {t : Tree} (h : tree file source = .ok t) :
    ∃ ts, tokens file source = .ok ts ∧ Parser.program file ts = .ok t := by
  unfold tree at h
  cases htokens : tokens file source with
  | error d => simp [htokens, bind, Except.bind] at h
  | ok ts =>
    simp only [htokens, bind, Except.bind, treeOfTokens] at h
    split at h
    · rename_i hprogram
      exact ⟨ts, rfl, Except.ok.inj h ▸ hprogram⟩
    · cases h

/-- The nodes of the tree of a source text are read off its tokens. -/
theorem traced_walk {file source : String} {ts : List Token} {t : Tree}
    (htokens : tokens file source = .ok ts) (h : Parser.program file ts = .ok t) :
    Grammar.Traced ts t.walk := by
  obtain ⟨us, -, -, hread⟩ := exists_cut_of_tokens htokens
  have htraced := Parser.traced_program h
  rwa [hread] at htraced

theorem ascending_tokens {file source : String} {ts : List Token}
    (h : tokens file source = .ok ts) : Token.Ascending ts := by
  obtain ⟨us, hcut, rfl, -⟩ := exists_cut_of_tokens h
  exact hcut.ascending_concat

/-- What stands at the place of a token, up to the end of the line, starts with its text. -/
theorem lexeme_prefix_drop {file source : String} {ts : List Token}
    (h : tokens file source = .ok ts) {t : Token} (ht : t ∈ ts) :
    t.lexeme.toList <+: (Text.newlineLine (t.location.line - 1).toNat source.toList).drop
      t.location.column.toNat := by
  obtain ⟨us, -, -, hread⟩ := exists_cut_of_tokens h
  obtain ⟨-, hunbroken, before, after, hsplit, hplace⟩ :=
    exists_split_of_tokens h (hread.symm ▸ ht)
  have hline : (t.location.line - 1).toNat = before.count '\n' := by
    rw [hplace, Location.afterText]
    dsimp only
    omega
  have hcolumn : t.location.column.toNat = (sinceNewline before).length := by
    rw [hplace, Location.afterText, Int.toNat_natCast]
  have hlexeme : ∀ c ∈ t.lexeme.toList, (c != '\n') = true := fun c hc => by
    refine bne_iff_ne.mpr ?_
    rintro rfl
    cases hunbroken '\n' hc
  rw [hline, hcolumn, hsplit, newlineLine_count, lineAround, List.drop_left,
    List.takeWhile_append_of_pos hlexeme]
  exact List.prefix_append _ _

/-- Along the tree of a source text, each node before its children, the nodes stand at places of
tokens that never descend, and where a leaf stands, the source text goes on with its text. -/
theorem places_ascend {file source : String} {t : Tree} (h : tree file source = .ok t) :
    ∃ ts, tokens file source = .ok ts ∧
      (∃ places : List Location, t.walk.map Tree.location = places.map some ∧
        places.Pairwise Location.AtOrBefore ∧ ∀ l ∈ places, ∃ u ∈ ts, u.location = l) ∧
      ∀ n ∈ t.walk, n.kind = .number ∨ n.kind = .identifier →
        ∃ text l, n.value = some text ∧ n.location = some l ∧
          text.toList <+:
            (Text.newlineLine (l.line - 1).toNat source.toList).drop l.column.toNat := by
  obtain ⟨ts, htokens, hprogram⟩ := exists_program_of_tree h
  have htraced := traced_walk htokens hprogram
  refine ⟨ts, htokens, htraced.exists_places (ascending_tokens htokens), fun n hn hkind => ?_⟩
  obtain ⟨u, v, hsub, hread⟩ := htraced.exists_readAt hn
  have hterminal : n.kind.isTerminal = true := by
    rcases hkind with hkind | hkind <;> rw [hkind] <;> rfl
  exact ⟨u.lexeme, u.location, hread.leaf hterminal, hread.location,
    lexeme_prefix_drop htokens (hsub List.mem_cons_self)⟩

/-- A product in parentheses over two lines, with a sign before it and one inside. -/
def crossing : String := "a=-(b\n*-7)"

/-- A product stands where its left factor does, a negation at its sign, and no node at a
parenthesis. -/
theorem places_ascend_crossing :
    ∃ t, tree "f" crossing = .ok t ∧
      t.walk.map Tree.location = ([⟨"f", 1, 0⟩, ⟨"f", 1, 0⟩, ⟨"f", 1, 2⟩, ⟨"f", 1, 4⟩, ⟨"f", 1, 4⟩,
        ⟨"f", 2, 1⟩, ⟨"f", 2, 2⟩] : List Location).map some ∧
      (∃ places : List Location, t.walk.map Tree.location = places.map some ∧
        places.Pairwise Location.AtOrBefore) ∧
      ∃ n ∈ t.walk, ∃ text, n.value = some text ∧ text.toList <+: "7)".toList := by
  have hcheck : ((tree "f" crossing).toOption.map fun t =>
      t.walk.map fun n => (n.kind, n.location)) =
      some [(.program, some ⟨"f", 1, 0⟩), (.assignment, some ⟨"f", 1, 0⟩),
        (.negate, some ⟨"f", 1, 2⟩), (.term, some ⟨"f", 1, 4⟩), (.identifier, some ⟨"f", 1, 4⟩),
        (.negate, some ⟨"f", 2, 1⟩), (.number, some ⟨"f", 2, 2⟩)] := by
    decide +kernel
  obtain ⟨t, ht, hwalk⟩ := Option.map_eq_some_iff.mp hcheck
  obtain ⟨ts, htokens, ⟨places, hplaces, hascend, -⟩, hleaves⟩ :=
    places_ascend (eq_ok_of_toOption ht)
  have hlocations := congrArg (List.map Prod.snd) hwalk
  rw [List.map_map] at hlocations
  obtain ⟨n, hn, hnode⟩ := List.mem_map.mp
    (hwalk ▸ (by simp) : (.number, some ⟨"f", 2, 2⟩) ∈ t.walk.map fun n => (n.kind, n.location))
  obtain ⟨hkind, hplace⟩ := Prod.mk.inj hnode
  obtain ⟨text, l, hvalue, hl, hbegins⟩ := hleaves n hn (.inl hkind)
  obtain rfl : _ = l := Option.some.inj (hplace.symm.trans hl)
  exact ⟨t, eq_ok_of_toOption ht, hlocations, ⟨places, hplaces, hascend⟩, n, hn, text, hvalue,
    hbegins⟩

end Source

end StackLang
