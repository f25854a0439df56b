import Mathlib.Data.List.Forall2
import StackLang.Proofs.RoundTrip
import StackLang.Proofs.SourceOrder
import StackLang.Proofs.Texts
import StackLang.Tree.Printer

/-!
# Drawings determine trees

A drawing has one line for each node, in the order of a walk, and each line ends with the label of
its node. The nodes of a source text have labels that tell their kind, text and attributes. In front
of the labels, a line goes back to the margin of an earlier line where the nodes below that line
end, so two drawings agree only if the trees do.
-/

namespace StackLang

namespace Tree

/-! ## Lists of trees -/

/-- Induction over lists of trees: first over the children of the first one, then over the rest. -/
@[elab_as_elim]
theorem forest_induction {motive : List Tree → Prop} (nil : motive [])
    (cons : ∀ t ts, motive t.children → motive ts → motive (t :: ts)) (ts : List Tree) :
    motive ts := by
  have hforest (ts : List Tree) (h : ∀ t ∈ ts, motive t.children) : motive ts := by
    induction ts with
    | nil => exact nil
    | cons t ts ih =>
      obtain ⟨ht, hts⟩ := List.forall_mem_cons.mp h
      exact cons t ts ht (ih hts)
  have hchildren (t : Tree) : motive t.children := by
    induction t using walk_induction with
    | h t ih => exact hforest t.children fun c hc => ih c (mem_walkAll_of_mem hc)
  exact hforest ts fun t _ => hchildren t

theorem walkAll_append (ts us : List Tree) : walkAll (ts ++ us) = walkAll ts ++ walkAll us := by
  simp only [walkAll_eq_flatMap, List.flatMap_append]

theorem walkAll_cons (t : Tree) (ts : List Tree) :
    walkAll (t :: ts) = t :: (walkAll t.children ++ walkAll ts) := by
  rw [walkAll, walk_eq_cons, List.cons_append]

/-- The nodes that are visited with a stack of trees: the uppermost node is taken off, and its
children are put onto the stack, the first one uppermost. -/
def visited : List Tree → List Tree
  | [] => []
  | t :: stack => t :: visited (t.children ++ stack)
termination_by stack => (walkAll stack).length
decreasing_by
  rw [walkAll_cons, walkAll_append, List.length_cons]
  omega

/-- A stack visits each node before its children and all of them before the next tree. -/
theorem visited_eq_walkAll (stack : List Tree) : visited stack = walkAll stack := by
  fun_induction visited stack with
  | case1 => rfl
  | case2 t stack ih => rw [ih, walkAll_append, walkAll_cons]

/-! ## Lines of a drawing -/

/-- What connects a node to its parent. -/
def connector (isLast : Bool) : String := if isLast then "└── " else "├── "

/-- What passes by the nodes below a node. -/
def rail (isLast : Bool) : String := if isLast then "    " else "│   "

theorem drawAll_cons (margin : String) (t : Tree) (ts : List Tree) :
    drawAll margin (t :: ts) =
      (margin ++ connector ts.isEmpty ++ t.label) ::
        (drawAll (margin ++ rail ts.isEmpty) t.children ++ drawAll margin ts) := by
  obtain ⟨kind, value, attributes, children, location⟩ := t
  cases ts <;> rfl

theorem connector_inj {b b' : Bool} {cs ds : List Char}
    (h : (connector b).toList ++ cs = (connector b').toList ++ ds) : b = b' ∧ cs = ds := by
  have hlength : ∀ b b', (connector b).toList.length = (connector b').toList.length := by decide
  have hother : ∀ b b', (connector b).toList = (connector b').toList → b = b' := by decide
  obtain ⟨hconnector, hrest⟩ := List.append_inj h (hlength b b')
  exact ⟨hother b b' hconnector, hrest⟩

theorem not_rail_prefix_connector (b b' : Bool) (cs : List Char) :
    ¬(rail b).toList <+: (connector b').toList ++ cs := by
  have hlength : ∀ b b', (rail b).toList.length = (connector b').toList.length := by decide
  have hother : ∀ b b', (rail b).toList ≠ (connector b').toList := by decide
  rintro ⟨rest, h⟩
  exact hother b b' (List.append_inj h (hlength b b')).1

/-- A line ends with the label of a node, after what is on one line. -/
def Draws (line : String) (n : Tree) : Prop :=
  ∃ front, line.toList = front ++ n.label.toList ∧ '\n' ∉ front

theorem draws_drawAll {margin : String} (hmargin : '\n' ∉ margin.toList) (ts : List Tree) :
    List.Forall₂ Draws (drawAll margin ts) (walkAll ts) := by
  have hconnector : ∀ b, '\n' ∉ (connector b).toList := by decide
  have hrail : ∀ b, '\n' ∉ (rail b).toList := by decide
  induction ts using forest_induction generalizing margin with
  | nil => exact .nil
  | cons t ts ihchildren ih =>
    rw [drawAll_cons, walkAll_cons]
    refine .cons ⟨margin.toList ++ (connector ts.isEmpty).toList, ?_, ?_⟩ ?_
    · simp only [String.toList_append]
    · simp [hmargin, hconnector]
    · refine List.rel_append (ihchildren ?_) (ih hmargin)
      simp [hmargin, hrail]

theorem draws_drawing (t : Tree) : List.Forall₂ Draws t.drawing t.walk := by
  obtain ⟨kind, value, attributes, children, location⟩ := t
  rw [walk_eq_cons, drawing, drawChildren]
  exact .cons ⟨[], rfl, by simp⟩ (draws_drawAll (by simp) children)

/-- If no label has a newline in it, the lines of the text of a drawing are the lines drawn. -/
theorem splitOn_pretty {t : Tree} (h : ∀ n ∈ t.walk, '\n' ∉ n.label.toList) :
    t.pretty.toList.splitOn '\n' = t.drawing.map String.toList := by
  have hseparator : "\n".toList = ['\n'] := rfl
  have hlines : ∀ line ∈ t.drawing.map String.toList, '\n' ∉ line := by
    refine List.forall_mem_map.mpr fun line hline => ?_
    obtain ⟨i, hi, rfl⟩ := List.getElem_of_mem hline
    obtain ⟨hlength, hdraws⟩ := List.forall₂_iff_get.mp t.draws_drawing
    obtain ⟨front, hfront, hnewline⟩ := hdraws i hi (hlength ▸ hi)
    rw [List.get_eq_getElem] at hfront
    rw [hfront, List.mem_append, not_or]
    exact ⟨hnewline, h _ (List.get_mem _ _)⟩
  rw [pretty, String.toList_intercalate, hseparator]
  exact List.splitOn_intercalate '\n' hlines (by simp [drawing])

/-! ## Equal drawings -/

/-- The first of the lines does not start with the margin. -/
def Departs (margin : String) (lines : List String) : Prop :=
  ∀ line ∈ lines.head?, ¬margin.toList <+: line.toList

theorem Departs.eq_nil {margin : String} {ts : List Tree} {lines : List String}
    (h : Departs margin (drawAll margin ts ++ lines)) : ts = [] := by
  cases ts with
  | nil => rfl
  | cons t ts =>
    rw [drawAll_cons] at h
    refine absurd ?_ (h _ rfl)
    rw [String.append_assoc, String.toList_append]
    exact List.prefix_append _ _

/-- After the nodes below a node, the next line does not go on with their margin. -/
theorem Departs.below {margin : String} {lines : List String} (h : Departs margin lines)
    (ts : List Tree) (isLast : Bool) :
    Departs (margin ++ rail isLast) (drawAll margin ts ++ lines) := by
  intro line hline hbegins
  rw [String.toList_append] at hbegins
  cases ts with
  | nil => exact h line hline ((List.prefix_append _ _).trans hbegins)
  | cons t ts =>
    rw [drawAll_cons] at hline
    obtain rfl := Option.some.inj hline
    simp only [String.toList_append, List.append_assoc, List.prefix_append_right_inj] at hbegins
    exact not_rail_prefix_connector _ _ _ hbegins

/-- Two lines agree if their connectors and their labels do. -/
theorem line_inj {margin label label' : String} {b b' : Bool}
    (h : margin ++ connector b ++ label = margin ++ connector b' ++ label') :
    b = b' ∧ label = label' := by
  have hlists := congrArg String.toList h
  simp only [String.toList_append, List.append_assoc, List.append_cancel_left_eq] at hlists
  obtain ⟨hb, hlabel⟩ := connector_inj hlists
  exact ⟨hb, String.toList_injective hlabel⟩

section Sameness

variable {P : Tree → Prop}
  (hlabel : ∀ n m, P n → P m → n.label = m.label →
    n.kind = m.kind ∧ n.value = m.value ∧ n.attributes.same m.attributes = true)

include hlabel

/-- Lists of trees are the same if their drawings agree, whatever is drawn after them. -/
theorem sameAll_of_drawAll {ts us : List Tree} {margin : String} {lines lines' : List String}
    (hts : ∀ n ∈ walkAll ts, P n) (hus : ∀ n ∈ walkAll us, P n) (hlines : Departs margin lines)
    (hlines' : Departs margin lines')
    (h : drawAll margin ts ++ lines = drawAll margin us ++ lines') :
    sameAll ts us = true ∧ lines = lines' := by
  induction ts using forest_induction generalizing us margin lines lines' with
  | nil =>
    obtain rfl : lines = _ := h
    cases hlines.eq_nil
    exact ⟨rfl, rfl⟩
  | cons t ts ihchildren ih =>
    cases us with
    | nil =>
      obtain rfl : _ = lines' := h
      cases hlines'.eq_nil
    | cons u us =>
      rw [drawAll_cons, drawAll_cons, List.cons_append, List.cons_append, List.cons.injEq,
        List.append_assoc, List.append_assoc] at h
      obtain ⟨hline, hbelow⟩ := h
      obtain ⟨hlast, hlabels⟩ := line_inj hline
      rw [hlast] at hbelow
      rw [walkAll_cons, List.forall_mem_cons, List.forall_mem_append] at hts hus
      obtain ⟨ht, htchildren, hts⟩ := hts
      obtain ⟨hu, huchildren, hus⟩ := hus
      obtain ⟨hkind, hvalue, hattributes⟩ := hlabel t u ht hu hlabels
      obtain ⟨hchildren, hafter⟩ := ihchildren htchildren huchildren (hlines.below ts us.isEmpty)
        (hlines'.below us us.isEmpty) hbelow
      obtain ⟨hothers, hrest⟩ := ih hts hus hlines hlines' hafter
      exact ⟨sameAll_cons (same_of hkind hvalue hattributes hchildren) hothers, hrest⟩

theorem same_of_drawing {t u : Tree} (ht : ∀ n ∈ t.walk, P n) (hu : ∀ n ∈ u.walk, P n)
    (h : t.drawing = u.drawing) : t.same u = true := by
  have hbelow (t : Tree) : drawChildren "" t = drawAll "" t.children := by cases t; rfl
  rw [walk_eq_cons, List.forall_mem_cons] at ht hu
  rw [drawing, drawing, List.cons.injEq, hbelow, hbelow, ← List.append_nil (drawAll "" t.children),
    ← List.append_nil (drawAll "" u.children)] at h
  obtain ⟨hkind, hvalue, hattributes⟩ := hlabel t u ht.1 hu.1 h.1
  have hend : Departs "" [] := fun line hline => (by cases hline)
  exact same_of hkind hvalue hattributes
    (sameAll_of_drawAll hlabel ht.2 hu.2 hend hend h.2).1

end Sameness

/-! ## Equal labels -/

/-- A node of the form of its kind, with texts that hold neither commas nor newlines. -/
structure IsLegible (n : Tree) : Prop where
  hasForm : n.HasForm
  texts : ∀ text ∈ n.texts, ',' ∉ text.toList ∧ '\n' ∉ text.toList

/-- The part of a label that tells the text of a node. -/
def textLabel (value : Option String) : String :=
  (value.map fun text => "('" ++ text ++ "')").getD ""

/-- The part of a label that tells the attributes of a node. -/
def attributesLabel (as : Attributes) : String :=
  if as.isEmpty then ""
  else " \x7b" ++ ", ".intercalate (as.map fun a => a.1 ++ "=" ++ a.2) ++ "\x7d"

theorem toList_label (t : Tree) : t.label.toList =
    t.kind.name.toList ++ (textLabel t.value ++ attributesLabel t.attributes).toList := by
  have hlabel : t.label = t.kind.name ++ textLabel t.value ++ attributesLabel t.attributes := by
    obtain ⟨kind, value, attributes, children, location⟩ := t
    cases value <;> rfl
  rw [hlabel, String.append_assoc, String.toList_append]

/-- The characters of the names of kinds. -/
def isNameChar (c : Char) : Bool := c.isUpper || c == '_'

theorem Kind.isNameChar_name (k : Kind) : ∀ c ∈ k.name.toList, isNameChar c = true := by
  refine List.all_eq_true.mp ?_
  cases k <;> decide

/-- What follows the name of the kind tells where this name ends. -/
theorem isNameChar_rest (value : Option String) (as : Attributes) :
    ∀ c ∈ (textLabel value ++ attributesLabel as).toList.head?, isNameChar c = false := by
  cases value with
  | none =>
    cases as with
    | nil => simp [textLabel, attributesLabel]
    | cons a as => simp [textLabel, attributesLabel, isNameChar]
  | some text => simp [textLabel, isNameChar]

theorem Kind.name_injective {k k' : Kind} (h : k.name = k'.name) : k = k' := by
  have hnames := congrArg Kind.ofName? h
  rw [Kind.ofName?_name, Kind.ofName?_name] at hnames
  exact Option.some.inj hnames

theorem Kind.attributeNames_of_isTerminal {k : Kind} (h : k.isTerminal = true) :
    k.attributeNames = [] := by
  cases k <;> first | rfl | cases h

theorem Kind.nodup_attributeNames (k : Kind) : k.attributeNames.Nodup := by
  cases k <;> decide

theorem Kind.not_mem_attributeNames (k : Kind) :
    ∀ key ∈ k.attributeNames, ',' ∉ key.toList ∧ '\n' ∉ key.toList := by
  cases k <;> decide

/-- What a label tells of one attribute. -/
def attributeLabel (a : String × String) : List Char := (a.1 ++ "=" ++ a.2).toList

theorem toList_attributesLabel {as : Attributes} (h : as ≠ []) :
    (attributesLabel as).toList =
      ' ' :: '\x7b' :: (List.intercalate [',', ' '] (as.map attributeLabel) ++ ['\x7d']) := by
  have hseparator : ", ".toList = [',', ' '] := rfl
  rw [attributesLabel, if_neg (by simp [h]), String.toList_append, String.toList_append,
    String.toList_intercalate, List.map_map, hseparator]
  rfl

theorem eq_of_attributeLabel {as bs : Attributes} (hkeys : as.map Prod.fst = bs.map Prod.fst)
    (h : as.map attributeLabel = bs.map attributeLabel) : as = bs := by
  induction as generalizing bs with
  | nil => exact (List.map_eq_nil_iff.mp h.symm).symm
  | cons a as ih =>
    cases bs with
    | nil => cases h
    | cons b bs =>
      rw [List.map_cons, List.map_cons, List.cons.injEq] at hkeys h
      have hlabel := h.1
      simp only [attributeLabel, hkeys.1, String.toList_append, List.append_right_inj] at hlabel
      have htext := String.toList_injective hlabel
      rw [Prod.ext hkeys.1 htext, ih hkeys.2 h.2]

/-- Attributes of the same names agree if their labels do. -/
theorem attributesLabel_inj {as bs : Attributes} (hkeys : as.map Prod.fst = bs.map Prod.fst)
    (has : ∀ a ∈ as, ',' ∉ attributeLabel a) (hbs : ∀ b ∈ bs, ',' ∉ attributeLabel b)
    (h : attributesLabel as = attributesLabel bs) : as = bs := by
  have hlength : as.length = bs.length := by simpa using congrArg List.length hkeys
  have hempty : as = [] ↔ bs = [] := by
    rw [← List.length_eq_zero_iff, hlength, List.length_eq_zero_iff]
  by_cases hnil : as = []
  · rw [hnil, hempty.mp hnil]
  · have hlists := congrArg String.toList h
    rw [toList_attributesLabel hnil, toList_attributesLabel (hempty.not.mp hnil), List.cons.injEq,
      List.cons.injEq, List.append_left_inj] at hlists
    have hparts : as.map attributeLabel = bs.map attributeLabel :=
      Text.intercalate_inj (by simpa using hlength) (List.forall_mem_map.mpr has)
        (List.forall_mem_map.mpr hbs) hlists.2.2
    exact eq_of_attributeLabel hkeys hparts

namespace IsLegible

variable {n m : Tree}

theorem not_mem_attributeLabel (h : n.IsLegible) :
    ∀ a ∈ n.attributes, ',' ∉ attributeLabel a ∧ '\n' ∉ attributeLabel a := by
  intro a ha
  have hkey := n.kind.not_mem_attributeNames a.1 (h.hasForm.attributes ▸ List.mem_map_of_mem ha)
  have htext := h.texts a.2 (List.mem_append_right _ (List.mem_map_of_mem ha))
  simp [attributeLabel, hkey, htext]

theorem newline_not_mem_label (h : n.IsLegible) : '\n' ∉ n.label.toList := by
  have hname : '\n' ∉ n.kind.name.toList := fun hmem =>
    absurd (n.kind.isNameChar_name _ hmem) (by decide)
  have htext : '\n' ∉ (textLabel n.value).toList := by
    cases hvalue : n.value with
    | none => decide
    | some text =>
      have htext := (h.texts text (by simp [Tree.texts, hvalue])).2
      simp [textLabel, htext]
  have hattributes : '\n' ∉ (attributesLabel n.attributes).toList := by
    by_cases hnil : n.attributes = []
    · rw [hnil]
      decide
    · have hparts : '\n' ∉ List.intercalate [',', ' '] (n.attributes.map attributeLabel) :=
        Text.not_mem_intercalate (by decide)
          (List.forall_mem_map.mpr fun a ha => (h.not_mem_attributeLabel a ha).2)
      rw [toList_attributesLabel hnil]
      simp [hparts]
  simp [toList_label, hname, htext, hattributes]

/-- The label of a node tells its kind, its text and its attributes. -/
theorem eq_of_label (hn : n.IsLegible) (hm : m.IsLegible) (h : n.label = m.label) :
    n.kind = m.kind ∧ n.value = m.value ∧ n.attributes = m.attributes := by
  have hlists := congrArg String.toList h
  rw [toList_label, toList_label] at hlists
  obtain ⟨hname, hrest⟩ := Text.append_inj_of_class n.kind.isNameChar_name m.kind.isNameChar_name
    (isNameChar_rest _ _) (isNameChar_rest _ _) hlists
  have hkind := Kind.name_injective (String.toList_injective hname)
  have hrest := String.toList_injective hrest
  have hkeys : n.attributes.map Prod.fst = m.attributes.map Prod.fst := by
    rw [hn.hasForm.attributes, hm.hasForm.attributes, hkind]
  have hsome : n.value.isSome = m.value.isSome := by
    rw [hn.hasForm.text, hm.hasForm.text, hkind]
  refine ⟨hkind, ?_⟩
  cases hvalue : n.value with
  | none =>
    have hvalue' : m.value = none := by simpa [hvalue] using hsome.symm
    rw [hvalue, hvalue'] at hrest
    exact ⟨hvalue'.symm, attributesLabel_inj hkeys (fun a ha => (hn.not_mem_attributeLabel a ha).1)
      (fun a ha => (hm.not_mem_attributeLabel a ha).1) (by simpa [textLabel] using hrest)⟩
  | some text =>
    -- a leaf has no attributes
    obtain ⟨text', hvalue'⟩ : ∃ text', m.value = some text' :=
      Option.isSome_iff_exists.mp (by rw [← hsome, hvalue]; rfl)
    have hterminal : m.kind.isTerminal = true := by rw [← hm.hasForm.text, hvalue']; rfl
    have hnil : m.attributes.map Prod.fst = [] := by
      rw [hm.hasForm.attributes, Kind.attributeNames_of_isTerminal hterminal]
    rw [hnil] at hkeys
    rw [hvalue, hvalue', List.map_eq_nil_iff.mp hkeys, List.map_eq_nil_iff.mp hnil] at hrest
    rw [hvalue', List.map_eq_nil_iff.mp hkeys, List.map_eq_nil_iff.mp hnil]
    simpa [textLabel, attributesLabel] using hrest

/-- Nodes that are drawn with one label agree but for what is below them. -/
theorem same_of_label (hn : n.IsLegible) (hm : m.IsLegible) (h : n.label = m.label) :
    n.kind = m.kind ∧ n.value = m.value ∧ n.attributes.same m.attributes = true := by
  obtain ⟨hkind, hvalue, hattributes⟩ := hn.eq_of_label hm h
  refine ⟨hkind, hvalue, Attributes.same_of_perm ?_ (.of_eq hattributes)⟩
  rw [hm.hasForm.attributes]
  exact m.kind.nodup_attributeNames

end IsLegible

end Tree

/-! ## Trees of source texts -/

/-- Only commas are written with a comma. -/
theorem Token.Lexeme.comma_not_mem {k : Token.Kind} {cs : List Char} (h : Token.Lexeme k cs)
    (hk : k ≠ .comma) : ',' ∉ cs := by
  have hkeywords : ∀ k ∈ Token.Kind.keywords, ',' ∉ k.spelling.toList := by decide
  have hoperators : ∀ k ∈ Token.Kind.operators, k ≠ .comma → ',' ∉ k.spelling.toList := by decide
  cases h with
  | keyword k h => exact hkeywords k h
  | identifier cs hcs => exact fun hmem => absurd (hcs.chars _ hmem) (by decide)
  | number cs hne hdigits => exact fun hmem => absurd (hdigits _ hmem) (by decide)
  | operator k h => exact hoperators k h hk

namespace Source

/-- The nodes of the tree of a source text have labels that tell them apart. -/
theorem isLegible_of_tree {file source : String} {t : Tree} (h : tree file source = .ok t) :
    ∀ n ∈ t.walk, n.IsLegible := by
  obtain ⟨ts, htokens, hprogram⟩ := exists_program_of_tree h
  obtain ⟨us, hcut, rfl, -⟩ := exists_cut_of_tokens htokens
  intro n hn
  refine ⟨(Grammar.inForm_of_program hprogram).1 n hn, fun text htext => ?_⟩
  obtain ⟨u, v, hsub, hread⟩ := (traced_walk htokens hprogram).exists_readAt hn
  rcases (hread.texts text htext).mono hsub with rfl | ⟨token, htoken, hkind, rfl⟩
  · decide
  · rcases List.mem_append.mp htoken with htoken | htoken
    · have hlexeme := hcut.isLexeme token htoken
      refine ⟨hlexeme.comma_not_mem hkind, fun hmem => ?_⟩
      cases hlexeme.isLineBreak_eq_false '\n' hmem
    · rw [List.mem_singleton.mp htoken]
      exact ⟨List.not_mem_nil, List.not_mem_nil⟩

/-- The drawing of the tree of a source text has one line for each node, in the order in which a
walk with a stack visits the nodes, and each line ends with the label of its node. Trees of source
texts with one drawing are the same. -/
theorem drawing_determines_tree {file source : String} {t : Tree} (h : tree file source = .ok t) :
    Tree.visited [t] = t.walk ∧
      List.Forall₂ (fun line n => n.label.toList <:+ line) (t.pretty.toList.splitOn '\n') t.walk ∧
      ∀ file' source' u, tree file' source' = .ok u → t.pretty = u.pretty → t.same u = true := by
  have hlegible := isLegible_of_tree h
  have hlines := Tree.splitOn_pretty fun n hn => (hlegible n hn).newline_not_mem_label
  refine ⟨?_, ?_, fun file' source' u hu hpretty => ?_⟩
  · rw [Tree.visited_eq_walkAll, Tree.walkAll, Tree.walkAll, List.append_nil]
  · rw [hlines, List.forall₂_map_left_iff]
    refine t.draws_drawing.imp fun line n hdraws => ?_
    obtain ⟨front, hfront, -⟩ := hdraws
    exact ⟨front, hfront.symm⟩
  · have hlegible' := isLegible_of_tree hu
    have hlines' := Tree.splitOn_pretty fun n hn => (hlegible' n hn).newline_not_mem_label
    rw [hpretty, hlines'] at hlines
    refine Tree.same_of_drawing (fun n m hn hm => hn.same_of_label hm) hlegible hlegible' ?_
    exact (List.map_injective_iff.mpr fun _ _ => String.toList_injective) hlines.symm

/-- How the product of a number and a negated name is drawn. -/
def productDrawing : String :=
  "PROGRAM\n└── ASSIGNMENT \x7bname=a\x7d\n    └── TERM \x7boperator=*\x7d\n" ++
    "        ├── NUMERIC('2')\n        └── NEGATE \x7boperator=-\x7d\n" ++
    "            └── IDENTIFIER('b')"

/-- Spaces, parentheses and places are not drawn. -/
theorem drawing_determines_tree_product :
    ∃ t u, tree "f" "a=2*(-b)" = .ok t ∧ tree "g" "a =\n(2 * -b)" = .ok u ∧
      t.pretty = productDrawing ∧ t.location ≠ u.location ∧
      (t.pretty.toList.splitOn '\n').length = t.walk.length ∧ t.same u = true := by
  have hcheck : ((tree "f" "a=2*(-b)").toOption.bind fun t =>
      (tree "g" "a =\n(2 * -b)").toOption.map fun u =>
        (t.pretty, u.pretty, t.location, u.location)) =
      some (productDrawing, productDrawing, some ⟨"f", 1, 0⟩, some ⟨"g", 1, 0⟩) := by
    decide +kernel
  obtain ⟨t, ht, hcheck⟩ := Option.bind_eq_some_iff.mp hcheck
  obtain ⟨u, hu, hdrawn⟩ := Option.map_eq_some_iff.mp hcheck
  simp only [Prod.mk.injEq] at hdrawn
  obtain ⟨hpretty, hpretty', hplace, hplace'⟩ := hdrawn
  have htree := eq_ok_of_toOption ht
  have htree' := eq_ok_of_toOption hu
  obtain ⟨-, hlines, hsame⟩ := drawing_determines_tree htree
  refine ⟨t, u, htree, htree', hpretty, ?_, hlines.length_eq,
    hsame _ _ u htree' (hpretty.trans hpretty'.symm)⟩
  rw [hplace, hplace']
  decide

end Source

end StackLang
