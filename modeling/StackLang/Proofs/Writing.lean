import StackLang.Proofs.Spacing

/-!
# Trees written as tokens

The shapes of the nodes of a tree, and the kinds and texts of the tokens that a tree of these shapes
is written as: with parentheses in a value only where the grammar needs them, and with one pair
around each value that ends a statement.
-/

namespace StackLang

open Token (Lexeme)

namespace Tree

/-! ## Writing -/

/-- The kinds and texts of tokens. -/
abbrev Words := List (Token.Kind × String)

/-- The word of a kind with one spelling. -/
def fixedWord (k : Token.Kind) : Token.Kind × String := (k, k.spelling)

/-- The word of a name. -/
def nameWord (name : String) : Token.Kind × String := (.identifier, name)

/-- The word of a type. -/
def typeWord (type : String) : Token.Kind × String := (.ofWord type, type)

/-- The word of an operator. -/
def operatorWord (operator : String) : Token.Kind × String :=
  ((Token.Kind.operators.find? (·.spelling = operator)).getD .endOfInput, operator)

/-- The text of the attribute `key`, empty if there is none. -/
def text (attributes : Attributes) (key : String) : String := (attributes.get? key).getD ""

/-- Words in parentheses. -/
def enclosed (words : Words) : Words :=
  fixedWord .leftParen :: words ++ [fixedWord .rightParen]

/-- The words of a node, in parentheses if it is of one of these kinds. -/
def enclosedAt (kinds : List Kind) (kind : Kind) (words : Words) : Words :=
  if kind ∈ kinds then enclosed words else words

/-- Words with commas between them. -/
def separated : List Words → Words
  | [] => []
  | first :: others => first ++ others.flatMap (fixedWord .comma :: ·)

mutual

/-- The words of a value, with the fewest parentheses. -/
def valueWords : Tree → Words
  | ⟨kind, value, attributes, children, _⟩ =>
    match kind with
    | .number => [(.number, value.getD "")]
    | .identifier => [nameWord (value.getD "")]
    | .functionCall =>
      nameWord (text attributes "name") :: enclosed (separated (valueWordsAll children))
    | .negate =>
      match children with
      | [operand] =>
        fixedWord .minus :: enclosedAt [.expression, .term] operand.kind (valueWords operand)
      | _ => []
    | .term =>
      match children with
      | [left, right] =>
        enclosedAt [.expression] left.kind (valueWords left) ++
          operatorWord (text attributes "operator") ::
          enclosedAt [.expression, .term] right.kind (valueWords right)
      | _ => []
    | .expression =>
      match children with
      | [left, right] =>
        valueWords left ++
          operatorWord (text attributes "operator") ::
          enclosedAt [.expression] right.kind (valueWords right)
      | _ => []
    | _ => []

/-- The words of several values. -/
def valueWordsAll : List Tree → List Words
  | [] => []
  | t :: ts => valueWords t :: valueWordsAll ts

end

/-- The words of a test: a condition in parentheses. -/
def testWords (t : Tree) : Words :=
  match t.children with
  | [left, right] =>
    enclosed (valueWords left ++ operatorWord (text t.attributes "operator") :: valueWords right)
  | _ => []

/-- The words of a parameter. -/
def parameterWords (t : Tree) : Words :=
  [nameWord (text t.attributes "name"), fixedWord .colon, typeWord (text t.attributes "type")]

/-- The words of the value of a declaration. -/
def initializerWords : List Tree → Words
  | [value] => fixedWord .assign :: enclosed (valueWords value)
  | _ => []

mutual

/-- The words of a statement. -/
def statementWords : Tree → Words
  | ⟨kind, value, attributes, children, location⟩ =>
    match kind with
    | .function =>
      match children with
      | [parameters, body] =>
        fixedWord .keywordFn :: nameWord (text attributes "name") ::
          (enclosed (separated (parameters.children.map parameterWords)) ++
            fixedWord .arrow :: typeWord (text attributes "returnType") :: blockWords body)
      | _ => []
    | .variableDeclaration =>
      fixedWord .keywordVar :: nameWord (text attributes "name") :: fixedWord .colon ::
        typeWord (text attributes "type") :: initializerWords children
    | .assignment =>
      match children with
      | [value] =>
        nameWord (text attributes "name") :: fixedWord .assign :: enclosed (valueWords value)
      | _ => []
    | .conditional =>
      match children with
      | test :: body :: others =>
        fixedWord .keywordIf :: (testWords test ++ blockWords body ++ branchWords others)
      | _ => []
    | .loop =>
      match children with
      | [test, body] => fixedWord .keywordWhile :: (testWords test ++ blockWords body)
      | _ => []
    | .giveBack =>
      match children with
      | [value] => fixedWord .keywordReturn :: enclosed (valueWords value)
      | _ => []
    | _ => enclosed (valueWords ⟨kind, value, attributes, children, location⟩)

/-- The words of statements, one after the other. -/
def statementsWords : List Tree → Words
  | [] => []
  | t :: ts => statementWords t ++ statementsWords ts

/-- The words of a block. -/
def blockWords : Tree → Words
  | ⟨_, _, _, children, _⟩ =>
    fixedWord .leftBrace :: statementsWords children ++ [fixedWord .rightBrace]

/-- The words of the branches of a conditional after its first one. -/
def branchWords : List Tree → Words
  | [] => []
  | ⟨kind, _, _, children, _⟩ :: others =>
    (match kind, children with
      | .elseIf, [test, body] => fixedWord .keywordElseif :: (testWords test ++ blockWords body)
      | .otherwise, [body] => fixedWord .keywordElse :: blockWords body
      | _, _ => []) ++ branchWords others

end

/-- The words of a program. -/
def written (t : Tree) : Words := statementsWords t.children

/-! ## Shapes -/

/-- The shapes of values. -/
inductive RegularValue : Tree → Prop
  | number {digits : String} {location : Option Location} (h : Lexeme .number digits.toList) :
      RegularValue ⟨.number, some digits, [], [], location⟩
  | name {name : String} {location : Option Location} (h : Lexeme .identifier name.toList) :
      RegularValue ⟨.identifier, some name, [], [], location⟩
  | call {name : String} {arguments : List Tree} {location : Option Location}
      (hname : Lexeme .identifier name.toList) (h : ∀ a ∈ arguments, RegularValue a) :
      RegularValue ⟨.functionCall, none, [("name", name)], arguments, location⟩
  | negate {operand : Tree} {location : Option Location} (h : RegularValue operand) :
      RegularValue ⟨.negate, none, [("operator", "-")], [operand], location⟩
  | term {k : Token.Kind} {left right : Tree} {location : Option Location}
      (hk : k.isMultiplicative = true) (hleft : RegularValue left) (hright : RegularValue right) :
      RegularValue ⟨.term, none, [("operator", k.spelling)], [left, right], location⟩
  | expression {k : Token.Kind} {left right : Tree} {location : Option Location}
      (hk : k.isAdditive = true) (hleft : RegularValue left) (hright : RegularValue right) :
      RegularValue ⟨.expression, none, [("operator", k.spelling)], [left, right], location⟩

/-- The shape of conditions. -/
inductive RegularCondition : Tree → Prop
  | mk {k : Token.Kind} {left right : Tree} {location : Option Location}
      (hk : k.isComparison = true) (hleft : RegularValue left) (hright : RegularValue right) :
      RegularCondition ⟨.condition, none, [("operator", k.spelling)], [left, right], location⟩

/-- The shape of parameters; the attributes may have been given in any order. -/
inductive RegularParameter : Tree → Prop
  | mk {name : String} {k : Token.Kind} {attributes : Attributes} {location : Option Location}
      (hname : Lexeme .identifier name.toList) (hk : k.isType = true)
      (hattributes : attributes.Perm [("name", name), ("type", k.spelling)]) :
      RegularParameter ⟨.parameter, none, attributes, [], location⟩

mutual

/-- The shapes of statements. -/
inductive RegularStatement : Tree → Prop
  | function {name : String} {k : Token.Kind} {attributes : Attributes} {parameters : List Tree}
      {body : Tree} {place location : Option Location} (hname : Lexeme .identifier name.toList)
      (hk : k.isType = true)
      (hattributes : attributes.Perm [("name", name), ("returnType", k.spelling)])
      (hparameters : ∀ p ∈ parameters, RegularParameter p) (hbody : RegularBlock body) :
      RegularStatement ⟨.function, none, attributes,
        [⟨.parameterList, none, [], parameters, place⟩, body], location⟩
  | declaration {name : String} {k : Token.Kind} {attributes : Attributes} {value : Option Tree}
      {location : Option Location} (hname : Lexeme .identifier name.toList) (hk : k.isType = true)
      (hattributes : attributes.Perm [("name", name), ("type", k.spelling)])
      (hvalue : ∀ v ∈ value, RegularValue v) :
      RegularStatement ⟨.variableDeclaration, none, attributes, value.toList, location⟩
  | assignment {name : String} {value : Tree} {location : Option Location}
      (hname : Lexeme .identifier name.toList) (hvalue : RegularValue value) :
      RegularStatement ⟨.assignment, none, [("name", name)], [value], location⟩
  | conditional {test body : Tree} {others : List Tree} {location : Option Location}
      (htest : RegularCondition test) (hbody : RegularBlock body)
      (hothers : RegularBranches others) :
      RegularStatement ⟨.conditional, none, [], test :: body :: others, location⟩
  | loop {test body : Tree} {location : Option Location} (htest : RegularCondition test)
      (hbody : RegularBlock body) : RegularStatement ⟨.loop, none, [], [test, body], location⟩
  | giveBack {value : Tree} {location : Option Location} (hvalue : RegularValue value) :
      RegularStatement ⟨.giveBack, none, [], [value], location⟩
  | value {t : Tree} (h : RegularValue t) : RegularStatement t

/-- The shape of blocks. -/
inductive RegularBlock : Tree → Prop
  | mk {statements : List Tree} {location : Option Location}
      (h : ∀ s ∈ statements, RegularStatement s) :
      RegularBlock ⟨.block, none, [], statements, location⟩

/-- The shapes of the branches of a conditional after its first one. -/
inductive RegularBranches : List Tree → Prop
  | none : RegularBranches []
  | elseIf {test body : Tree} {others : List Tree} {location : Option Location}
      (htest : RegularCondition test) (hbody : RegularBlock body)
      (hothers : RegularBranches others) :
      RegularBranches (⟨.elseIf, none, [], [test, body], location⟩ :: others)
  | otherwise {body : Tree} {location : Option Location} (hbody : RegularBlock body) :
      RegularBranches [⟨.otherwise, none, [], [body], location⟩]

end

/-- The shape of programs. -/
inductive RegularProgram : Tree → Prop
  | mk {statements : List Tree} {location : Option Location}
      (h : ∀ s ∈ statements, RegularStatement s) :
      RegularProgram ⟨.program, none, [], statements, location⟩

/-! ## Attributes -/

namespace Attributes

/-- An attribute is found if no other one has its name. -/
theorem get?_of_mem {as : Attributes} {a : String × String} (hkeys : (as.map Prod.fst).Nodup)
    (h : a ∈ as) : as.get? a.1 = some a.2 := by
  induction as with
  | nil => cases h
  | cons b as ih =>
    rw [List.map_cons, List.nodup_cons] at hkeys
    rcases List.mem_cons.mp h with rfl | h
    · exact List.lookup_cons_self
    · have hne : (a.1 == b.1) = false := by
        refine beq_eq_false_iff_ne.mpr fun he => hkeys.1 ?_
        rw [← he]
        exact List.mem_map_of_mem h
      rw [get?, List.lookup_cons, hne]
      exact ih hkeys.2 h

/-- The order of attributes does not matter. -/
theorem same_of_perm {as bs : Attributes} (hkeys : (bs.map Prod.fst).Nodup) (h : as.Perm bs) :
    as.same bs = true := by
  rw [same, Bool.and_eq_true, beq_iff_eq, List.all_eq_true]
  refine ⟨h.length_eq, fun a ha => ?_⟩
  rw [get?_of_mem hkeys (h.mem_iff.mp ha), beq_iff_eq]

theorem same_singleton (a : String × String) : same [a] [a] = true :=
  same_of_perm (by simp) (.refl [a])

end Attributes

/-- A name and one more attribute are found in either order. -/
theorem text_of_perm {as : Attributes} {name key value : String} (hkey : "name" ≠ key)
    (h : as.Perm [("name", name), (key, value)]) :
    text as "name" = name ∧ text as key = value ∧
      as.same [("name", name), (key, value)] = true := by
  have hkeys : (([("name", name), (key, value)] : Attributes).map Prod.fst).Nodup := by
    simp [hkey]
  have hkeys' : (as.map Prod.fst).Nodup := (h.map Prod.fst).nodup_iff.mpr hkeys
  have hname : as.get? "name" = some name :=
    Attributes.get?_of_mem hkeys' (h.mem_iff.mpr List.mem_cons_self)
  have hvalue : as.get? key = some value :=
    Attributes.get?_of_mem hkeys' (h.mem_iff.mpr (List.mem_cons_of_mem _ List.mem_cons_self))
  rw [text, text, hname, hvalue]
  exact ⟨rfl, rfl, Attributes.same_of_perm hkeys h⟩

/-! ## How shapes are written -/

theorem operatorWord_spelling {k : Token.Kind} (h : k ∈ Token.Kind.operators) :
    operatorWord k.spelling = fixedWord k := by
  have hall : ∀ k ∈ Token.Kind.operators, operatorWord k.spelling = fixedWord k := by decide
  exact hall k h

theorem typeWord_spelling {k : Token.Kind} (hk : k.isType = true) :
    typeWord k.spelling = fixedWord k := by
  rw [typeWord, fixedWord, Token.ofWord_keyword (by cases k <;> first | decide | cases hk)]

theorem valueWordsAll_eq_map (ts : List Tree) : valueWordsAll ts = ts.map valueWords := by
  induction ts with
  | nil => rfl
  | cons t ts ih => rw [valueWordsAll, ih, List.map_cons]

section Equations

variable {name : String} {k : Token.Kind} {attributes : Attributes}

theorem valueWords_term (hk : k.isMultiplicative = true) (left right : Tree)
    (location : Option Location) :
    valueWords ⟨.term, none, [("operator", k.spelling)], [left, right], location⟩ =
      enclosedAt [.expression] left.kind (valueWords left) ++
        fixedWord k :: enclosedAt [.expression, .term] right.kind (valueWords right) := by
  rw [← operatorWord_spelling (by cases k <;> first | decide | cases hk)]
  rfl

theorem valueWords_expression (hk : k.isAdditive = true) (left right : Tree)
    (location : Option Location) :
    valueWords ⟨.expression, none, [("operator", k.spelling)], [left, right], location⟩ =
      valueWords left ++ fixedWord k :: enclosedAt [.expression] right.kind (valueWords right) := by
  rw [← operatorWord_spelling (by cases k <;> first | decide | cases hk)]
  rfl

theorem testWords_mk (hk : k.isComparison = true) (left right : Tree)
    (location : Option Location) :
    testWords ⟨.condition, none, [("operator", k.spelling)], [left, right], location⟩ =
      enclosed (valueWords left ++ fixedWord k :: valueWords right) := by
  rw [← operatorWord_spelling (by cases k <;> first | decide | cases hk)]
  rfl

theorem parameterWords_mk (hk : k.isType = true)
    (h : attributes.Perm [("name", name), ("type", k.spelling)]) (location : Option Location) :
    parameterWords ⟨.parameter, none, attributes, [], location⟩ =
      [nameWord name, fixedWord .colon, fixedWord k] := by
  obtain ⟨hname, htype, -⟩ := text_of_perm (by decide) h
  rw [parameterWords, hname, htype, typeWord_spelling hk]

theorem statementWords_function (hk : k.isType = true)
    (h : attributes.Perm [("name", name), ("returnType", k.spelling)]) (parameters : List Tree)
    (body : Tree) (place location : Option Location) :
    statementWords ⟨.function, none, attributes,
        [⟨.parameterList, none, [], parameters, place⟩, body], location⟩ =
      fixedWord .keywordFn :: nameWord name ::
        (enclosed (separated (parameters.map parameterWords)) ++
          fixedWord .arrow :: fixedWord k :: blockWords body) := by
  obtain ⟨hname, htype, -⟩ := text_of_perm (by decide) h
  rw [statementWords, hname, htype, typeWord_spelling hk]

theorem statementWords_declaration (hk : k.isType = true)
    (h : attributes.Perm [("name", name), ("type", k.spelling)]) (children : List Tree)
    (location : Option Location) :
    statementWords ⟨.variableDeclaration, none, attributes, children, location⟩ =
      fixedWord .keywordVar :: nameWord name :: fixedWord .colon :: fixedWord k ::
        initializerWords children := by
  obtain ⟨hname, htype, -⟩ := text_of_perm (by decide) h
  rw [statementWords, hname, htype, typeWord_spelling hk]

theorem RegularValue.statementWords_eq {t : Tree} (h : RegularValue t) :
    statementWords t = enclosed (valueWords t) := by
  cases h <;> rfl

end Equations

/-! ## What is written can be spelt -/

/-- Words whose texts are lexemes of their kinds. -/
def Spelt (words : Words) : Prop := ∀ w ∈ words, Lexeme w.1 w.2.toList

namespace Spelt

variable {words words' : Words} {k : Token.Kind} {name : String}

theorem nil : Spelt [] := by
  intro w hw
  cases hw

theorem append (h : Spelt words) (h' : Spelt words') : Spelt (words ++ words') :=
  List.forall_mem_append.mpr ⟨h, h'⟩

theorem cons {w : Token.Kind × String} (hw : Lexeme w.1 w.2.toList) (h : Spelt words) :
    Spelt (w :: words) :=
  List.forall_mem_cons.mpr ⟨hw, h⟩

theorem fixed (hk : k ∈ Token.Kind.keywords ++ Token.Kind.operators) (h : Spelt words) :
    Spelt (fixedWord k :: words) := by
  refine h.cons ?_
  rcases List.mem_append.mp hk with hk | hk
  · exact .keyword k hk
  · exact .operator k hk

theorem enclosed (h : Spelt words) : Spelt (Tree.enclosed words) :=
  .fixed (by decide) (h.append (.fixed (by decide) .nil))

theorem enclosedAt (kinds : List Kind) (kind : Kind) (h : Spelt words) :
    Spelt (Tree.enclosedAt kinds kind words) := by
  rw [Tree.enclosedAt]
  split
  · exact h.enclosed
  · exact h

theorem separated {lists : List Words} (h : ∀ words ∈ lists, Spelt words) :
    Spelt (Tree.separated lists) := by
  cases lists with
  | nil => exact .nil
  | cons first others =>
    obtain ⟨hfirst, hothers⟩ := List.forall_mem_cons.mp h
    refine hfirst.append fun w hw => ?_
    obtain ⟨words, hwords, hw⟩ := List.mem_flatMap.mp hw
    exact Spelt.fixed (k := .comma) (by decide) (hothers words hwords) w hw

end Spelt

theorem RegularValue.spelt {t : Tree} (h : RegularValue t) : Spelt (valueWords t) := by
  induction h with
  | number h => exact .cons h .nil
  | name h => exact .cons h .nil
  | @call name arguments location hname h ih =>
    refine .cons hname (Spelt.enclosed (.separated ?_))
    intro words hwords
    rw [valueWordsAll_eq_map] at hwords
    obtain ⟨a, ha, rfl⟩ := List.mem_map.mp hwords
    exact ih a ha
  | negate h ih => exact .fixed (by decide) (ih.enclosedAt _ _)
  | @term k left right location hk hleft hright ihl ihr =>
    rw [valueWords_term hk]
    refine (ihl.enclosedAt _ _).append (.fixed ?_ (ihr.enclosedAt _ _))
    cases k <;> first | decide | cases hk
  | @expression k left right location hk hleft hright ihl ihr =>
    rw [valueWords_expression hk]
    refine ihl.append (.fixed ?_ (ihr.enclosedAt _ _))
    cases k <;> first | decide | cases hk

theorem RegularCondition.spelt {t : Tree} (h : RegularCondition t) : Spelt (testWords t) := by
  obtain @⟨k, left, right, location, hk, hleft, hright⟩ := h
  rw [testWords_mk hk]
  refine Spelt.enclosed (hleft.spelt.append (.fixed ?_ hright.spelt))
  cases k <;> first | decide | cases hk

theorem mem_keywords_of_isType {k : Token.Kind} (hk : k.isType = true) :
    k ∈ Token.Kind.keywords ++ Token.Kind.operators := by
  cases k <;> first | decide | cases hk

theorem RegularParameter.spelt {t : Tree} (h : RegularParameter t) : Spelt (parameterWords t) := by
  obtain @⟨name, k, attributes, location, hname, hk, hattributes⟩ := h
  rw [parameterWords_mk hk hattributes]
  exact .cons hname (.fixed (by decide) (.fixed (mem_keywords_of_isType hk) .nil))

theorem spelt_statementsWords {ts : List Tree} (h : ∀ t ∈ ts, Spelt (statementWords t)) :
    Spelt (statementsWords ts) := by
  induction ts with
  | nil => exact .nil
  | cons t ts ih =>
    obtain ⟨ht, hts⟩ := List.forall_mem_cons.mp h
    exact ht.append (ih hts)

mutual

theorem RegularStatement.spelt {t : Tree} (h : RegularStatement t) : Spelt (statementWords t) := by
  cases h with
  | @function name k attributes parameters body place location hname hk hattributes hparameters
      hbody =>
    have hlist : ∀ words ∈ parameters.map parameterWords, Spelt words := by
      intro words hwords
      obtain ⟨p, hp, rfl⟩ := List.mem_map.mp hwords
      exact (hparameters p hp).spelt
    rw [statementWords_function hk hattributes]
    exact .fixed (by decide) (.cons hname ((Spelt.separated hlist).enclosed.append
      (.fixed (by decide) (.fixed (mem_keywords_of_isType hk) hbody.spelt))))
  | @declaration name k attributes value location hname hk hattributes hvalue =>
    have hinitializer : Spelt (initializerWords value.toList) := by
      cases value with
      | none => exact .nil
      | some v => exact .fixed (by decide) (hvalue v rfl).spelt.enclosed
    rw [statementWords_declaration hk hattributes]
    exact .fixed (by decide) (.cons hname (.fixed (by decide)
      (.fixed (mem_keywords_of_isType hk) hinitializer)))
  | assignment hname hvalue => exact .cons hname (.fixed (by decide) hvalue.spelt.enclosed)
  | conditional htest hbody hothers =>
    exact .fixed (by decide) ((htest.spelt.append hbody.spelt).append hothers.spelt)
  | loop htest hbody => exact .fixed (by decide) (htest.spelt.append hbody.spelt)
  | giveBack hvalue => exact .fixed (by decide) hvalue.spelt.enclosed
  | value h =>
    rw [h.statementWords_eq]
    exact h.spelt.enclosed

theorem RegularBlock.spelt {t : Tree} (h : RegularBlock t) : Spelt (blockWords t) := by
  cases h with
  | mk h =>
    have hstatements := spelt_statementsWords fun s hs => (h s hs).spelt
    exact .fixed (by decide) (hstatements.append (.fixed (by decide) .nil))

theorem RegularBranches.spelt {ts : List Tree} (h : RegularBranches ts) :
    Spelt (branchWords ts) := by
  cases h with
  | none => exact .nil
  | elseIf htest hbody hothers =>
    exact Spelt.append (.fixed (by decide) (htest.spelt.append hbody.spelt)) hothers.spelt
  | otherwise hbody => exact Spelt.append (.fixed (by decide) hbody.spelt) .nil

end

theorem RegularProgram.spelt {t : Tree} (h : RegularProgram t) : Spelt (written t) := by
  obtain @⟨statements, location, h⟩ := h
  exact spelt_statementsWords fun s hs => (h s hs).spelt

end Tree

end StackLang
