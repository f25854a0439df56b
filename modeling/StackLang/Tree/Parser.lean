import StackLang.Diagnostic
import StackLang.Token

/-!
# From tokens to trees

A recursive descent over the tokens before the end of the input, one function for each rule of the
grammar. A step that succeeds leaves fewer tokens, which is part of its result and ends the
recursion. The first token that fits no rule is reported together with what was expected in its
place.
-/

namespace StackLang.Parser

open Token (Kind)

/-- What may have to stand at a place. -/
inductive Expectation where
  | token (kind : Kind)
  | functionName | parameterName | variableName
  | returnType | parameterType | variableType
  | comparison | expression
deriving DecidableEq

/-- An expectation in words. -/
def Expectation.text : Expectation → String
  | token kind => "'" ++ kind.spelling ++ "'"
  | functionName => "function name"
  | parameterName => "parameter name"
  | variableName => "variable name"
  | returnType => "return type (int, bool, string or void)"
  | parameterType => "parameter type (int, bool, string or void)"
  | variableType => "variable type (int, bool, string or void)"
  | comparison => "comparison operator (==, !=, <, >, <=, >=)"
  | expression => "expression"

/-- The token at which the input leaves the grammar, and what was expected there. -/
structure Refusal where
  expected : Expectation
  found : Token
deriving DecidableEq

/-- A missing token, or one that starts no alternative. -/
def Refusal.cause (r : Refusal) : Cause :=
  match r.expected with
  | .comparison | .expression => .unexpectedToken r.found.described (some r.expected.text)
  | _ => .missingToken r.expected.text r.found.described

/-- The diagnostic of a refusal in a text with these lines. -/
def Refusal.diagnostic (lines : List String) (r : Refusal) : Diagnostic :=
  .ofCause lines r.cause (some r.found.location)

/-- A value read from the front of the input, and the tokens left, fewer than `n`. -/
structure Parsed (n : Nat) (α : Type) where
  value : α
  rest : List Token
  fewer : rest.length < n

/-- A value or a refusal. -/
abbrev Attempt := Except Refusal

/-- The first token left, or the one that ends the input. -/
def peek (stop : Token) (ts : List Token) : Token := ts.headD stop

/-- Takes a token that satisfies `p`. -/
def expectWhere (stop : Token) (p : Kind → Bool) (expected : Expectation) (ts : List Token) :
    Attempt (Parsed ts.length Token) :=
  match ts with
  | [] => .error ⟨expected, stop⟩
  | t :: rest => if p t.kind then .ok ⟨t, rest, Nat.lt_succ_self _⟩ else .error ⟨expected, t⟩

/-- Takes a token of the kind `kind`. -/
def expect (stop : Token) (kind : Kind) (expected : Expectation) (ts : List Token) :
    Attempt (Parsed ts.length Token) :=
  expectWhere stop (· = kind) expected ts

/-- Takes the token that is always spelt the same. -/
def expectToken (stop : Token) (kind : Kind) (ts : List Token) : Attempt (Parsed ts.length Token) :=
  expect stop kind (.token kind) ts

/-- The node of an operator with two operands; it starts where the left operand does. -/
def binaryNode (kind : Tree.Kind) (operator : Token) (left right : Tree) : Tree :=
  { kind, attributes := [("operator", operator.lexeme)], children := [left, right],
    location := left.location }

mutual

/-- A sum of products. -/
def expression (stop : Token) (ts : List Token) : Attempt (Parsed ts.length Tree) := do
  let ⟨left, ts₁, h₁⟩ ← term stop ts
  let ⟨sum, ts₂, h₂⟩ ← sumTail stop left ts₁
  return ⟨sum, ts₂, by omega⟩
termination_by 6 * ts.length + 4

/-- What follows the first product of a sum; operators group to the left. -/
def sumTail (stop : Token) (left : Tree) (ts : List Token) :
    Attempt (Parsed (ts.length + 1) Tree) :=
  match ts with
  | [] => return ⟨left, [], Nat.lt_succ_self _⟩
  | operator :: ts₁ =>
    if operator.kind.isAdditive then do
      let ⟨right, ts₂, h₂⟩ ← term stop ts₁
      let ⟨sum, ts₃, h₃⟩ ← sumTail stop (binaryNode .expression operator left right) ts₂
      return ⟨sum, ts₃, by simp only [List.length_cons]; omega⟩
    else return ⟨left, operator :: ts₁, Nat.lt_succ_self _⟩
termination_by 6 * ts.length

/-- A product of factors. -/
def term (stop : Token) (ts : List Token) : Attempt (Parsed ts.length Tree) := do
  let ⟨left, ts₁, h₁⟩ ← factor stop ts
  let ⟨product, ts₂, h₂⟩ ← productTail stop left ts₁
  return ⟨product, ts₂, by omega⟩
termination_by 6 * ts.length + 3

/-- What follows the first factor of a product; operators group to the left. -/
def productTail (stop : Token) (left : Tree) (ts : List Token) :
    Attempt (Parsed (ts.length + 1) Tree) :=
  match ts with
  | [] => return ⟨left, [], Nat.lt_succ_self _⟩
  | operator :: ts₁ =>
    if operator.kind.isMultiplicative then do
      let ⟨right, ts₂, h₂⟩ ← factor stop ts₁
      let ⟨product, ts₃, h₃⟩ ← productTail stop (binaryNode .term operator left right) ts₂
      return ⟨product, ts₃, by simp only [List.length_cons]; omega⟩
    else return ⟨left, operator :: ts₁, Nat.lt_succ_self _⟩
termination_by 6 * ts.length

/-- A primary behind any number of minus signs. -/
def factor (stop : Token) (ts : List Token) : Attempt (Parsed ts.length Tree) :=
  match ts with
  | [] => .error ⟨.expression, stop⟩
  | t :: ts₁ =>
    if t.kind = .minus then do
      let ⟨operand, ts₂, h₂⟩ ← factor stop ts₁
      let negation : Tree :=
        { kind := .negate, attributes := [("operator", "-")], children := [operand],
          location := some t.location }
      return ⟨negation, ts₂, Nat.lt_succ_of_lt h₂⟩
    else primary stop (t :: ts₁)
termination_by 6 * ts.length + 2

/-- A sum in parentheses, a number, a call or a variable. -/
def primary (stop : Token) (ts : List Token) : Attempt (Parsed ts.length Tree) :=
  match ts with
  | [] => .error ⟨.expression, stop⟩
  | t :: ts₁ =>
    match t.kind with
    | .leftParen => do
      let ⟨inner, ts₂, h₂⟩ ← expression stop ts₁
      let ⟨_, ts₃, h₃⟩ ← expectToken stop .rightParen ts₂
      return ⟨inner, ts₃, by simp only [List.length_cons]; omega⟩
    | .number =>
      return ⟨{ kind := .number, value := some t.lexeme, location := some t.location }, ts₁,
        Nat.lt_succ_self _⟩
    | .identifier =>
      match ts₁ with
      | ⟨.leftParen, _, _⟩ :: ts₂ => do
        let ⟨arguments, ts₃, h₃⟩ ← arguments stop ts₂
        let call : Tree :=
          { kind := .functionCall, attributes := [("name", t.lexeme)], children := arguments,
            location := some t.location }
        return ⟨call, ts₃, by simp only [List.length_cons]; omega⟩
      | ts₁ =>
        return ⟨{ kind := .identifier, value := some t.lexeme, location := some t.location }, ts₁,
          Nat.lt_succ_self _⟩
    | _ => .error ⟨.expression, t⟩
termination_by 6 * ts.length + 1

/-- The arguments of a call and the parenthesis that closes them. -/
def arguments (stop : Token) (ts : List Token) : Attempt (Parsed ts.length (List Tree)) :=
  match ts with
  | ⟨.rightParen, _, _⟩ :: ts₁ => return ⟨[], ts₁, Nat.lt_succ_self _⟩
  | ts => do
    let ⟨argument, ts₁, h₁⟩ ← expression stop ts
    let ⟨others, ts₂, h₂⟩ ← moreArguments stop ts₁
    return ⟨argument :: others, ts₂, by omega⟩
termination_by 6 * ts.length + 5

/-- The further arguments of a call and the parenthesis that closes them. -/
def moreArguments (stop : Token) (ts : List Token) : Attempt (Parsed ts.length (List Tree)) :=
  match ts with
  | ⟨.comma, _, _⟩ :: ts₁ => do
    let ⟨argument, ts₂, h₂⟩ ← expression stop ts₁
    let ⟨others, ts₃, h₃⟩ ← moreArguments stop ts₂
    return ⟨argument :: others, ts₃, by simp only [List.length_cons]; omega⟩
  | ts => do
    let ⟨_, ts₁, h₁⟩ ← expectToken stop .rightParen ts
    return ⟨[], ts₁, h₁⟩
termination_by 6 * ts.length

end

/-- Two sums compared with each other. -/
def condition (stop : Token) (ts : List Token) : Attempt (Parsed ts.length Tree) := do
  let ⟨left, ts₁, h₁⟩ ← expression stop ts
  let ⟨operator, ts₂, h₂⟩ ← expectWhere stop Kind.isComparison .comparison ts₁
  let ⟨right, ts₃, h₃⟩ ← expression stop ts₂
  return ⟨binaryNode .condition operator left right, ts₃, by omega⟩

/-- A condition in parentheses. -/
def parenthesised (stop : Token) (ts : List Token) : Attempt (Parsed ts.length Tree) := do
  let ⟨_, ts₁, h₁⟩ ← expectToken stop .leftParen ts
  let ⟨inner, ts₂, h₂⟩ ← condition stop ts₁
  let ⟨_, ts₃, h₃⟩ ← expectToken stop .rightParen ts₂
  return ⟨inner, ts₃, by omega⟩

/-- A parameter with its type. -/
def parameter (stop : Token) (ts : List Token) : Attempt (Parsed ts.length Tree) := do
  let ⟨name, ts₁, h₁⟩ ← expect stop .identifier .parameterName ts
  let ⟨_, ts₂, h₂⟩ ← expectToken stop .colon ts₁
  let ⟨type, ts₃, h₃⟩ ← expectWhere stop Kind.isType .parameterType ts₂
  let node : Tree :=
    { kind := .parameter, attributes := [("name", name.lexeme), ("type", type.lexeme)],
      location := some name.location }
  return ⟨node, ts₃, by omega⟩

/-- The parameters after the first one. -/
def moreParameters (stop : Token) (ts : List Token) :
    Attempt (Parsed (ts.length + 1) (List Tree)) :=
  match ts with
  | ⟨.comma, _, _⟩ :: ts₁ => do
    let ⟨first, ts₂, h₂⟩ ← parameter stop ts₁
    let ⟨others, ts₃, h₃⟩ ← moreParameters stop ts₂
    return ⟨first :: others, ts₃, by simp only [List.length_cons]; omega⟩
  | ts => return ⟨[], ts, Nat.lt_succ_self _⟩
termination_by ts.length

/-- The parameters of a function, up to the parenthesis that closes them. -/
def parameters (stop : Token) (ts : List Token) : Attempt (Parsed (ts.length + 1) (List Tree)) :=
  if (peek stop ts).kind = .rightParen then return ⟨[], ts, Nat.lt_succ_self _⟩
  else do
    let ⟨first, ts₁, h₁⟩ ← parameter stop ts
    let ⟨others, ts₂, h₂⟩ ← moreParameters stop ts₁
    return ⟨first :: others, ts₂, by omega⟩

/-- The head of a function: its name, its parameters and the type of its value. -/
def functionHead (stop : Token) (ts : List Token) :
    Attempt (Parsed ts.length (String × Tree × String)) := do
  let ⟨name, ts₁, h₁⟩ ← expect stop .identifier .functionName ts
  let ⟨_, ts₂, h₂⟩ ← expectToken stop .leftParen ts₁
  let ⟨children, ts₃, h₃⟩ ← parameters stop ts₂
  let ⟨_, ts₄, h₄⟩ ← expectToken stop .rightParen ts₃
  let ⟨_, ts₅, h₅⟩ ← expectToken stop .arrow ts₄
  let ⟨type, ts₆, h₆⟩ ← expectWhere stop Kind.isType .returnType ts₅
  let list : Tree := { kind := .parameterList, children, location := some (peek stop ts₂).location }
  return ⟨(name.lexeme, list, type.lexeme), ts₆, by omega⟩

/-- A declaration after the word that starts it, which stands at `location`. -/
def declaration (stop : Token) (location : Location) (ts : List Token) :
    Attempt (Parsed ts.length Tree) := do
  let ⟨name, ts₁, h₁⟩ ← expect stop .identifier .variableName ts
  let ⟨_, ts₂, h₂⟩ ← expectToken stop .colon ts₁
  let ⟨type, ts₃, h₃⟩ ← expectWhere stop Kind.isType .variableType ts₂
  let node : Tree :=
    { kind := .variableDeclaration, attributes := [("name", name.lexeme), ("type", type.lexeme)],
      location := some location }
  match ts₃, h₃ with
  | ⟨.assign, _, _⟩ :: ts₄, h₃ => do
    let ⟨value, ts₅, h₅⟩ ← expression stop ts₄
    return ⟨{ node with children := [value] }, ts₅, by simp only [List.length_cons] at h₃; omega⟩
  | ts₃, h₃ => return ⟨node, ts₃, by omega⟩

mutual

/-- Any statement; two tokens decide which. -/
def statement (stop : Token) (ts : List Token) : Attempt (Parsed ts.length Tree) :=
  match ts with
  | ⟨.keywordFn, _, location⟩ :: ts₁ => do
    let ⟨(name, list, type), ts₂, h₂⟩ ← functionHead stop ts₁
    let ⟨body, ts₃, h₃⟩ ← block stop ts₂
    let node : Tree :=
      { kind := .function, attributes := [("name", name), ("returnType", type)],
        children := [list, body], location := some location }
    return ⟨node, ts₃, by simp only [List.length_cons]; omega⟩
  | ⟨.keywordVar, _, location⟩ :: ts₁ => do
    let ⟨node, ts₂, h₂⟩ ← declaration stop location ts₁
    return ⟨node, ts₂, Nat.lt_succ_of_lt h₂⟩
  | ⟨.keywordIf, _, location⟩ :: ts₁ => do
    let ⟨test, ts₂, h₂⟩ ← parenthesised stop ts₁
    let ⟨body, ts₃, h₃⟩ ← block stop ts₂
    let ⟨others, ts₄, h₄⟩ ← branches stop ts₃
    let node : Tree :=
      { kind := .conditional, children := test :: body :: others, location := some location }
    return ⟨node, ts₄, by simp only [List.length_cons]; omega⟩
  | ⟨.keywordWhile, _, location⟩ :: ts₁ => do
    let ⟨test, ts₂, h₂⟩ ← parenthesised stop ts₁
    let ⟨body, ts₃, h₃⟩ ← block stop ts₂
    let node : Tree := { kind := .loop, children := [test, body], location := some location }
    return ⟨node, ts₃, by simp only [List.length_cons]; omega⟩
  | ⟨.keywordReturn, _, location⟩ :: ts₁ => do
    let ⟨value, ts₂, h₂⟩ ← expression stop ts₁
    let node : Tree := { kind := .giveBack, children := [value], location := some location }
    return ⟨node, ts₂, Nat.lt_succ_of_lt h₂⟩
  | ⟨.identifier, name, location⟩ :: ⟨.assign, _, _⟩ :: ts₁ => do
    let ⟨value, ts₂, h₂⟩ ← expression stop ts₁
    let node : Tree :=
      { kind := .assignment, attributes := [("name", name)], children := [value],
        location := some location }
    return ⟨node, ts₂, by simp only [List.length_cons]; omega⟩
  | ts => expression stop ts
termination_by 3 * ts.length + 1

/-- Statements in braces. -/
def block (stop : Token) (ts : List Token) : Attempt (Parsed ts.length Tree) := do
  let ⟨brace, ts₁, h₁⟩ ← expectToken stop .leftBrace ts
  let ⟨children, ts₂, h₂⟩ ← blockTail stop ts₁
  return ⟨{ kind := .block, children, location := some brace.location }, ts₂, by omega⟩
termination_by 3 * ts.length

/-- The statements of a block and the brace that closes it. -/
def blockTail (stop : Token) (ts : List Token) : Attempt (Parsed ts.length (List Tree)) :=
  match ts with
  | [] => .error ⟨.token .rightBrace, stop⟩
  | ⟨.rightBrace, _, _⟩ :: ts₁ => return ⟨[], ts₁, Nat.lt_succ_self _⟩
  | ts => do
    let ⟨first, ts₁, h₁⟩ ← statement stop ts
    let ⟨others, ts₂, h₂⟩ ← blockTail stop ts₁
    return ⟨first :: others, ts₂, by omega⟩
termination_by 3 * ts.length + 2

/-- The branches after the first one of a conditional. -/
def branches (stop : Token) (ts : List Token) : Attempt (Parsed (ts.length + 1) (List Tree)) :=
  match ts with
  | ⟨.keywordElseif, _, location⟩ :: ts₁ => do
    let ⟨test, ts₂, h₂⟩ ← parenthesised stop ts₁
    let ⟨body, ts₃, h₃⟩ ← block stop ts₂
    let ⟨others, ts₄, h₄⟩ ← branches stop ts₃
    let node : Tree := { kind := .elseIf, children := [test, body], location := some location }
    return ⟨node :: others, ts₄, by simp only [List.length_cons]; omega⟩
  | ⟨.keywordElse, _, location⟩ :: ts₁ => do
    let ⟨body, ts₂, h₂⟩ ← block stop ts₁
    let node : Tree := { kind := .otherwise, children := [body], location := some location }
    return ⟨[node], ts₂, by simp only [List.length_cons]; omega⟩
  | ts => return ⟨[], ts, Nat.lt_succ_self _⟩
termination_by 3 * ts.length

end

/-- The statements up to the end of the input. -/
def statements (stop : Token) (ts : List Token) : Attempt (List Tree) :=
  match ts with
  | [] => .ok []
  | t :: ts => do
    let ⟨first, ts₁, _h₁⟩ ← statement stop (t :: ts)
    let others ← statements stop ts₁
    return first :: others
termination_by ts.length
decreasing_by exact _h₁

/-- The tokens before the first one that ends the input, and that one; a list without one is ended
at the start of `file`. -/
def sentence (file : String) (ts : List Token) : List Token × Token :=
  (ts.takeWhile (·.kind ≠ .endOfInput),
    (ts.find? (·.kind = .endOfInput)).getD (Token.ending (.ofPosition file .start)))

/-- The tree of a program. -/
def program (file : String) (ts : List Token) : Attempt Tree := do
  let (ts, stop) := sentence file ts
  let children ← statements stop ts
  return { kind := .program, children, location := some (peek stop ts).location }

end StackLang.Parser
