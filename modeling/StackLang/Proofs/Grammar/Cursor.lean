import StackLang.Proofs.Grammar.Earliest

/-!
# Reading tokens by position

The rules of the grammar once more, as loops that move a position over a list of tokens. The
position moves by one token at a time and never past a token that ends the input. Nothing here says
that the tokens get fewer: the calls are cut off at a depth, and a loop that never ends has no
outcome at any depth. That all of them have one, and that it is the parser's, is to be proved.
-/

namespace StackLang.Cursor

open Token (Kind)
open StackLang.Parser (Expectation Refusal binaryNode)
open Grammar (negationNode numberNode variableNode callNode parameterNode parametersNode
  functionNode declarationNode assignmentNode plainNode)

/-- A reader moves a position. It refuses a token, or comes to a value; if it is cut off, it comes to
nothing. -/
abbrev Reader := StateT Nat (ExceptT Refusal Option)

/-- Calls that go too deep are cut off. -/
def cutOff {α : Type} : Reader α := fun _ => ExceptT.mk none

/-- The token at a position; behind the last token, that token. -/
def tokenAt (tokens : List Token) (i : Nat) : Token := tokens.getD i (tokens.getLastD default)

variable (tokens : List Token)

/-- The token at some distance from the position. -/
def look (offset : Nat) : Reader Token := do
  let i ← get
  return tokenAt tokens (i + offset)

/-- Takes a token; the end of the input is not passed. -/
def advance : Reader Token := do
  let token ← look tokens 0
  if token.kind = .endOfInput then
    return token
  else
    modify (· + 1)
    return token

/-- Takes a token that satisfies `p`. -/
def expectWhere (p : Kind → Bool) (expected : Expectation) : Reader Token := do
  let token ← look tokens 0
  if p token.kind then advance tokens else throw ⟨expected, token⟩

/-- Takes a token of the kind `kind`. -/
def expect (kind : Kind) (expected : Expectation) : Reader Token :=
  expectWhere tokens (· = kind) expected

/-- Takes the token that is always spelt the same. -/
def expectToken (kind : Kind) : Reader Token := expect tokens kind (.token kind)

/-! ## Expressions -/

/-- The minus signs before a primary, the last one first. -/
def signLoop : Nat → List Token → Reader (List Token)
  | 0, _ => cutOff
  | depth + 1, signs => do
    let token ← look tokens 0
    if token.kind = .minus then
      let sign ← advance tokens
      signLoop depth (sign :: signs)
    else return signs

mutual

/-- A sum of products. -/
def expression : Nat → Reader Tree
  | 0 => cutOff
  | depth + 1 => do
    let left ← term depth
    sumLoop depth left

/-- The further products of a sum. -/
def sumLoop : Nat → Tree → Reader Tree
  | 0, _ => cutOff
  | depth + 1, left => do
    let token ← look tokens 0
    if token.kind.isAdditive then
      let operator ← advance tokens
      let right ← term depth
      sumLoop depth (binaryNode .expression operator left right)
    else return left

/-- A product of factors. -/
def term : Nat → Reader Tree
  | 0 => cutOff
  | depth + 1 => do
    let left ← factor depth
    productLoop depth left

/-- The further factors of a product. -/
def productLoop : Nat → Tree → Reader Tree
  | 0, _ => cutOff
  | depth + 1, left => do
    let token ← look tokens 0
    if token.kind.isMultiplicative then
      let operator ← advance tokens
      let right ← factor depth
      productLoop depth (binaryNode .term operator left right)
    else return left

/-- Minus signs and the primary that they apply to; the last sign applies first. -/
def factor : Nat → Reader Tree
  | 0 => cutOff
  | depth + 1 => do
    let signs ← signLoop tokens depth []
    let operand ← primary depth
    return signs.foldl (fun operand sign => negationNode sign operand) operand

/-- A sum in parentheses, a number, a call or a variable. -/
def primary : Nat → Reader Tree
  | 0 => cutOff
  | depth + 1 => do
    let token ← look tokens 0
    if token.kind = .leftParen then
      let _ ← advance tokens
      let inner ← expression depth
      let _ ← expectToken tokens .rightParen
      return inner
    else if token.kind = .number then
      let _ ← advance tokens
      return numberNode token
    else if token.kind = .identifier then
      let next ← look tokens 1
      if next.kind = .leftParen then
        let name ← advance tokens
        let _ ← expectToken tokens .leftParen
        let arguments ← arguments depth
        return callNode name arguments
      else
        let _ ← advance tokens
        return variableNode token
    else throw ⟨.expression, token⟩

/-- The arguments of a call and the parenthesis that closes them. -/
def arguments : Nat → Reader (List Tree)
  | 0 => cutOff
  | depth + 1 => do
    let token ← look tokens 0
    if token.kind = .rightParen then
      let _ ← advance tokens
      return []
    else
      let first ← expression depth
      let others ← argumentLoop depth
      return first :: others

/-- The further arguments of a call and the parenthesis that closes them. -/
def argumentLoop : Nat → Reader (List Tree)
  | 0 => cutOff
  | depth + 1 => do
    let token ← look tokens 0
    if token.kind = .comma then
      let _ ← advance tokens
      let next ← expression depth
      let others ← argumentLoop depth
      return next :: others
    else
      let _ ← expectToken tokens .rightParen
      return []

end

/-- Two sums compared with each other. -/
def condition (depth : Nat) : Reader Tree := do
  let left ← expression tokens depth
  let operator ← expectWhere tokens Kind.isComparison .comparison
  let right ← expression tokens depth
  return binaryNode .condition operator left right

/-- A condition in parentheses. -/
def parenthesised (depth : Nat) : Reader Tree := do
  let _ ← expectToken tokens .leftParen
  let inner ← condition tokens depth
  let _ ← expectToken tokens .rightParen
  return inner

/-! ## Statements -/

/-- A parameter with its type. -/
def parameter : Reader Tree := do
  let name ← expect tokens .identifier .parameterName
  let _ ← expectToken tokens .colon
  let type ← expectWhere tokens Kind.isType .parameterType
  return parameterNode name type

/-- The further parameters of a function. -/
def parameterLoop : Nat → Reader (List Tree)
  | 0 => cutOff
  | depth + 1 => do
    let token ← look tokens 0
    if token.kind = .comma then
      let _ ← advance tokens
      let next ← parameter tokens
      let others ← parameterLoop depth
      return next :: others
    else return []

/-- The parameters of a function. -/
def parameters (depth : Nat) : Reader (List Tree) := do
  let token ← look tokens 0
  if token.kind = .rightParen then return []
  else
    let first ← parameter tokens
    let others ← parameterLoop tokens depth
    return first :: others

/-- The head of a function: its name, its parameters and the type of its value. -/
def functionHead (depth : Nat) : Reader (String × Tree × String) := do
  let name ← expect tokens .identifier .functionName
  let _ ← expectToken tokens .leftParen
  let token ← look tokens 0
  let children ← parameters tokens depth
  let _ ← expectToken tokens .rightParen
  let _ ← expectToken tokens .arrow
  let type ← expectWhere tokens Kind.isType .returnType
  return (name.lexeme, parametersNode token.location children, type.lexeme)

/-- A declaration after the word that starts it, which stands at `location`. -/
def declaration (depth : Nat) (location : Location) : Reader Tree := do
  let name ← expect tokens .identifier .variableName
  let _ ← expectToken tokens .colon
  let type ← expectWhere tokens Kind.isType .variableType
  let token ← look tokens 0
  if token.kind = .assign then
    let _ ← advance tokens
    let value ← expression tokens depth
    return declarationNode location name.lexeme type.lexeme (some value)
  else return declarationNode location name.lexeme type.lexeme none

mutual

/-- Any statement. -/
def statement : Nat → Reader Tree
  | 0 => cutOff
  | depth + 1 => do
    let token ← look tokens 0
    if token.kind = .keywordFn then
      let _ ← advance tokens
      let head ← functionHead tokens depth
      let body ← block depth
      return functionNode token.location head.1 head.2.1 head.2.2 body
    else if token.kind = .keywordVar then
      let _ ← advance tokens
      declaration tokens depth token.location
    else if token.kind = .keywordIf then
      let _ ← advance tokens
      let test ← parenthesised tokens depth
      let body ← block depth
      let others ← branchLoop depth
      return plainNode .conditional token.location (test :: body :: others)
    else if token.kind = .keywordWhile then
      let _ ← advance tokens
      let test ← parenthesised tokens depth
      let body ← block depth
      return plainNode .loop token.location [test, body]
    else if token.kind = .keywordReturn then
      let _ ← advance tokens
      let value ← expression tokens depth
      return plainNode .giveBack token.location [value]
    else if token.kind = .identifier then
      let next ← look tokens 1
      if next.kind = .assign then
        let name ← advance tokens
        let _ ← expectToken tokens .assign
        let value ← expression tokens depth
        return assignmentNode name.location name.lexeme value
      else expression tokens depth
    else expression tokens depth

/-- Statements in braces. -/
def block : Nat → Reader Tree
  | 0 => cutOff
  | depth + 1 => do
    let brace ← expectToken tokens .leftBrace
    let children ← blockLoop depth
    return plainNode .block brace.location children

/-- The statements of a block and the brace that closes it. -/
def blockLoop : Nat → Reader (List Tree)
  | 0 => cutOff
  | depth + 1 => do
    let token ← look tokens 0
    if token.kind = .rightBrace ∨ token.kind = .endOfInput then
      let _ ← expectToken tokens .rightBrace
      return []
    else
      let first ← statement depth
      let others ← blockLoop depth
      return first :: others

/-- The branches after the first one of a conditional. -/
def branchLoop : Nat → Reader (List Tree)
  | 0 => cutOff
  | depth + 1 => do
    let token ← look tokens 0
    if token.kind = .keywordElseif then
      let _ ← advance tokens
      let test ← parenthesised tokens depth
      let body ← block depth
      let others ← branchLoop depth
      return plainNode .elseIf token.location [test, body] :: others
    else if token.kind = .keywordElse then
      let _ ← advance tokens
      let body ← block depth
      return [plainNode .otherwise token.location [body]]
    else return []

end

/-- The statements up to the end of the input. -/
def statementLoop : Nat → Reader (List Tree)
  | 0 => cutOff
  | depth + 1 => do
    let token ← look tokens 0
    if token.kind = .endOfInput then return []
    else
      let first ← statement tokens depth
      let others ← statementLoop depth
      return first :: others

/-- The tree of a program. -/
def program (depth : Nat) : Reader Tree := do
  let token ← look tokens 0
  let children ← statementLoop tokens depth
  return plainNode .program token.location children

end StackLang.Cursor
