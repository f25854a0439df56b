import StackLang.Location
import StackLang.Text.Quoted

/-!
# Tokens

The words of the language: their kinds, the name and the fixed spelling of each kind, and a token as
a kind with its text and place.
-/

namespace StackLang

namespace Token

/-- The kinds of tokens. -/
inductive Kind where
  | endOfInput | identifier | number
  | keywordFn | keywordReturn | keywordIf | keywordElse | keywordElseif | keywordWhile | keywordVar
  | typeInt | typeBool | typeString | typeVoid
  | plus | minus | star | slash
  | equal | notEqual | less | greater | lessEqual | greaterEqual
  | comma | colon | leftParen | rightParen | leftBrace | rightBrace | arrow | assign
deriving DecidableEq, Inhabited

namespace Kind

/-- All kinds. -/
def all : List Kind :=
  [.endOfInput, .identifier, .number, .keywordFn, .keywordReturn, .keywordIf, .keywordElse,
    .keywordElseif, .keywordWhile, .keywordVar, .typeInt, .typeBool, .typeString, .typeVoid, .plus,
    .minus, .star, .slash, .equal, .notEqual, .less, .greater, .lessEqual, .greaterEqual, .comma,
    .colon, .leftParen, .rightParen, .leftBrace, .rightBrace, .arrow, .assign]

/-- The name under which a kind is listed. -/
def name : Kind → String
  | endOfInput => "EOF"
  | identifier => "IDENTIFIER"
  | number => "NUMERIC"
  | keywordFn => "FN"
  | keywordReturn => "RETURN"
  | keywordIf => "IF"
  | keywordElse => "ELSE"
  | keywordElseif => "ELSEIF"
  | keywordWhile => "WHILE"
  | keywordVar => "VAR"
  | typeInt => "INT"
  | typeBool => "BOOL"
  | typeString => "STRING"
  | typeVoid => "VOID"
  | plus => "PLUS"
  | minus => "MINUS"
  | star => "STAR"
  | slash => "SLASH"
  | equal => "EQUAL"
  | notEqual => "NOT_EQUAL"
  | less => "LESS"
  | greater => "GREATER"
  | lessEqual => "LESS_EQUAL"
  | greaterEqual => "GREATER_EQUAL"
  | comma => "COMMA"
  | colon => "COLON"
  | leftParen => "LPAREN"
  | rightParen => "RPAREN"
  | leftBrace => "LBRACE"
  | rightBrace => "RBRACE"
  | arrow => "ARROW"
  | assign => "ASSIGN"

/-- The kind listed under a name. -/
def ofName? (name : String) : Option Kind := all.find? (·.name = name)

/-- The only spelling of a kind, empty for the kinds that have none or many. -/
def spelling : Kind → String
  | endOfInput | identifier | number => ""
  | keywordFn => "fn"
  | keywordReturn => "return"
  | keywordIf => "if"
  | keywordElse => "else"
  | keywordElseif => "elseif"
  | keywordWhile => "while"
  | keywordVar => "var"
  | typeInt => "int"
  | typeBool => "bool"
  | typeString => "string"
  | typeVoid => "void"
  | plus => "+"
  | minus => "-"
  | star => "*"
  | slash => "/"
  | equal => "=="
  | notEqual => "!="
  | less => "<"
  | greater => ">"
  | lessEqual => "<="
  | greaterEqual => ">="
  | comma => ","
  | colon => ":"
  | leftParen => "("
  | rightParen => ")"
  | leftBrace => "\x7b"
  | rightBrace => "\x7d"
  | arrow => "->"
  | assign => "="

/-- The names of the primitive types. -/
def isType : Kind → Bool
  | typeInt | typeBool | typeString | typeVoid => true
  | _ => false

/-- The six comparison operators. -/
def isComparison : Kind → Bool
  | equal | notEqual | less | greater | lessEqual | greaterEqual => true
  | _ => false

/-- The operators of a sum. -/
def isAdditive : Kind → Bool
  | plus | minus => true
  | _ => false

/-- The operators of a product. -/
def isMultiplicative : Kind → Bool
  | star | slash => true
  | _ => false

/-- The words that are no identifiers. -/
def keywords : List Kind :=
  [.keywordFn, .keywordReturn, .keywordIf, .keywordElse, .keywordElseif, .keywordWhile, .keywordVar,
    .typeInt, .typeBool, .typeString, .typeVoid]

/-- The kind of a word: a keyword if it is spelt like one, else an identifier. -/
def ofWord (word : String) : Kind := (keywords.find? (·.spelling = word)).getD .identifier

theorem mem_all (k : Kind) : k ∈ all := by cases k <;> decide

theorem ofName?_name (k : Kind) : ofName? k.name = some k := by cases k <;> decide

end Kind

end Token

/-- A word of the source text with its place. -/
structure Token where
  kind : Token.Kind
  lexeme : String
  location : Location
deriving DecidableEq, Inhabited

namespace Token

/-- The token that ends the input at `location`. -/
def ending (location : Location) : Token := ⟨.endOfInput, "", location⟩

/-- How a token is named in a message. -/
def described (t : Token) : String :=
  if t.kind = .endOfInput then "end of input" else t.lexeme

/-- A token with kind, quoted text and place. -/
def shown (t : Token) : String :=
  "Token(" ++ t.kind.name ++ ", " ++ Text.quoted t.lexeme ++ ", " ++ Text.decimal t.location.line ++
    ":" ++ Text.decimal t.location.column ++ ")"

/-- The line of a token list. -/
def listed (t : Token) : String :=
  Text.flushRight 4 ' ' (Text.decimal t.location.line) ++ ":" ++
    Text.flushLeft 3 (Text.decimal t.location.column) ++ " " ++ Text.flushLeft 14 t.kind.name ++
    " " ++ t.lexeme

end Token

end StackLang
