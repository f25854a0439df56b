import StackLang.Token.Lexer
import StackLang.Tree.Parser

/-!
# Source texts

The tokens and the tree of a source text, with diagnostics that quote its lines. A character that
starts no token is quoted with the line that newlines bound; all else is quoted by the lines of the
text.
-/

namespace StackLang.Source

/-- The lines of a source text. -/
def lines (source : String) : List String := (Text.lines source.toList).map String.ofList

/-- The hint for a character that starts no token. -/
def characterHint (c : Char) : Option String :=
  if c = '!' then some "did you mean '!='?" else none

/-- The diagnostic of a character that starts no token. -/
def refusedCharacter (file source : String) (p : Position) (c : Char) : Diagnostic :=
  { cause := .invalidCharacter c (characterHint c), location := some (.ofPosition file p),
    sourceLine := some (String.ofList (Text.newlineLine (p.line - 1) source.toList)) }

/-- The tokens of a source text, the last of which ends the input. -/
def tokens (file source : String) : Except Diagnostic (List Token) :=
  match Token.scan file .start source.toList with
  | .ok ts => .ok ts
  | .error (p, c) => .error (refusedCharacter file source p c)

/-- The tree of a token list, refused with the lines given. -/
def treeOfTokens (file : String) (lines : List String) (ts : List Token) : Except Diagnostic Tree :=
  match Parser.program file ts with
  | .ok t => .ok t
  | .error r => .error (r.diagnostic lines)

/-- The tree of a source text. -/
def tree (file source : String) : Except Diagnostic Tree := do
  let ts ← tokens file source
  treeOfTokens file (lines source) ts

end StackLang.Source
