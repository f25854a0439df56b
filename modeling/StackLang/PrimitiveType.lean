/-!
# Primitive types

The four types that a declaration may name. Every value is a word whatever its type is.
-/

namespace StackLang

/-- The types that a declaration may name. -/
inductive PrimitiveType where
  | int | bool | string | void
deriving DecidableEq, Inhabited

namespace PrimitiveType

/-- All types. -/
def all : List PrimitiveType := [.int, .bool, .string, .void]

/-- How a type is spelt. -/
def spelling : PrimitiveType → String
  | int => "int"
  | bool => "bool"
  | string => "string"
  | void => "void"

/-- The type with a spelling. -/
def ofSpelling? (s : String) : Option PrimitiveType := all.find? (·.spelling = s)

theorem ofSpelling?_spelling (t : PrimitiveType) : ofSpelling? t.spelling = some t := by
  cases t <;> decide

end PrimitiveType

end StackLang
