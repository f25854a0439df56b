import StackLang.Text.Padding

/-!
# Places in a source text

A `Position` counts newlines and the characters since the last one. A `Location` is a place in a
named file; trees and tokens built by hand may carry any integers in it.
-/

namespace StackLang

/-- A place that reading a text has reached: the line from 1, the column from 0. -/
structure Position where
  line : Nat
  column : Nat
deriving DecidableEq

namespace Position

/-- Where every text starts. -/
def start : Position := ⟨1, 0⟩

/-- The place after the character `c`. -/
def next (p : Position) (c : Char) : Position :=
  if c = '\n' then ⟨p.line + 1, 0⟩ else ⟨p.line, p.column + 1⟩

/-- The place after the characters `cs`. -/
def after (p : Position) (cs : List Char) : Position := cs.foldl next p

@[simp] theorem after_nil (p : Position) : p.after [] = p := rfl

@[simp] theorem after_cons (p : Position) (c : Char) (cs : List Char) :
    p.after (c :: cs) = (p.next c).after cs := rfl

@[simp] theorem after_append (p : Position) (cs ds : List Char) :
    p.after (cs ++ ds) = (p.after cs).after ds := List.foldl_append

end Position

/-- A line and a column of a named file. -/
structure Location where
  file : String
  line : Int
  column : Int
deriving DecidableEq, Inhabited

namespace Location

/-- The place `p` of the file `file`. -/
def ofPosition (file : String) (p : Position) : Location := ⟨file, p.line, p.column⟩

/-- The form `file:line:column`. -/
def text (l : Location) : String :=
  l.file ++ ":" ++ Text.decimal l.line ++ ":" ++ Text.decimal l.column

end Location

/-- The line with the number `line`, counted from 1, of `lines`. -/
def lineAt? (lines : List String) (line : Int) : Option String :=
  if 0 < line then lines[line.toNat - 1]? else none

end StackLang
