import StackLang.Text.Quoted

/-!
# Paths

A path is a root and parts; empty parts and dots for the directory itself are left out. Files are
named by the text of a path, which may differ from the text that was typed.
-/

namespace StackLang

/-- The parts of a text between separators, at least one. -/
def Text.partsAt (separator : Char) (cs : List Char) : List (List Char) :=
  cs.foldr
    (fun c parts =>
      if c = separator then [] :: parts
      else
        match parts with
        | part :: others => (c :: part) :: others
        | [] => [[c]])
    [[]]

/-- The parts of a typed path as they stand. -/
def rawParts (s : String) : List String := (Text.partsAt '/' s.toList).map String.ofList

/-- A path in its normal form. -/
structure Path where
  /-- One slash or two at the start, or nothing. -/
  root : String
  parts : List String
deriving DecidableEq

namespace Path

/-- The root of a typed path: two slashes stay two, any other number of them counts as one. -/
def rootOf (s : String) : String :=
  match (s.toList.takeWhile (· = '/')).length with
  | 0 => ""
  | 2 => "//"
  | _ => "/"

/-- The normal form of a typed path. -/
def ofText (s : String) : Path :=
  ⟨rootOf s, (rawParts s).filter fun part => !part.isEmpty && part != "."⟩

/-- The text of a path; the path without root and parts is a dot. -/
def text (p : Path) : String :=
  if p.root.isEmpty && p.parts.isEmpty then "." else p.root ++ "/".intercalate p.parts

/-- A name without its suffix. The last dot starts the suffix unless it is the first or last
character. -/
def stem (name : List Char) : List Char :=
  let after := name.reverse.takeWhile (· != '.')
  match name.reverse.dropWhile (· != '.') with
  | '.' :: before => if after.isEmpty || before.isEmpty then name else before.reverse
  | _ => name

/-- The path whose last part has another suffix. -/
def withSuffix (p : Path) (suffix : String) : Path :=
  match p.parts.getLast? with
  | none => p
  | some name =>
    { p with parts := p.parts.dropLast ++ [String.ofList (stem name.toList) ++ suffix] }

end Path

end StackLang
