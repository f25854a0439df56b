import StackLang.Operation
import StackLang.Text.Blank

/-!
# Programs and their listings

A program is a sequence of instructions with the entries of its functions, the number of its global
slots and its table of texts. Its listing has a line for each instruction, with the address, and a
line for each label above the instruction that carries it.
-/

namespace StackLang

/-- An operation with the label of its address and a comment. -/
structure Instruction where
  operation : Operation
  label : Option String := none
  comment : Option String := none
deriving DecidableEq, Inhabited

namespace Instruction

/-- The operation with its operand. -/
def text (i : Instruction) : String := i.operation.text

/-- A label or comment that is there and not empty. -/
def present (note : Option String) : Option String := note.filter (!·.isEmpty)

/-- The line of a listing, without blanks at its end. -/
def listed (address : Nat) (i : Instruction) : String :=
  let comment := match present i.comment with
    | some c => " ; " ++ c
    | none => ""
  let line := Text.zeroPadded 4 address ++ ": " ++ Text.flushLeft 17 i.text ++ comment
  String.ofList (Text.dropEnd Text.isBlank line.toList)

end Instruction

/-- A program ready to run. -/
structure Program where
  code : Array Instruction := #[]
  functions : List (String × Nat) := []
  globals : Int := 0
  constants : Array String := #[]
deriving DecidableEq, Inhabited

namespace Program

/-- The number of instructions. -/
def size (p : Program) : Nat := p.code.size

/-- The instruction at an address; negative addresses count from the end. -/
def instruction? (p : Program) (address : Int) : Option Instruction :=
  if 0 ≤ address then p.code[address.toNat]?
  else if -address ≤ p.code.size then p.code[p.code.size - address.natAbs]?
  else none

/-- The instructions with their addresses. -/
def numbered (p : Program) : List (Nat × Instruction) :=
  p.code.toList.zipIdx.map fun x => (x.2, x.1)

/-- The labels with their addresses. -/
def labels (p : Program) : List (Nat × String) :=
  p.numbered.filterMap fun x => (Instruction.present x.2.label).map (x.1, ·)

/-- The lines of the listing. -/
def listingLines (p : Program) : List String :=
  p.numbered.flatMap fun x =>
    match Instruction.present x.2.label with
    | some label => [label ++ ":", x.2.listed x.1]
    | none => [x.2.listed x.1]

/-- The listing. -/
def listing (p : Program) : String := "\n".intercalate p.listingLines

end Program

end StackLang
