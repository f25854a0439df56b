import StackLang.Text.Blank

/-!
# Decimal numerals

Decimal digits of every script, and the reading of an integer with a sign, underscores between
digits and blanks around it.
-/

namespace StackLang.Text

/-- The code point of digit zero in each run of ten decimal digits, as of Unicode 14. -/
def decimalZeros : List Nat :=
  [0x30, 0x660, 0x6F0, 0x7C0, 0x966, 0x9E6, 0xA66, 0xAE6, 0xB66, 0xBE6, 0xC66, 0xCE6, 0xD66, 0xDE6,
   0xE50, 0xED0, 0xF20, 0x1040, 0x1090, 0x17E0, 0x1810, 0x1946, 0x19D0, 0x1A80, 0x1A90, 0x1B50,
   0x1BB0, 0x1C40, 0x1C50, 0xA620, 0xA8D0, 0xA900, 0xA9D0, 0xA9F0, 0xAA50, 0xABF0, 0xFF10, 0x104A0,
   0x10D30, 0x11066, 0x110F0, 0x11136, 0x111D0, 0x112F0, 0x11450, 0x114D0, 0x11650, 0x116C0,
   0x11730, 0x118E0, 0x11950, 0x11C50, 0x11D50, 0x11DA0, 0x16A60, 0x16AC0, 0x16B50, 0x1D7CE,
   0x1D7D8, 0x1D7E2, 0x1D7EC, 0x1D7F6, 0x1E140, 0x1E2F0, 0x1E950, 0x1FBF0]

/-- The value of a decimal digit of any script. -/
def digitValue? (c : Char) : Option Nat :=
  decimalZeros.findSome? fun z =>
    if z ≤ c.toNat ∧ c.toNat < z + 10 then some (c.toNat - z) else none

/-- The number that the decimal digits `ds` denote, the first the most significant. -/
def ofDigits (ds : List Nat) : Nat := ds.foldl (fun n d => 10 * n + d) 0

/-- A numeral longer than this is not converted. -/
def digitLimit : Nat := 4300

/-- The digits of a nonempty run in which single underscores may stand between two digits. -/
def digitRun? : List Char → Option (List Nat)
  | [] => none
  | [c] => (digitValue? c).map ([·])
  | c :: '_' :: rest => do
    let d ← digitValue? c
    let ds ← digitRun? rest
    return d :: ds
  | c :: rest => do
    let d ← digitValue? c
    let ds ← digitRun? rest
    return d :: ds

/-- The blanks allowed around an integer; the information separators are not among them. -/
def isIntegerBlank (c : Char) : Bool :=
  isBlank c && !(0x1C ≤ c.toNat && c.toNat ≤ 0x1F)

/-- The natural number written by a run of at most `digitLimit` digits. -/
def readDigits? (cs : List Char) : Option Nat := do
  let ds ← digitRun? cs
  if ds.length ≤ digitLimit then some (ofDigits ds) else none

/-- The integer written by `cs`: blanks around it, at most one sign, and digits. -/
def readInteger? (cs : List Char) : Option Int :=
  match trim isIntegerBlank cs with
  | '-' :: rest => (readDigits? rest).map (-Int.ofNat ·)
  | '+' :: rest => (readDigits? rest).map Int.ofNat
  | rest => (readDigits? rest).map Int.ofNat

/-- The ten ASCII digits. -/
def isAsciiDigit (c : Char) : Bool := '0' ≤ c && c ≤ '9'

/-- The number written by a text of ASCII digits. -/
def ofAsciiDigits (cs : List Char) : Nat :=
  ofDigits (cs.map fun c => c.toNat - '0'.toNat)

end StackLang.Text
