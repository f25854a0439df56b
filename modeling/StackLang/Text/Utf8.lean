import StackLang.Text.Padding

/-!
# UTF-8 texts

Bytes to characters, and the first fault of a byte sequence that is no UTF-8: which bytes it
concerns and why.
-/

namespace StackLang.Text.Utf8

/-- Why bytes are not UTF-8. -/
inductive Reason where
  /-- A byte that cannot start a character. -/
  | start
  /-- A character is broken off by a byte that cannot continue it. -/
  | continuation
  /-- The bytes end inside a character. -/
  | ending
deriving DecidableEq

/-- The first fault: where it starts, its first byte, how many bytes it concerns, and why. -/
structure Fault where
  position : Nat
  byte : Nat
  count : Nat
  reason : Reason
deriving DecidableEq

/-- A byte that continues a character. -/
def isContinuation (b : Nat) : Bool := 0x80 ≤ b && b ≤ 0xBF

/-- The bytes allowed in second place after the first byte `b`. -/
def isSecond (b second : Nat) : Bool :=
  isContinuation second &&
    (if b = 0xE0 then 0xA0 ≤ second
     else if b = 0xED then second ≤ 0x9F
     else if b = 0xF0 then 0x90 ≤ second
     else if b = 0xF4 then second ≤ 0x8F
     else true)

/-- The number of bytes of a character that starts with `b`. -/
def lengthFrom? (b : Nat) : Option Nat :=
  if b < 0x80 then some 1
  else if b < 0xC2 then none
  else if b < 0xE0 then some 2
  else if b < 0xF0 then some 3
  else if b < 0xF5 then some 4
  else none

/-- The six low bits of a continuation byte added to the bits before it. -/
def accumulate (bits b : Nat) : Nat := bits * 64 + b % 64

/-- Reads bytes from `position` on. A pending character is given by its first byte, the bytes of it
read so far, the number still missing and its bits. -/
def decodeFrom : Nat → Option (Nat × Nat × Nat × Nat) → List UInt8 → Except Fault (List Char)
  | _, none, [] => .ok []
  | position, some (first, done, _, _), [] => .error ⟨position - done, first, done, .ending⟩
  | position, none, byte :: rest =>
    let b := byte.toNat
    match lengthFrom? b with
    | none => .error ⟨position, b, 1, .start⟩
    | some 1 => (decodeFrom (position + 1) none rest).map (Char.ofNat b :: ·)
    | some 2 => decodeFrom (position + 1) (some (b, 1, 1, b % 32)) rest
    | some 3 => decodeFrom (position + 1) (some (b, 1, 2, b % 16)) rest
    | some _ => decodeFrom (position + 1) (some (b, 1, 3, b % 8)) rest
  | position, some (first, done, missing, bits), byte :: rest =>
    let b := byte.toNat
    if if done = 1 then isSecond first b else isContinuation b then
      if missing ≤ 1 then
        (decodeFrom (position + 1) none rest).map (Char.ofNat (accumulate bits b) :: ·)
      else decodeFrom (position + 1) (some (first, done + 1, missing - 1, accumulate bits b)) rest
    else .error ⟨position - done, first, done, .continuation⟩

/-- The characters that the bytes encode. -/
def decode (bytes : List UInt8) : Except Fault (List Char) := decodeFrom 0 none bytes

/-- The text of a reason. -/
def Reason.text : Reason → String
  | .start => "invalid start byte"
  | .continuation => "invalid continuation byte"
  | .ending => "unexpected end of data"

/-- The text of a fault; the byte is named if it is the only one. -/
def Fault.message (f : Fault) : String :=
  if f.count = 1 then
    "'utf-8' codec can't decode byte 0x" ++ hexadecimal 2 f.byte ++ " in position " ++
      decimal f.position ++ ": " ++ f.reason.text
  else
    "'utf-8' codec can't decode bytes in position " ++ decimal f.position ++ "-" ++
      decimal (f.position + f.count - 1) ++ ": " ++ f.reason.text

end StackLang.Text.Utf8
