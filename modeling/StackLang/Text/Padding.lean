/-!
# Padded columns

Texts and numbers brought to a least width: text flush left, numbers flush right or led by zeros.
-/

namespace StackLang.Text

/-- The decimal digits of `n`, after a minus sign if it is negative. -/
def decimal (n : Int) : String := toString n

/-- `s` and as many spaces as bring it to `width` characters. -/
def flushLeft (width : Nat) (s : String) : String :=
  s ++ String.ofList (List.replicate (width - s.length) ' ')

/-- As many of `fill` as bring `s` to `width` characters, and `s`. -/
def flushRight (width : Nat) (fill : Char) (s : String) : String :=
  String.ofList (List.replicate (width - s.length) fill) ++ s

/-- The decimal of `n` led by zeros, in which a minus sign takes one place of the width. -/
def zeroPadded (width : Nat) (n : Int) : String :=
  if n < 0 then "-" ++ flushRight (width - 1) '0' (decimal n.natAbs)
  else flushRight width '0' (decimal n)

/-- The hexadecimal digits of `n` in lower case, at least `width` of them. -/
def hexadecimal (width n : Nat) : String :=
  flushRight width '0' (String.ofList (Nat.toDigits 16 n))

theorem length_flushLeft (width : Nat) (s : String) :
    (flushLeft width s).length = max width s.length := by
  simp only [flushLeft, String.length_append, String.length_ofList, List.length_replicate]
  omega

theorem length_flushRight (width : Nat) (fill : Char) (s : String) :
    (flushRight width fill s).length = max width s.length := by
  simp only [flushRight, String.length_append, String.length_ofList, List.length_replicate]
  omega

end StackLang.Text
