/-!
# Similar names

How alike two names are, and the known names most like a misspelt one. The measure counts the
characters in blocks common to both: the longest common block, then the same to the left and to the
right of it.
-/

namespace StackLang.Text.Similarity

/-- A common block: where it starts in each text, and its length. -/
structure Block where
  left : Nat
  right : Nat
  size : Nat
deriving DecidableEq, Inhabited

/-- Lengths of the common runs that end at the character `c` of one text and at each character of
`right`, given those that end one place earlier (`before` is the entry left of the first).
Characters that `skipped` picks end no run. -/
def extendRuns (skipped : Char → Bool) (c : Char) : Nat → List Char → List Nat → List Nat
  | _, [], _ => []
  | before, r :: right, old =>
    (if r = c && !skipped r then before + 1 else 0) ::
      extendRuns skipped c (old.headD 0) right old.tail

/-- The first run longer than the best one, over runs that end at place `i` of the left text and at
places `j`, `j + 1`, … of the right one. -/
def bestOf (i : Nat) : Nat → Block → List Nat → Block
  | _, best, [] => best
  | j, best, run :: runs =>
    bestOf i (j + 1) (if run > best.size then ⟨i + 1 - run, j + 1 - run, run⟩ else best) runs

/-- The longest common block without skipped characters that ends at place `i` or later, or `best`.
-/
def longestFrom (skipped : Char → Bool) (right : List Char) :
    Nat → List Nat → Block → List Char → Block
  | _, _, best, [] => best
  | i, old, best, c :: left =>
    let runs := extendRuns skipped c 0 right old
    longestFrom skipped right (i + 1) runs (bestOf i 0 best runs) left

/-- The number of leading places at which two texts agree. -/
def agreement : List Char → List Char → Nat
  | a :: left, b :: right => if a = b then agreement left right + 1 else 0
  | _, _ => 0

/-- The block that is split at: the longest common block without skipped characters, the earliest in
`left` and then in `right`, extended over equal characters to the left and then to the right. -/
def splitBlock (skipped : Char → Bool) (left right : List Char) : Block :=
  let core := longestFrom skipped right 0 [] ⟨0, 0, 0⟩ left
  let back := agreement (left.take core.left).reverse (right.take core.right).reverse
  let ahead := agreement (left.drop (core.left + core.size)) (right.drop (core.right + core.size))
  ⟨core.left - back, core.right - back, core.size + back + ahead⟩

/-- The number of characters in common blocks. A block never reaches beyond the end of `left`; that
is tested only so that the recursion visibly ends. -/
def matched (skipped : Char → Bool) (left right : List Char) : Nat :=
  let b := splitBlock skipped left right
  if _h : 0 < b.size ∧ b.left + b.size ≤ left.length then
    matched skipped (left.take b.left) (right.take b.right) + b.size +
      matched skipped (left.drop (b.left + b.size)) (right.drop (b.right + b.size))
  else 0
termination_by left.length
decreasing_by
  · have := _h.1
    have := _h.2
    simp only [List.length_take, b] at *
    omega
  · have := _h.1
    have := _h.2
    simp only [List.length_drop, b] at *
    omega

/-- In a long name, the characters that are too frequent to start a block. -/
def popular (name : List Char) (c : Char) : Bool :=
  200 ≤ name.length && name.length / 100 + 1 < name.count c

/-- The likeness of two texts is the fraction `common / total`; two empty texts are wholly alike. -/
structure Likeness where
  common : Nat
  total : Nat
deriving DecidableEq

/-- Twice the characters in common blocks out of all characters. -/
def likeness (name candidate : String) : Likeness :=
  let left := candidate.toList
  let right := name.toList
  if left.length + right.length = 0 then ⟨1, 1⟩
  else ⟨2 * matched (popular right) left right, left.length + right.length⟩

/-- At least three fifths alike. -/
def Likeness.isClose (l : Likeness) : Bool := 3 * l.total ≤ 5 * l.common

/-- Whether the second likeness is smaller than the first, as fractions. -/
def Likeness.exceeds (l m : Likeness) : Bool := m.common * l.total < l.common * m.total

/-- Whether the first candidate comes first: by likeness, then by code points, the larger first. -/
def comesFirst (a b : Likeness × String) : Bool :=
  a.1.exceeds b.1 || (!b.1.exceeds a.1 && !(a.2 < b.2))

/-- Up to three candidates that are close to `name`, the likest first. -/
def closest (name : String) (candidates : List String) : List String :=
  let scored := candidates.map fun candidate => (likeness name candidate, candidate)
  (((scored.filter (·.1.isClose)).mergeSort comesFirst).take 3).map (·.2)

end StackLang.Text.Similarity
