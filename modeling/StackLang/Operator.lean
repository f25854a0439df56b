import StackLang.Word

/-!
# Operators

The ten operators with two operands: how they are spelt and what they compute.
-/

namespace StackLang

/-- The operators with two operands. -/
inductive Operator where
  | add | sub | mul | div
  | equal | notEqual | greater | less | greaterEqual | lessEqual
deriving DecidableEq, Inhabited

namespace Operator

/-- All operators. -/
def all : List Operator :=
  [.add, .sub, .mul, .div, .equal, .notEqual, .greater, .less, .greaterEqual, .lessEqual]

/-- How an operator is spelt. -/
def spelling : Operator → String
  | add => "+"
  | sub => "-"
  | mul => "*"
  | div => "/"
  | equal => "=="
  | notEqual => "!="
  | greater => ">"
  | less => "<"
  | greaterEqual => ">="
  | lessEqual => "<="

/-- The operator with a spelling. -/
def ofSpelling? (s : String) : Option Operator := all.find? (·.spelling = s)

/-- The word for a truth value. -/
def truth (b : Bool) : Int := if b then 1 else 0

/-- The word that an operator computes; division by zero has none. -/
def compute? (op : Operator) (a b : Int) : Option Int :=
  match op with
  | add => some (Word.wrap (a + b))
  | sub => some (Word.wrap (a - b))
  | mul => some (Word.wrap (a * b))
  | div => Word.divide? a b
  | equal => some (truth (a = b))
  | notEqual => some (truth (a ≠ b))
  | greater => some (truth (a > b))
  | less => some (truth (a < b))
  | greaterEqual => some (truth (a ≥ b))
  | lessEqual => some (truth (a ≤ b))

theorem mem_all (op : Operator) : op ∈ all := by cases op <;> decide

theorem ofSpelling?_spelling (op : Operator) : ofSpelling? op.spelling = some op := by
  cases op <;> decide

theorem isWord_truth (b : Bool) : Word.IsWord (truth b) := by cases b <;> decide

/-- Whatever is computed is a word. -/
theorem isWord_of_compute? {op : Operator} {a b c : Int} (h : op.compute? a b = some c) :
    Word.IsWord c := by
  cases op <;> simp only [compute?, Word.divide?, Option.some.injEq] at h
  case div =>
    split at h
    · simp at h
    · exact Option.some.inj h ▸ Word.isWord_wrap _
  all_goals subst h
  case add | sub | mul => exact Word.isWord_wrap _
  all_goals exact isWord_truth _

/-- Only a division by zero has no result. -/
theorem compute?_eq_none_iff {op : Operator} {a b : Int} :
    op.compute? a b = none ↔ op = .div ∧ b = 0 := by
  cases op <;> simp [compute?, Word.divide?]

end Operator

end StackLang
