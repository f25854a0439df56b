/-!
# 32-bit signed words

The machine computes with integers in `-2^31 .. 2^31 - 1`. They are kept as `Int`, and `wrap` brings
any integer into that range; `divide?` is division toward zero, which has no value for divisor zero.
-/

namespace StackLang.Word

/-- The least word. -/
def least : Int := -0x80000000

/-- The greatest word. -/
def greatest : Int := 0x7fffffff

/-- The word congruent to `n` modulo `2^32`. -/
def wrap (n : Int) : Int := n.bmod 0x100000000

/-- The quotient of `a` by `b`, cut toward zero and wrapped. -/
def divide? (a b : Int) : Option Int :=
  if b = 0 then none else some (wrap (a.tdiv b))

/-- Being a word. -/
def IsWord (n : Int) : Prop := least ≤ n ∧ n ≤ greatest

instance (n : Int) : Decidable (IsWord n) := inferInstanceAs (Decidable (_ ∧ _))

theorem isWord_wrap (n : Int) : IsWord (wrap n) := by
  have hlo : -0x80000000 ≤ n.bmod 0x100000000 := Int.le_bmod (by decide)
  have hhi : n.bmod 0x100000000 < 0x80000000 := Int.bmod_lt (by decide)
  exact ⟨hlo, Int.le_sub_one_of_lt hhi⟩

theorem wrap_eq_self {n : Int} (h : IsWord n) : wrap n = n := by
  obtain ⟨hlo, hhi⟩ := h
  simp only [least, greatest] at hlo hhi
  simp only [wrap, Int.bmod_def]
  omega

end StackLang.Word
