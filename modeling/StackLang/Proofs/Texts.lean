import Mathlib.Data.List.Basic
import StackLang.Text.Blank
import StackLang.Text.Numeral
import StackLang.Text.Padding

/-!
# Texts and their parts

Where texts that are put together can be taken apart again, what trimming takes away, and how
decimals are written and read.
-/

namespace StackLang

/-! ## Texts that go on in the same way -/

/-- Where two texts leave a class of characters, both parts of them agree. -/
theorem Text.append_inj_of_class {p : Char → Bool} {cs ds xs ys : List Char}
    (hcs : ∀ c ∈ cs, p c = true) (hds : ∀ c ∈ ds, p c = true) (hxs : ∀ c ∈ xs.head?, p c = false)
    (hys : ∀ c ∈ ys.head?, p c = false) (h : cs ++ xs = ds ++ ys) : cs = ds ∧ xs = ys := by
  have hstops {zs : List Char} (hzs : ∀ c ∈ zs.head?, p c = false) : zs.takeWhile p = [] := by
    cases zs with
    | nil => rfl
    | cons c zs => exact List.takeWhile_cons_of_neg (by simp [hzs c rfl])
  have htake := congrArg (List.takeWhile p) h
  rw [List.takeWhile_append_of_pos hcs, List.takeWhile_append_of_pos hds, hstops hxs, hstops hys,
    List.append_nil, List.append_nil] at htake
  subst htake
  exact ⟨rfl, List.append_cancel_left h⟩

theorem Text.not_mem_intercalate {c : Char} {separator : List Char} {parts : List (List Char)}
    (hseparator : c ∉ separator) (hparts : ∀ cs ∈ parts, c ∉ cs) :
    c ∉ separator.intercalate parts := by
  induction parts with
  | nil => simp
  | cons cs parts ih =>
    obtain ⟨hcs, hparts⟩ := List.forall_mem_cons.mp hparts
    by_cases hlast : parts = []
    · rwa [hlast, List.intercalate_singleton]
    · rw [List.intercalate_cons_of_ne_nil hlast]
      simp [hcs, hseparator, ih hparts]

/-- Lists of equal length agree if they do with a separator in between that is in none of them. -/
theorem Text.intercalate_inj {c : Char} {separator : List Char} {xs ys : List (List Char)}
    (hlength : xs.length = ys.length) (hxs : ∀ cs ∈ xs, c ∉ cs) (hys : ∀ cs ∈ ys, c ∉ cs)
    (h : (c :: separator).intercalate xs = (c :: separator).intercalate ys) : xs = ys := by
  induction xs generalizing ys with
  | nil => exact (List.length_eq_zero_iff.mp hlength.symm).symm
  | cons x xs ih =>
    cases ys with
    | nil => cases hlength
    | cons y ys =>
      have hothers : xs.length = ys.length := Nat.succ.inj hlength
      have hempty : xs = [] ↔ ys = [] := by
        rw [← List.length_eq_zero_iff, hothers, List.length_eq_zero_iff]
      obtain ⟨hx, hxs⟩ := List.forall_mem_cons.mp hxs
      obtain ⟨hy, hys⟩ := List.forall_mem_cons.mp hys
      by_cases hlast : xs = []
      · rw [hempty.mp hlast, hlast, List.intercalate_singleton, List.intercalate_singleton] at h
        rw [h, hempty.mp hlast, hlast]
      · rw [List.intercalate_cons_of_ne_nil hlast,
          List.intercalate_cons_of_ne_nil (hempty.not.mp hlast), List.append_assoc,
          List.append_assoc] at h
        have hout {cs : List Char} (hcs : c ∉ cs) : ∀ d ∈ cs, (d != c) = true := fun d hd =>
          bne_iff_ne.mpr (ne_of_mem_of_not_mem hd hcs)
        obtain ⟨hfirst, hrest⟩ :=
          Text.append_inj_of_class (hout hx) (hout hy) (by simp) (by simp) h
        rw [hfirst, ih hothers hxs hys (List.append_cancel_left hrest)]

namespace Text

/-! ## Trimmed ends -/

theorem dropEnd_eq_self {p : Char → Bool} {cs : List Char} (h : ∀ c ∈ cs.getLast?, p c = false) :
    dropEnd p cs = cs := by
  rw [← List.head?_reverse] at h
  cases hcs : cs.reverse with
  | nil => simpa [dropEnd, hcs] using (List.reverse_eq_nil_iff.mp hcs).symm
  | cons c rest =>
    rw [hcs] at h
    rw [dropEnd, hcs, List.dropWhile_cons_of_neg (by simp [h c rfl]), ← hcs, List.reverse_reverse]

theorem dropEnd_append_of_all {p : Char → Bool} {cs ds : List Char} (h : ∀ c ∈ ds, p c = true) :
    dropEnd p (cs ++ ds) = dropEnd p cs := by
  rw [dropEnd, List.reverse_append, List.dropWhile_append_of_pos (by simpa using h)]
  rfl

/-- A text without spaces at its end is found again in its column. -/
theorem flushLeft_inj {width : Nat} {s t : String} (hs : ∀ c ∈ s.toList.getLast?, c ≠ ' ')
    (ht : ∀ c ∈ t.toList.getLast?, c ≠ ' ') (h : flushLeft width s = flushLeft width t) :
    s = t := by
  have hdrop : ∀ u : String, (∀ c ∈ u.toList.getLast?, c ≠ ' ') →
      dropEnd (· == ' ') (flushLeft width u).toList = u.toList := by
    intro u hu
    rw [flushLeft, String.toList_append, String.toList_ofList, dropEnd_append_of_all (by simp)]
    exact dropEnd_eq_self fun c hc => by simpa using hu c hc
  have hlists := congrArg (fun u : String => dropEnd (· == ' ') u.toList) h
  exact String.toList_inj.mp ((hdrop s hs).symm.trans (hlists.trans (hdrop t ht)))

/-! ## Decimals -/

theorem toList_decimal (n : Nat) : (decimal n).toList = Nat.toDigits 10 n := by
  have hdecimal : decimal n = n.repr := rfl
  rw [hdecimal, Nat.repr_eq_ofList_toDigits, String.toList_ofList]

theorem toList_decimal_negSucc (n : Nat) :
    (decimal (.negSucc n)).toList = '-' :: Nat.toDigits 10 (n + 1) := by
  have hdecimal : decimal (.negSucc n) = "-" ++ (n + 1).repr := rfl
  simp [hdecimal, Nat.repr_eq_ofList_toDigits]

theorem isAsciiDigit_of_mem_toDigits {n : Nat} {c : Char} (h : c ∈ Nat.toDigits 10 n) :
    isAsciiDigit c = true :=
  Nat.isDigit_of_mem_toDigits (by decide) (by decide) h

theorem toDigits_inj {m n : Nat} (h : Nat.toDigits 10 m = Nat.toDigits 10 n) : m = n := by
  have hread := congrArg (Nat.ofDigitChars 10 · 0) h
  simpa only [Nat.ofDigitChars_ten_toDigits] using hread

/-- Digits start with no sign. -/
theorem toDigits_ne_cons (m : Nat) (cs : List Char) : Nat.toDigits 10 m ≠ '-' :: cs := by
  intro h
  have hdigit := isAsciiDigit_of_mem_toDigits (h ▸ List.mem_cons_self)
  cases hdigit

theorem decimal_inj {m n : Int} (h : decimal m = decimal n) : m = n := by
  have hlist := congrArg String.toList h
  cases m with
  | ofNat m =>
    cases n with
    | ofNat n =>
      exact congrArg Int.ofNat (toDigits_inj ((toList_decimal m).symm.trans
        (hlist.trans (toList_decimal n))))
    | negSucc n =>
      exact absurd ((toList_decimal m).symm.trans (hlist.trans (toList_decimal_negSucc n)))
        (toDigits_ne_cons _ _)
  | negSucc m =>
    cases n with
    | ofNat n =>
      exact absurd ((toList_decimal n).symm.trans (hlist.symm.trans (toList_decimal_negSucc m)))
        (toDigits_ne_cons _ _)
    | negSucc n =>
      rw [toList_decimal_negSucc, toList_decimal_negSucc] at hlist
      rw [Nat.succ.inj (toDigits_inj (List.cons.inj hlist).2)]

theorem decimal_ne_nil (n : Int) : (decimal n).toList ≠ [] := by
  cases n with
  | ofNat n => exact toList_decimal n ▸ Nat.toDigits_ne_nil
  | negSucc n => simp [toList_decimal_negSucc]

/-- A decimal consists of digits and a sign. -/
theorem mem_decimal {n : Int} {c : Char} (h : c ∈ (decimal n).toList) :
    isAsciiDigit c = true ∨ c = '-' := by
  cases n with
  | ofNat n => exact .inl (isAsciiDigit_of_mem_toDigits (toList_decimal n ▸ h))
  | negSucc n =>
    rw [toList_decimal_negSucc] at h
    rcases List.mem_cons.mp h with rfl | h
    · exact .inr rfl
    · exact .inl (isAsciiDigit_of_mem_toDigits h)

theorem ofAsciiDigits_eq_ofDigitChars (cs : List Char) :
    ofAsciiDigits cs = Nat.ofDigitChars 10 cs 0 := by
  rw [ofAsciiDigits, ofDigits, List.foldl_map, Nat.ofDigitChars_eq_foldl]

theorem toList_zeroPadded (width n : Nat) :
    (zeroPadded width n).toList =
      List.replicate (width - (decimal n).length) '0' ++ Nat.toDigits 10 n := by
  rw [zeroPadded, if_neg (by omega), flushRight, String.toList_append, String.toList_ofList,
    toList_decimal]

/-- Leading zeros do not change a number. -/
theorem ofAsciiDigits_zeroPadded (width n : Nat) :
    ofAsciiDigits (zeroPadded width n).toList = n := by
  rw [ofAsciiDigits_eq_ofDigitChars, toList_zeroPadded, Nat.ofDigitChars_append,
    Nat.ofDigitChars_replicate_zero, Nat.mul_zero]
  exact Nat.ofDigitChars_toDigits (by decide) (by decide)

theorem isAsciiDigit_of_mem_zeroPadded {width n : Nat} {c : Char}
    (h : c ∈ (zeroPadded width n).toList) : isAsciiDigit c = true := by
  rw [toList_zeroPadded, List.mem_append] at h
  rcases h with h | h
  · rw [List.eq_of_mem_replicate h]
    decide
  · exact isAsciiDigit_of_mem_toDigits h

end Text

end StackLang
