import Deadwood.Number.Decimal
import Mathlib.Algebra.Ring.Nat

/-!
# Digits and their value

* `digitsValue_toDigits`, `digitsValue_paddedDigits`: a number is the value of its digits;
* `takeWhile_digits`: digits are read up to what is not a digit.
-/

namespace Deadwood

open Text

theorem digitsValue_toDigits (n : Nat) : digitsValue (Nat.toDigits 10 n) = n :=
  Nat.ofDigitChars_toDigits (by decide) (by decide)

theorem isAsciiDigit_toDigits (n : Nat) : ∀ c ∈ Nat.toDigits 10 n, isAsciiDigit c = true :=
  fun _ => Nat.isDigit_of_mem_toDigits (by decide) (by decide)

def paddedDigits (width n : Nat) : List Char :=
  List.replicate (width - (Nat.toDigits 10 n).length) '0' ++ Nat.toDigits 10 n

theorem toList_paddedNat (width n : Nat) : (Binary64.paddedNat width n).toList = paddedDigits width n := by
  rw [Binary64.paddedNat, String.toList_ofList, paddedDigits]

theorem isDigit_padded (width n : Nat) : ∀ c ∈ paddedDigits width n, isAsciiDigit c = true := by
  intro c hc
  rcases List.mem_append.1 hc with hc | hc
  · rw [(List.mem_replicate.1 hc).2]
    rfl
  · exact isAsciiDigit_toDigits n c hc

theorem digitsValue_paddedDigits (width n : Nat) : digitsValue (paddedDigits width n) = n := by
  have hzeros (k : Nat) (cs : List Char) : digitsValue (List.replicate k '0' ++ cs) = digitsValue cs := by
    induction k with
    | zero => rfl
    | succ k ih => exact ih
  rw [paddedDigits, hzeros, digitsValue_toDigits]

theorem length_paddedDigits {width n : Nat} (hw : 0 < width) (h : n < 10 ^ width) :
    (paddedDigits width n).length = width := by
  have := (Nat.length_toDigits_le_iff (b := 10) (n := n) (by decide) hw).2 h
  rw [paddedDigits, List.length_append, List.length_replicate]
  omega

theorem paddedDigits_ne_nil (width n : Nat) : paddedDigits width n ≠ [] := by
  rw [paddedDigits]
  simp

/-- What follows digits does not go on with one. -/
def EndsDigits (rest : List Char) : Prop := ∀ c, rest.head? = some c → isAsciiDigit c = false

theorem endsDigits_cons {c : Char} (h : isAsciiDigit c = false) (rest : List Char) : EndsDigits (c :: rest) := by
  intro d hd
  cases hd
  exact h

theorem takeWhile_digits {ds rest : List Char} (hds : ∀ c ∈ ds, isAsciiDigit c = true)
    (hrest : EndsDigits rest) : (ds ++ rest).takeWhile isAsciiDigit = ds := by
  rw [List.takeWhile_append_of_pos hds]
  cases rest with
  | nil => simp
  | cons c rest => simp [hrest c rfl]

end Deadwood
