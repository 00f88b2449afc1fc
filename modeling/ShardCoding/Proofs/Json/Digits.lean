import Mathlib.Algebra.Group.Nat.Defs
import ShardCoding.Json.Lexer

/-!
# Decimal digits

* `isDigit_of_mem_natDigits`, `head?_natDigits`, `length_natDigits_le` : the digits of a number;
* `digitsValue_natDigits`, `digitsValue_zeros` : the number that digits spell, with leading zeros or without;
* `spanDigits_append` : digits are taken off a text up to what follows them.
-/

namespace ShardCoding

theorem ne_of_isDigit {c d : Char} (hc : isDigit c = true) (hd : isDigit d = false) : c ≠ d := by
  rintro rfl
  rw [hc] at hd
  cases hd

theorem isDigit_of_mem_natDigits {n : Nat} {c : Char} (h : c ∈ natDigits n) : isDigit c = true := by
  have hdigit : c.isDigit = true := Nat.isDigit_of_mem_toDigits (by decide) (by decide) h
  rw [Char.isDigit, Bool.and_eq_true] at hdigit
  rw [isDigit, Bool.and_eq_true]
  exact hdigit

theorem natDigits_ne_nil (n : Nat) : natDigits n ≠ [] := Nat.toDigits_ne_nil

theorem length_natDigits_le {n width : Nat} (hwidth : 0 < width) (h : n < 10 ^ width) :
    (natDigits n).length ≤ width := (Nat.length_toDigits_le_iff (by decide) hwidth).2 h

/-- Only zero begins with a zero. -/
theorem head?_natDigits {n : Nat} (hn : 0 < n) : (natDigits n).head? ≠ some '0' := by
  induction n using Nat.strongRecOn with
  | ind n ih =>
    by_cases hlt : n < 10
    · have hdigits : ∀ m < 10, 0 < m → [m.digitChar].head? ≠ some '0' := by decide
      rw [natDigits, Nat.toDigits_of_lt_base hlt]
      exact hdigits n hlt hn
    · have hrest := ih (n / 10) (by omega) (by omega)
      rw [natDigits, Nat.toDigits_of_base_le (by decide) (Nat.not_lt.1 hlt)]
      change (natDigits (n / 10) ++ [(n % 10).digitChar]).head? ≠ some '0'
      cases hfront : natDigits (n / 10) with
      | nil => exact absurd hfront (natDigits_ne_nil _)
      | cons c front => rwa [hfront] at hrest

theorem digitsValue_eq (ds : List Char) : digitsValue ds = Nat.ofDigitChars 10 ds 0 := Nat.ofDigitChars_eq_foldl.symm

theorem digitsValue_natDigits (n : Nat) : digitsValue (natDigits n) = n :=
  (digitsValue_eq _).trans Nat.ofDigitChars_ten_toDigits

theorem digitsValue_zeros (count : Nat) (ds : List Char) :
    digitsValue (List.replicate count '0' ++ ds) = digitsValue ds := by
  rw [digitsValue_eq, digitsValue_eq, Nat.ofDigitChars_append, Nat.ofDigitChars_replicate_zero, Nat.mul_zero]

theorem spanDigits_append {ds rest : List Char} (hds : ∀ c ∈ ds, isDigit c = true)
    (hrest : ∀ c, rest.head? = some c → isDigit c = false) : spanDigits (ds ++ rest) = (ds, rest) := by
  unfold spanDigits
  rw [List.takeWhile_append_of_pos hds, List.dropWhile_append_of_pos hds]
  cases rest with
  | nil => simp
  | cons c rest =>
    have hc : isDigit c = false := hrest c rfl
    rw [List.takeWhile_cons, List.dropWhile_cons, hc]
    simp

end ShardCoding
