import GrammarText.Data.Numeral

/-!
# Digits are read back

Digits of base sixteen are read as the number that was written in them, in whichever case their
letters are (`Numeral.natural?_hexDigits`).
-/

namespace GrammarText.Numeral

variable {letters : LetterCase}

theorem digitValue?_hexDigit {n : Nat} (hn : n < 16) :
    digitValue? (hexDigit letters n) = some n := by
  cases letters with
  | lower => decide +revert
  | upper => decide +revert

/-- Digits are read onto the value of those before them. -/
theorem readDigits_hexDigits {count n : Nat} (value : Nat) (hn : n < Nat.pow 16 count)
    (cs : List Char) :
    readDigits 16 value (hexDigits letters n count ++ cs)
      = readDigits 16 (value * Nat.pow 16 count + n) cs := by
  induction count generalizing n cs with
  | zero =>
    obtain rfl : n = 0 := Nat.lt_one_iff.mp hn
    exact congrArg (readDigits 16 · cs) (Nat.mul_one value).symm
  | succ count ih =>
    have hpow : Nat.pow 16 (count + 1) = Nat.pow 16 count * 16 := rfl
    have hhigh : n / 16 < Nat.pow 16 count := by omega
    have hlow : n % 16 < 16 := Nat.mod_lt n (by decide)
    have hvalue : (value * Nat.pow 16 count + n / 16) * 16 + n % 16
        = value * Nat.pow 16 (count + 1) + n := by
      rw [hpow, Nat.add_mul, Nat.mul_assoc, Nat.add_assoc, Nat.div_add_mod']
    rw [hexDigits, List.append_assoc, ih hhigh]
    simp only [List.singleton_append, readDigits, digitValue?_hexDigit hlow, hlow, if_true, hvalue]

theorem natural?_hexDigits {count n : Nat} (hn : n < Nat.pow 16 (count + 1)) :
    natural? 16 (hexDigits letters n (count + 1)) = some n := by
  have hread : readDigits 16 0 (hexDigits letters n (count + 1) ++ [])
      = readDigits 16 (0 * Nat.pow 16 (count + 1) + n) [] := readDigits_hexDigits 0 hn []
  rw [List.append_nil, Nat.zero_mul, Nat.zero_add] at hread
  rw [natural?, if_neg (by simp [hexDigits]), hread, readDigits]

end GrammarText.Numeral
