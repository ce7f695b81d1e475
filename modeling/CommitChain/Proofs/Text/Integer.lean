import CommitChain.Text.Integer
import Mathlib.Data.List.Basic
import Mathlib.Data.List.Induction

/-!
# Decimal digits of a number

The digits that a number is written with read back as that number, there are at most `digitLimit` of
them below `integerBound`, and only zero starts with a zero.
-/

namespace CommitChain.Text

theorem digitValue?_digitChar {n : Nat} (h : n < 10) : digitValue? n.digitChar = some n := by
  have hall : ∀ m < 10, digitValue? (Nat.digitChar m) = some m := by decide
  exact hall n h

theorem natOfDigits_concat (ds : List Char) (c : Char) :
    natOfDigits (ds ++ [c]) = 10 * natOfDigits ds + (digitValue? c).getD 0 := by
  rw [natOfDigits, List.foldl_append]
  rfl

theorem natOfDigits_toDigits (n : Nat) : natOfDigits (Nat.toDigits 10 n) = n := by
  induction n using Nat.strongRecOn with
  | ind n ih =>
    by_cases h : n < 10
    · rw [Nat.toDigits_of_lt_base h]
      show 10 * 0 + (digitValue? n.digitChar).getD 0 = n
      rw [digitValue?_digitChar h]
      exact Nat.zero_add n
    · have hn : 10 ≤ n := by omega
      have hr : n % 10 < 10 := Nat.mod_lt n (by decide)
      rw [Nat.toDigits_of_base_le (by decide) hn, natOfDigits_concat,
        ih (n / 10) (Nat.div_lt_self (by omega) (by decide)), digitValue?_digitChar hr]
      show 10 * (n / 10) + n % 10 = n
      omega

theorem length_toDigits_le_digitLimit {n : Nat} :
    (Nat.toDigits 10 n).length ≤ digitLimit ↔ n < integerBound := by
  have h : ∀ k, 0 < k → ((Nat.toDigits 10 n).length ≤ k ↔ n < Nat.pow 10 k) :=
    fun _ => Nat.length_toDigits_le_iff (by decide)
  unfold integerBound
  exact h digitLimit (by decide)

theorem pow_le_integerBound {k : Nat} (h : k ≤ digitLimit) : Nat.pow 10 k ≤ integerBound := by
  have hpow : ∀ m, k ≤ m → Nat.pow 10 k ≤ Nat.pow 10 m :=
    fun m hm => Nat.pow_le_pow_right (by decide) hm
  unfold integerBound
  exact hpow digitLimit h

theorem lt_integerBound {n : Nat} (h : n < 10) : n < integerBound :=
  Nat.lt_of_lt_of_le h (pow_le_integerBound (by decide : 1 ≤ digitLimit))

/-! ## Digits in texts -/

theorem integerDigits_natCast (n : Nat) : integerDigits n = n.repr := by
  rw [integerDigits, if_neg (by omega), Int.natAbs_natCast]

theorem toNat_lt_of_mem_repr {n : Nat} {c : Char} (h : c ∈ n.repr.toList) : c.toNat < 0x80 := by
  rw [Nat.toList_repr] at h
  have hdigit := Nat.isDigit_of_mem_toDigits (by decide) (by decide) h
  rw [Char.isDigit, Bool.and_eq_true, decide_eq_true_eq, decide_eq_true_eq] at hdigit
  exact Nat.lt_of_le_of_lt hdigit.2 (by decide)

theorem head?_toDigits_ne_zero {n : Nat} (h : n ≠ 0) : (Nat.toDigits 10 n).head? ≠ some '0' := by
  induction n using Nat.strongRecOn with
  | ind n ih =>
    by_cases hn : n < 10
    · rw [Nat.toDigits_of_lt_base hn]
      intro he
      exact h (Nat.digitChar_eq_zero.1 (Option.some.inj he))
    · rw [Nat.toDigits_of_base_le (by decide) (by omega), List.head?_append_of_ne_nil]
      · exact ih (n / 10) (Nat.div_lt_self (by omega) (by decide)) (by omega)
      · exact Nat.toDigits_ne_nil

end CommitChain.Text
