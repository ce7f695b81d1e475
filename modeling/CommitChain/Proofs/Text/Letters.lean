import CommitChain.Proofs.Text.Spelling

/-!
# Texts of small Latin letters

Such a text is the normal form of no text but itself (`eq_of_normalize_small`): no character of the
tables decomposes into small Latin letters alone.  So a name that is reserved by its spelling has no
second spelling.
-/

namespace CommitChain.Text.Normal

/-- The numbers of the small Latin letters. -/
def isSmall (n : Nat) : Bool :=
  Nat.ble 0x61 n && Nat.ble n 0x7A

theorem isSmall_iff {n : Nat} : isSmall n = true ↔ 0x61 ≤ n ∧ n ≤ 0x7A := by
  simp only [isSmall, Bool.and_eq_true, Nat.ble_eq]

theorem inert_isSmall : Inert isSmall where
  table := by decide +kernel
  hangul := by
    intro n hn
    rw [Bool.eq_false_iff]
    intro hsmall
    have := isSmall_iff.1 hsmall
    have := isHangul_iff.1 hn
    omega
  base := by
    intro c hc
    have := isSmall_iff.1 hc
    exact if_pos (by omega)

end CommitChain.Text.Normal

namespace CommitChain.Text

open CommitChain.Text.Normal

/-- A text of small letters is the normal form of itself alone. -/
theorem eq_of_normalize_small {s : String}
    (h : ∀ c ∈ (normalize s).toList, isSmall c.toNat = true) : normalize s = s :=
  inert_isSmall.eq_of_normalize h

end CommitChain.Text
