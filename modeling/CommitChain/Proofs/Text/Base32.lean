import CommitChain.Hash.Base32
import CommitChain.Proofs.Text.Hex

/-!
# Base 32

A byte string has one digit for every five bits and one for what is left (`length_encodeFrom`), and
it is told by its digits without any padding (`encode_inj`): the bits that a last digit is filled up
with are zeros.
-/

namespace CommitChain.Hash.Base32

theorem isDigit_digit : ∀ n < 32, isDigit (digit n) = true := by decide

theorem isDigit_of_mem_encodeFrom {bs : List UInt8} {pending count : Nat} :
    ∀ c ∈ encodeFrom pending count bs, isDigit c = true := by
  have hdigit : ∀ n, isDigit (digit (n % 32)) = true := fun n =>
    isDigit_digit _ (Nat.mod_lt n (by decide))
  induction bs generalizing pending count with
  | nil =>
    rw [encodeFrom]
    split
    · exact fun c hc => absurd hc List.not_mem_nil
    · exact List.forall_mem_singleton.2 (hdigit _)
  | cons b bs ih =>
    rw [encodeFrom]
    split
    · exact List.forall_mem_cons.2 ⟨hdigit _, List.forall_mem_cons.2 ⟨hdigit _, ih⟩⟩
    · exact List.forall_mem_cons.2 ⟨hdigit _, ih⟩

/-! ## How many digits there are -/

/-- Five bits a digit, and one digit for what is left. -/
theorem length_encodeFrom {bs : List UInt8} {pending count : Nat} (hc : count < 5) :
    (encodeFrom pending count bs).length = (count + 8 * bs.length + 4) / 5 := by
  induction bs generalizing pending count with
  | nil =>
    rw [encodeFrom, List.length_nil]
    split
    next hzero => rw [hzero, List.length_nil]
    next => rw [List.length_singleton]; omega
  | cons b bs ih =>
    rw [encodeFrom, List.length_cons]
    split
    · rw [List.length_cons, List.length_cons, ih (by omega)]
      omega
    · rw [List.length_cons, ih (by omega)]
      omega

theorem length_encode (d : Digest) : (encode d.bytes).toList.length = 52 := by
  rw [encode, String.toList_ofList, length_encodeFrom (by decide), d.length_toList]

/-! ## Digits tell the bytes -/

theorem digit_inj : ∀ m < 32, ∀ n < 32, digit m = digit n → m = n := by decide

/-- A digit tells five bits more than those behind it. -/
theorem mod_eq_of_digit {bits bits' low : Nat}
    (hd : digit (bits / Nat.pow 2 low % 32) = digit (bits' / Nat.pow 2 low % 32))
    (hrest : bits % Nat.pow 2 low = bits' % Nat.pow 2 low) :
    bits % Nat.pow 2 (low + 5) = bits' % Nat.pow 2 (low + 5) := by
  have hdigit := digit_inj _ (Nat.mod_lt _ (by decide)) _ (Nat.mod_lt _ (by decide)) hd
  have hpow : Nat.pow 2 (low + 5) = Nat.pow 2 low * 32 := Nat.pow_add 2 low 5
  rw [hpow, Nat.mod_mul, Nat.mod_mul, hdigit, hrest]

/-- The last digit is filled up with zeros, so the bits in it are told. -/
theorem eq_of_last_digit {bits bits' count : Nat} (hc : count < 5) (hb : bits < Nat.pow 2 count)
    (hb' : bits' < Nat.pow 2 count)
    (h : digit (bits * Nat.pow 2 (5 - count) % 32) = digit (bits' * Nat.pow 2 (5 - count) % 32)) :
    bits = bits' := by
  have hpos : 0 < Nat.pow 2 (5 - count) := Nat.pow_pos (by decide)
  have hfill : Nat.pow 2 count * Nat.pow 2 (5 - count) = 32 := by
    have hsum : count + (5 - count) = 5 := by omega
    exact (Nat.pow_add 2 count (5 - count)).symm.trans (congrArg (Nat.pow 2) hsum)
  have hlt : ∀ {n : Nat}, n < Nat.pow 2 count → n * Nat.pow 2 (5 - count) < 32 := fun hn =>
    hfill ▸ Nat.mul_lt_mul_of_pos_right hn hpos
  have hdigit := digit_inj _ (Nat.mod_lt _ (by decide)) _ (Nat.mod_lt _ (by decide)) h
  rw [Nat.mod_eq_of_lt (hlt hb), Nat.mod_eq_of_lt (hlt hb')] at hdigit
  exact Nat.eq_of_mul_eq_mul_right hpos hdigit

theorem bits_lt {pending count : Nat} (b : UInt8) (hp : pending < Nat.pow 2 count) :
    pending * 256 + b.toNat < Nat.pow 2 (count + 8) := by
  have hpow : Nat.pow 2 (count + 8) = Nat.pow 2 count * 256 := Nat.pow_add 2 count 8
  have := b.toNat_lt
  omega

theorem bits_inj {pending pending' : Nat} {b b' : UInt8}
    (h : pending * 256 + b.toNat = pending' * 256 + b'.toNat) : pending = pending' ∧ b = b' := by
  have := b.toNat_lt
  have := b'.toNat_lt
  exact ⟨by omega, UInt8.toNat_inj.1 (by omega)⟩

/-- As many bytes behind as many pending bits are told by their digits. -/
theorem encodeFrom_inj {bs bs' : List UInt8} {pending pending' count : Nat}
    (hl : bs.length = bs'.length) (hc : count < 5) (hp : pending < Nat.pow 2 count)
    (hp' : pending' < Nat.pow 2 count)
    (h : encodeFrom pending count bs = encodeFrom pending' count bs') :
    pending = pending' ∧ bs = bs' := by
  induction bs generalizing bs' pending pending' count with
  | nil =>
    obtain rfl : bs' = [] := List.length_eq_zero_iff.1 hl.symm
    refine ⟨?_, rfl⟩
    rw [encodeFrom, encodeFrom] at h
    split at h
    next hzero =>
      subst hzero
      exact (Nat.lt_one_iff.1 hp).trans (Nat.lt_one_iff.1 hp').symm
    next => exact eq_of_last_digit hc hp hp' (List.singleton_inj.1 h)
  | cons b bs ih =>
    cases bs' with
    | nil => exact absurd hl (by simp)
    | cons b' bs' =>
      have hlength : bs.length = bs'.length := Nat.succ.inj hl
      have hpos : ∀ n, 0 < Nat.pow 2 n := fun _ => Nat.pow_pos (by decide)
      -- The induction hypothesis tells the bits that the byte leaves pending, its digits the others.
      suffices hbits : (pending * 256 + b.toNat) % Nat.pow 2 (count + 8)
          = (pending' * 256 + b'.toNat) % Nat.pow 2 (count + 8) ∧ bs = bs' by
        rw [Nat.mod_eq_of_lt (bits_lt b hp), Nat.mod_eq_of_lt (bits_lt b' hp')] at hbits
        obtain ⟨hpending, rfl⟩ := bits_inj hbits.1
        exact ⟨hpending, congrArg (b :: ·) hbits.2⟩
      rw [encodeFrom, encodeFrom] at h
      split at h
      next htwo =>
        obtain ⟨hfirst, hbehind⟩ := List.cons_eq_cons.1 h
        obtain ⟨hsecond, hrest⟩ := List.cons_eq_cons.1 hbehind
        obtain ⟨hmod, hbs⟩ := ih hlength (by omega) (Nat.mod_lt _ (hpos _))
          (Nat.mod_lt _ (hpos _)) hrest
        have hmiddle := mod_eq_of_digit hsecond hmod
        rw [show count + 8 - 10 + 5 = count + 8 - 5 by omega] at hmiddle
        have hall := mod_eq_of_digit hfirst hmiddle
        rw [show count + 8 - 5 + 5 = count + 8 by omega] at hall
        exact ⟨hall, hbs⟩
      next =>
        obtain ⟨hfirst, hrest⟩ := List.cons_eq_cons.1 h
        obtain ⟨hmod, hbs⟩ := ih hlength (by omega) (Nat.mod_lt _ (hpos _))
          (Nat.mod_lt _ (hpos _)) hrest
        have hall := mod_eq_of_digit hfirst hmod
        rw [show count + 8 - 5 + 5 = count + 8 by omega] at hall
        exact ⟨hall, hbs⟩

/-- Byte strings are told by their digits, of whatever length they are. -/
theorem encode_inj {a b : ByteArray} : encode a = encode b ↔ a = b := by
  refine ⟨fun h => ?_, congrArg encode⟩
  have hdigits : encodeFrom 0 0 a.toList = encodeFrom 0 0 b.toList := String.ofList_inj.1 h
  have hlength : a.toList.length = b.toList.length := by
    have heq := congrArg List.length hdigits
    rw [length_encodeFrom (by decide), length_encodeFrom (by decide)] at heq
    omega
  have hbytes := (encodeFrom_inj hlength (by decide) (by decide) (by decide) hdigits).2
  rw [← Text.Hex.toByteArray_toList a, hbytes, Text.Hex.toByteArray_toList]

end CommitChain.Hash.Base32
