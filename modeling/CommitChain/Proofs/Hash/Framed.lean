import CommitChain.Hash.Digest

/-!
# What tagged digests hash

From the bytes that a tagged digest hashes the parts can be told, as long as it is known how many
they are and all but the last of them are short enough for their lengths to be written
(`framed_inj`).  So tagged digests of different parts are equal only if two different byte strings
have one digest, which `Collide` says of the byte strings that were hashed on two sides.
-/

namespace CommitChain.Hash

/-! ## Collisions -/

/-- Whether one of some byte strings and one of others are different and have the same digest. -/
def Collide (hashed hashed' : ByteArray → Prop) : Prop :=
  ∃ m m', hashed m ∧ hashed' m' ∧ m ≠ m' ∧ sha256 m = sha256 m'

variable {hashed hashed' : ByteArray → Prop}

/-- Byte strings with one digest are equal, or they collide. -/
theorem eq_or_collide {m m' : ByteArray} (h : hashed m) (h' : hashed' m')
    (hd : sha256 m = sha256 m') : m = m' ∨ Collide hashed hashed' :=
  (Decidable.em (m = m')).imp_right fun hne => ⟨m, m', h, h', hne, hd⟩

theorem Collide.mono {p p' : ByteArray → Prop} (h : Collide hashed hashed')
    (hp : ∀ m, hashed m → p m) (hp' : ∀ m, hashed' m → p' m) : Collide p p' := by
  obtain ⟨m, m', hm, hm', hne, hd⟩ := h
  exact ⟨m, m', hp m hm, hp' m' hm', hne, hd⟩

/-! ## Numbers in bytes -/

namespace Sha256

theorem length_bigEndian (width n : Nat) : (bigEndian width n).length = width := by
  rw [bigEndian, List.length_map, List.length_range]

/-- The last byte, and the number without it in the bytes in front. -/
theorem bigEndian_succ (width n : Nat) :
    bigEndian (width + 1) n = bigEndian width (n / 256) ++ [UInt8.ofNat n] := by
  have hlast : n / Nat.pow 256 (width + 1 - 1 - width) = n := by
    rw [Nat.add_sub_cancel, Nat.sub_self]
    exact Nat.div_one n
  have hfront : ∀ i ∈ List.range width, UInt8.ofNat (n / Nat.pow 256 (width + 1 - 1 - i))
      = UInt8.ofNat (n / 256 / Nat.pow 256 (width - 1 - i)) := by
    intro i hi
    have hlt := List.mem_range.1 hi
    have hexp : width + 1 - 1 - i = (width - 1 - i) + 1 := by omega
    rw [hexp, Nat.div_div_eq_div_mul, Nat.mul_comm]
    rfl
  rw [bigEndian, List.range_succ, List.map_append, List.map_congr_left hfront, List.map_singleton,
    hlast, bigEndian]

/-- Numbers that fit are told by their bytes. -/
theorem bigEndian_inj {width m n : Nat} (hm : m < Nat.pow 256 width) (hn : n < Nat.pow 256 width)
    (h : bigEndian width m = bigEndian width n) : m = n := by
  induction width generalizing m n with
  | zero => exact (Nat.lt_one_iff.1 hm).trans (Nat.lt_one_iff.1 hn).symm
  | succ width ih =>
    have hdiv : ∀ {k : Nat}, k < Nat.pow 256 (width + 1) → k / 256 < Nat.pow 256 width :=
      fun hk => Nat.div_lt_of_lt_mul (Nat.mul_comm .. ▸ hk)
    rw [bigEndian_succ, bigEndian_succ] at h
    obtain ⟨hfront, hlast⟩ :=
      List.append_inj h ((length_bigEndian ..).trans (length_bigEndian ..).symm)
    have hquotient := ih (hdiv hm) (hdiv hn) hfront
    have hrest : m % 256 = n % 256 := by
      have hbyte := congrArg UInt8.toNat (List.singleton_inj.1 hlast)
      rwa [UInt8.toNat_ofNat', UInt8.toNat_ofNat'] at hbyte
    omega

end Sha256

/-! ## Framing -/

/-- A part behind its length in eight bytes. -/
def sized (part : ByteArray) : ByteArray :=
  (Sha256.bigEndian 8 part.size).toByteArray ++ part

/-- Parts whose lengths can be written in eight bytes. -/
def Short (part : ByteArray) : Prop :=
  part.size < Nat.pow 256 8

theorem append_inj {a b x y : ByteArray} (h : a ++ x = b ++ y) (hs : a.size = b.size) :
    a = b ∧ x = y := by
  have hlist := congrArg (fun bytes : ByteArray => bytes.data.toList) h
  simp only [ByteArray.data_append, Array.toList_append] at hlist
  obtain ⟨ha, hx⟩ := List.append_inj hlist (by simpa using hs)
  exact ⟨ByteArray.ext (Array.toList_inj.1 ha), ByteArray.ext (Array.toList_inj.1 hx)⟩

theorem size_bigEndian (n : Nat) : (Sha256.bigEndian 8 n).toByteArray.size = 8 := by
  rw [List.size_toByteArray, Sha256.length_bigEndian]

/-- A part behind its length is told without the length. -/
theorem sized_inj {a b : ByteArray} (h : sized a = sized b) : a = b :=
  (append_inj h ((size_bigEndian _).trans (size_bigEndian _).symm)).2

/-- A short part is told from what stands behind it. -/
theorem sized_append_inj {a b x y : ByteArray} (h : sized a ++ x = sized b ++ y) (ha : Short a)
    (hb : Short b) : a = b ∧ x = y := by
  rw [sized, sized, ByteArray.append_assoc, ByteArray.append_assoc] at h
  obtain ⟨hlength, hrest⟩ := append_inj h ((size_bigEndian _).trans (size_bigEndian _).symm)
  have hbytes : Sha256.bigEndian 8 a.size = Sha256.bigEndian 8 b.size := by
    have hlist := congrArg (fun bytes : ByteArray => bytes.data.toList) hlength
    simpa only [List.data_toByteArray] using hlist
  exact append_inj hrest (Sha256.bigEndian_inj ha hb hbytes)

/-- The parts one after the other, each behind its length. -/
def sizedAll : List ByteArray → ByteArray
  | [] => ByteArray.empty
  | part :: parts => sized part ++ sizedAll parts

theorem framed_eq (domain : String) (parts : List ByteArray) :
    framed domain parts = domain.toUTF8.push 0 ++ sizedAll parts := by
  have hfold : ∀ acc : ByteArray, parts.foldl
      (fun acc p => acc ++ (Sha256.bigEndian 8 p.size).toByteArray ++ p) acc
        = acc ++ sizedAll parts := by
    induction parts with
    | nil => exact fun acc => ByteArray.append_empty.symm
    | cons part parts ih =>
      intro acc
      rw [List.foldl_cons, ih, sizedAll, sized]
      simp only [ByteArray.append_assoc]
  exact hfold _

theorem sizedAll_inj {parts parts' : List ByteArray} (hl : parts.length = parts'.length)
    (hs : ∀ part ∈ parts.dropLast, Short part) (hs' : ∀ part ∈ parts'.dropLast, Short part)
    (h : sizedAll parts = sizedAll parts') : parts = parts' := by
  induction parts generalizing parts' with
  | nil => exact (List.length_eq_zero_iff.1 hl.symm).symm
  | cons a rest ih =>
    cases parts' with
    | nil => exact absurd hl (by simp)
    | cons b rest' =>
      have hlength : rest.length = rest'.length := Nat.succ.inj hl
      rw [sizedAll, sizedAll] at h
      cases rest with
      | nil =>
        obtain rfl := List.length_eq_zero_iff.1 hlength.symm
        rw [sizedAll, ByteArray.append_empty, ByteArray.append_empty] at h
        rw [sized_inj h]
      | cons c rest =>
        cases rest' with
        | nil => exact absurd hlength (by simp)
        | cons d rest' =>
          rw [List.dropLast_cons_cons, List.forall_mem_cons] at hs hs'
          obtain ⟨rfl, hrest⟩ := sized_append_inj h hs.1 hs'.1
          rw [ih hlength hs.2 hs'.2 hrest]

/-- As many parts, of which all but the last are short, are told by what is hashed of them. -/
theorem framed_inj {domain : String} {parts parts' : List ByteArray}
    (hl : parts.length = parts'.length) (hs : ∀ part ∈ parts.dropLast, Short part)
    (hs' : ∀ part ∈ parts'.dropLast, Short part) (h : framed domain parts = framed domain parts') :
    parts = parts' := by
  rw [framed_eq, framed_eq, ByteArray.append_right_inj] at h
  exact sizedAll_inj hl hs hs' h

end CommitChain.Hash
