import CommitChain.Hash.Address
import CommitChain.Text.Normal

/-!
# Digests and commitments as text

A digest is read back from its 64 digits, and a commitment from its text.  Both are ASCII, so they
are in normal form.
-/

namespace CommitChain

namespace Text

/-- Characters below U+0300 are normal as they are. -/
theorem isNormal_of_lt {s : String} (h : ∀ c ∈ s.toList, c.toNat < 0x300) : IsNormal s := by
  rw [IsNormal, normalize, if_pos]
  exact List.all_eq_true.2 fun c hc => decide_eq_true (h c hc)

/-- Nothing is dropped where nothing satisfies `p`. -/
theorem trim_eq_self {p : Char → Bool} {cs : List Char} (h : ∀ a ∈ cs, p a = false) :
    trim p cs = cs := by
  have hdrop : ∀ ds : List Char, (∀ a ∈ ds, p a = false) → ds.dropWhile p = ds := by
    intro ds hds
    cases ds with
    | nil => rfl
    | cons c ds => exact List.dropWhile_cons_of_neg (by simp [hds c List.mem_cons_self])
  rw [trim, hdrop cs h, hdrop cs.reverse fun a ha => h a (List.mem_reverse.1 ha),
    List.reverse_reverse]

namespace Hex

theorem toList_loop (bytes : ByteArray) (i : Nat) (before : List UInt8) :
    ByteArray.toList.loop bytes i before = before.reverse ++ bytes.data.toList.drop i := by
  induction hn : bytes.size - i generalizing i before with
  | zero =>
    rw [ByteArray.toList.loop, if_neg (by omega), List.drop_eq_nil_of_le, List.append_nil]
    have hsize : bytes.data.toList.length = bytes.size := rfl
    omega
  | succ n ih =>
    have hi : i < bytes.data.toList.length := show i < bytes.size by omega
    have hget : bytes.get! i = bytes.data.toList[i] := by
      show bytes.data[i]! = _
      rw [getElem!_pos bytes.data i hi, Array.getElem_toList]
    rw [ByteArray.toList.loop, if_pos (show i < bytes.size from hi), ih (i + 1) _ (by omega),
      List.drop_eq_getElem_cons hi, List.reverse_cons, hget, List.append_assoc,
      List.singleton_append]

theorem toList_eq (bytes : ByteArray) : bytes.toList = bytes.data.toList := by
  rw [ByteArray.toList, toList_loop, List.reverse_nil, List.nil_append, List.drop_zero]

theorem toByteArray_toList (bytes : ByteArray) : bytes.toList.toByteArray = bytes := by
  rw [toList_eq]
  apply ByteArray.ext
  rw [List.data_toByteArray]

/-- A digit is written for the number that it is read as. -/
theorem digit_of_value? {c : Char} {n : Nat} (h : value? c = some n) : n < 16 ∧ digit n = c := by
  have hdecimal : ∀ m < 10, digit m = Char.ofNat (m + 48) := by decide
  have hletter : ∀ m < 16, 10 ≤ m → digit m = Char.ofNat (m + 87) := by decide
  unfold value? at h
  split at h
  next hc =>
    cases h
    have hlow : 48 ≤ c.toNat := hc.1
    have hhigh : c.toNat ≤ 57 := hc.2
    refine ⟨by omega, ?_⟩
    rw [hdecimal _ (by omega), Nat.sub_add_cancel hlow, Char.ofNat_toNat]
  next =>
    split at h
    next hc =>
      cases h
      have hlow : 97 ≤ c.toNat := hc.1
      have hhigh : c.toNat ≤ 102 := hc.2
      refine ⟨by omega, ?_⟩
      rw [hletter _ (by omega) (by omega), Nat.sub_add_cancel (by omega), Char.ofNat_toNat]
    next => exact absurd h (by simp)

/-- What is read as bytes is what is written for them. -/
theorem decodeList?_eq_some {cs : List Char} {bs : List UInt8} :
    decodeList? cs = some bs ↔ encodeList bs = cs := by
  refine ⟨fun h => ?_, fun h => h ▸ decodeList?_encodeList bs⟩
  induction cs using decodeList?.induct generalizing bs with
  | case1 =>
    cases h
    rfl
  | case2 c => exact absurd h (by simp [decodeList?])
  | case3 a b cs x y rest hcs hy hx ih =>
    obtain ⟨hx16, rfl⟩ := digit_of_value? hx
    obtain ⟨hy16, rfl⟩ := digit_of_value? hy
    rw [decodeList?, hx, hy, hcs] at h
    cases h
    have hbyte : (UInt8.ofNat (16 * x + y)).toNat = 16 * x + y :=
      UInt8.toNat_ofNat_of_lt' (by show _ < 256; omega)
    rw [encodeList, hbyte, ih hcs, show (16 * x + y) / 16 = x by omega,
      show (16 * x + y) % 16 = y by omega]
  | case4 a b cs hnone => exact absurd h (by simp [decodeList?])

theorem decode?_encode (bytes : ByteArray) : decode? (encode bytes) = some bytes := by
  rw [decode?, encode, String.toList_ofList, decodeList?_encodeList]
  exact congrArg some (toByteArray_toList bytes)

theorem decode?_eq_some {s : String} {bytes : ByteArray} :
    decode? s = some bytes ↔ encode bytes = s := by
  refine ⟨fun h => ?_, fun h => h ▸ decode?_encode bytes⟩
  obtain ⟨bs, hbs, rfl⟩ := Option.map_eq_some_iff.1 h
  rw [encode, toList_eq, List.data_toByteArray, decodeList?_eq_some.1 hbs, String.ofList_toList]

theorem isDigit_of_mem_encodeList {bs : List UInt8} : ∀ c ∈ encodeList bs, isDigit c = true := by
  induction bs with
  | nil => exact fun c hc => absurd hc List.not_mem_nil
  | cons b bs ih =>
    have hb : b.toNat < 256 := b.toNat_lt
    have hd : ∀ n < 16, isDigit (digit n) = true := fun n hn => by
      rw [isDigit, value?_digit n hn]
      rfl
    exact List.forall_mem_cons.2 ⟨hd _ (by omega),
      List.forall_mem_cons.2 ⟨hd _ (Nat.mod_lt _ (by decide)), ih⟩⟩

theorem toNat_lt_of_isDigit {c : Char} (h : isDigit c = true) : c.toNat < 0x80 := by
  rw [isDigit, value?] at h
  split at h
  next hc => exact Nat.lt_of_le_of_lt (show c.toNat ≤ 57 from hc.2) (by decide)
  next =>
    split at h
    next hc => exact Nat.lt_of_le_of_lt (show c.toNat ≤ 102 from hc.2) (by decide)
    next => exact absurd h (by simp)

end Hex

end Text

open CommitChain.Text

namespace Hash.Digest

theorem ofHex?_hex (d : Digest) : ofHex? d.hex = some d := by
  rw [ofHex?, hex, Hex.decode?_encode]
  exact dif_pos d.size_eq

theorem ofHex?_eq_some {s : String} {d : Digest} : ofHex? s = some d ↔ d.hex = s := by
  refine ⟨fun h => ?_, fun h => h ▸ ofHex?_hex d⟩
  unfold ofHex? at h
  split at h
  next bytes hbytes =>
    split at h
    next =>
      cases h
      exact Hex.decode?_eq_some.1 hbytes
    next => exact absurd h (by simp)
  next => exact absurd h (by simp)

/-- A digest is told by its digits. -/
theorem hex_inj {d e : Digest} : d.hex = e.hex ↔ d = e := by
  refine ⟨fun h => ?_, congrArg hex⟩
  have hd := ofHex?_hex d
  rw [h, ofHex?_hex] at hd
  exact (Option.some.inj hd).symm

theorem isDigit_of_mem_hex {d : Digest} : ∀ c ∈ d.hex.toList, Hex.isDigit c = true := by
  rw [hex, Hex.encode, String.toList_ofList]
  exact Hex.isDigit_of_mem_encodeList

theorem length_toList (d : Digest) : d.bytes.toList.length = 32 := by
  have hsize : d.bytes.toList.length = d.bytes.size := by
    rw [Hex.toList_eq]
    rfl
  rw [hsize, d.size_eq]

theorem length_hex (d : Digest) : d.hex.toList.length = 64 := by
  rw [hex, Hex.encode, String.toList_ofList, Hex.length_encodeList, d.length_toList]

theorem isNormal_hex (d : Digest) : IsNormal d.hex :=
  isNormal_of_lt fun c hc =>
    Nat.lt_trans (Hex.toNat_lt_of_isDigit (isDigit_of_mem_hex c hc)) (by decide)

end Hash.Digest

namespace Commitment

theorem toList_text (c : Commitment) : text c = String.ofList ('0' :: 'x' :: c.hex.toList) := by
  rw [text, ← String.toList_inj, String.toList_append, String.toList_ofList,
    String.toList_ofList]
  rfl

/-- A commitment is written with lowercase letters and digits alone. -/
theorem plain_of_mem_text {c : Commitment} {a : Char} (h : a ∈ (text c).toList) :
    a.toNat < 0x80 ∧ isBlank a = false ∧ a.toLower = a ∧ a ≠ '\n' := by
  have hall : ∀ n < 0x80, Hex.isDigit (Char.ofNat n) = true ∨ n = 'x'.toNat →
      isBlank (Char.ofNat n) = false ∧ (Char.ofNat n).toLower = Char.ofNat n ∧
        Char.ofNat n ≠ '\n' := by decide
  have hplain : Hex.isDigit a = true ∨ a = 'x' := by
    rw [toList_text, String.toList_ofList] at h
    rcases List.mem_cons.1 h with rfl | h
    · exact .inl (by decide)
    · exact (List.mem_cons.1 h).symm.imp_left (Hash.Digest.isDigit_of_mem_hex a)
  have hascii : a.toNat < 0x80 := by
    rcases hplain with h | rfl
    · exact Hex.toNat_lt_of_isDigit h
    · decide
  have hn := hall a.toNat hascii
  rw [Char.ofNat_toNat] at hn
  exact ⟨hascii, hn (hplain.imp_right fun h => congrArg Char.toNat h)⟩

theorem isNormal_text (c : Commitment) : IsNormal (text c) :=
  isNormal_of_lt fun _ ha => Nat.lt_trans (plain_of_mem_text ha).1 (by decide)

theorem digits?_eq_some {cs ds : List Char} : digits? cs = some ds ↔
    cs = '0' :: 'x' :: ds ∧ ds.length = 64 ∧ ∀ a ∈ ds, Hex.isDigit a = true := by
  constructor
  · intro h
    unfold digits? at h
    split at h
    next =>
      split at h
      next hds =>
        cases h
        exact ⟨rfl, hds.1, List.all_eq_true.1 hds.2⟩
      next => exact absurd h (by simp)
    next => exact absurd h (by simp)
  · rintro ⟨rfl, hlength, hdigits⟩
    rw [digits?, if_pos ⟨hlength, List.all_eq_true.2 hdigits⟩]

theorem digits?_text (c : Commitment) : digits? (text c).toList = some c.hex.toList := by
  rw [toList_text, String.toList_ofList]
  exact digits?_eq_some.2 ⟨rfl, Hash.Digest.length_hex c, Hash.Digest.isDigit_of_mem_hex⟩

theorem isText_text (c : Commitment) : isText (text c) = true := by
  rw [isText, withoutNewline, if_neg, digits?_text]
  · rfl
  · intro h
    exact (plain_of_mem_text (List.mem_of_getLast? h)).2.2.2 rfl

/-! ## Reading commitments -/

/-- Blanks around a text and capital letters in it are what is passed over. -/
theorem standardized_text (c : Commitment) : standardized (text c) = (text c).toList := by
  rw [standardized, trim_eq_self fun a ha => (plain_of_mem_text ha).2.1]
  refine (List.map_congr_left fun a ha => ?_).trans (List.map_id _)
  exact (plain_of_mem_text ha).2.2.1

/-- What is read as a commitment is, without the blanks and in small letters, its text. -/
theorem ofText?_eq_some {s : String} {c : Commitment} :
    ofText? s = some c ↔ standardized s = (text c).toList := by
  rw [ofText?, Option.bind_eq_some_iff]
  constructor
  · rintro ⟨ds, hds, hread⟩
    rw [(digits?_eq_some.1 hds).1, toList_text, String.toList_ofList,
      Hash.Digest.ofHex?_eq_some.1 hread, String.toList_ofList]
  · intro h
    refine ⟨c.hex.toList, h ▸ digits?_text c, ?_⟩
    rw [String.ofList_toList, Hash.Digest.ofHex?_hex]

theorem ofText?_text (c : Commitment) : ofText? (text c) = some c :=
  ofText?_eq_some.2 (standardized_text c)

end Commitment

end CommitChain
