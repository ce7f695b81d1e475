import CommitChain.Proofs.Text.Base32

/-!
# Content addresses

Both kinds of addresses tell the digests that they are made of (`addresses_tell_digests`).  What a
proof is known by has the form of a proof identifier, proofs are known by the same one exactly if
they have one digest (`proofIdentifier_inj`), and no text is both an identifier and a commitment
(`isText_eq_false`).  A commitment is read from its text and, in capital letters or with blanks
around it, from no other text.  Letters are those of ASCII: no other letter has one that a
commitment is written with as its small letter, and a text with others is not read
(`Commitment.ascii_of_standardized`).
-/

namespace CommitChain

open CommitChain.Hash CommitChain.Text

/-! ## Identifiers of proofs -/

theorem isProofIdentifier_proofIdentifier (bytes : ByteArray) :
    isProofIdentifier (proofIdentifier bytes) = true := by
  obtain ⟨d, hd⟩ : ∃ d, d = sha256 bytes := ⟨_, rfl⟩
  have hdigits : ∀ c ∈ (Base32.encode d.bytes).toList, Base32.isDigit c = true := by
    rw [Base32.encode, String.toList_ofList]
    exact Base32.isDigit_of_mem_encodeFrom
  have htext : (proofIdentifier bytes).toList
      = 'c' :: 'p' :: '_' :: (Base32.encode d.bytes).toList := by
    rw [proofIdentifier, String.toList_append, ← hd]
    rfl
  have hlast : ∀ c ∈ (proofIdentifier bytes).toList, c ≠ '\n' := by
    rw [htext]
    refine List.forall_mem_cons.2 ⟨by decide, List.forall_mem_cons.2 ⟨by decide,
      List.forall_mem_cons.2 ⟨by decide, fun c hc he => ?_⟩⟩⟩
    have hdigit := hdigits c hc
    rw [he] at hdigit
    exact absurd hdigit (by decide)
  rw [isProofIdentifier, withoutNewline, if_neg, htext, isIdentifier, Base32.length_encode,
    List.all_eq_true.2 hdigits]
  · rfl
  · exact fun hl => hlast _ (List.mem_of_getLast? hl) rfl

theorem proofIdentifier_inj {a b : ByteArray} :
    proofIdentifier a = proofIdentifier b ↔ sha256 a = sha256 b := by
  refine ⟨fun h => ?_, fun h => by rw [proofIdentifier, proofIdentifier, h]⟩
  exact Digest.ext (Base32.encode_inj.1 ((String.append_right_inj _).1 h))

theorem digits?_of_isIdentifier {cs : List Char} (h : isIdentifier cs = true) :
    Commitment.digits? cs = none := by
  unfold isIdentifier at h
  split at h
  · rfl
  · exact absurd h (by simp)

/-- The two forms never coincide, be it with a newline behind them. -/
theorem isText_eq_false {s : String} (h : isProofIdentifier s = true) :
    Commitment.isText s = false := by
  rw [Commitment.isText, digits?_of_isIdentifier h]
  rfl

/-! ## Spellings of commitments -/

theorem ascii_of_toLower {a : Char} (h : a.toLower.toNat < 0x80) : a.toNat < 0x80 := by
  unfold Char.toLower at h
  split at h
  next hcapital => exact Nat.lt_of_le_of_lt (show a.toNat ≤ 0x5A from hcapital.2) (by decide)
  next => exact h

/-- Small letters in ASCII stand for letters in ASCII alone. -/
theorem Commitment.ascii_of_standardized {s : String} {c : Commitment}
    (h : standardized s = (text c).toList) : ∀ a ∈ trim isBlank s.toList, a.toNat < 0x80 := by
  intro a ha
  have hmem : a.toLower ∈ (text c).toList := h ▸ List.mem_map_of_mem ha
  exact ascii_of_toLower (plain_of_mem_text hmem).1

/-! ## Addresses -/

/-- Identifiers and commitments are faithful texts of their digests: two proofs have one identifier
exactly if they have one digest, and it has the form of an identifier and not that of a commitment;
a commitment is read from its text; and whatever is read as a commitment is its text, once the
blanks at both ends are dropped and the letters made small. -/
theorem addresses_tell_digests :
    (∀ a b : ByteArray, proofIdentifier a = proofIdentifier b ↔ sha256 a = sha256 b) ∧
    (∀ a : ByteArray, isProofIdentifier (proofIdentifier a) = true ∧
      Commitment.isText (proofIdentifier a) = false) ∧
    (∀ d : Digest, Commitment.ofText? (Commitment.text d) = some d) ∧
    ∀ (s : String) (d : Digest), Commitment.ofText? s = some d ↔
      (∀ a ∈ trim isBlank s.toList, a.toNat < 0x80) ∧
        String.ofList ((trim isBlank s.toList).map Char.toLower) = Commitment.text d := by
  refine ⟨fun _ _ => proofIdentifier_inj, fun a => ?_, Commitment.ofText?_text, fun s d => ?_⟩
  · have hidentifier := isProofIdentifier_proofIdentifier a
    exact ⟨hidentifier, isText_eq_false hidentifier⟩
  · rw [Commitment.ofText?_eq_some, ← String.toList_inj, String.toList_ofList]
    exact ⟨fun h => ⟨Commitment.ascii_of_standardized h, h⟩, fun h => h.2⟩

/-- The blanks around a commitment need not be ASCII. -/
example : (Commitment.ofText?
    ("\u3000\x1c0X" ++ String.ofList (List.replicate 64 'F') ++ "\u2028\n")).isSome = true := by
  decide

end CommitChain
