import CommitChain.Disk.Utf8

/-!
# Reading UTF-8

The bytes of a text are read as the text.  A text of ASCII characters has one byte for each.
-/

namespace CommitChain.Text

theorem fromUTF8?_toUTF8 (s : String) : String.fromUTF8? s.toUTF8 = some s := by
  unfold String.fromUTF8?
  rw [dif_pos (show s.toUTF8.IsValidUTF8 from s.isValidUTF8)]
  rfl

theorem size_utf8Encode {cs : List Char} (h : ∀ c ∈ cs, c.toNat < 0x80) :
    cs.utf8Encode.size = cs.length := by
  induction cs with
  | nil => rfl
  | cons c cs ih =>
    obtain ⟨hc, hcs⟩ := List.forall_mem_cons.1 h
    have hone : c.utf8Size = 1 := Char.utf8Size_eq_one_iff.2 (Nat.le_of_lt_succ hc)
    rw [List.utf8Encode_cons, ByteArray.size_append, ih hcs, List.utf8Encode_singleton,
      List.size_toByteArray, String.length_utf8EncodeChar, hone, List.length_cons, Nat.add_comm]

theorem size_toUTF8 {s : String} (h : ∀ c ∈ s.toList, c.toNat < 0x80) :
    s.toUTF8.size = s.toList.length := by
  rw [← size_utf8Encode h, String.utf8Encode_toList]
  rfl

end CommitChain.Text
