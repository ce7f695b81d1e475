import CommitChain.Proofs.Hash.Framed

/-!
# Domains

What a tagged digest hashes begins with the domain, and a zero byte ends it.  In UTF-8 that byte is
written for U+0000 alone, so the bytes tell the domain from what stands behind it
(`framed_domain_inj`), and short parts are told with their number (`sizedAll_inj_of_short`).
Digests under two domains, or of parts that are cut in two ways, are therefore equal only by a
collision (`framed_unambiguous`).
-/

namespace CommitChain.Hash

variable {domain domain' : String} {parts parts' : List ByteArray}

/-! ## The end of the domain -/

theorem eq_nul_of_zero_mem {c : Char} (h : 0 ∈ String.utf8EncodeChar c) : c = '\x00' := by
  have hbyte : ∀ {n : Nat}, 0 = UInt8.ofNat n → n % 256 = 0 := fun h => by
    simpa using (congrArg UInt8.toNat h).symm
  rw [← Char.toNat_inj]
  show c.val.toNat = 0
  -- Every byte of a longer sequence has its highest bit set.
  unfold String.utf8EncodeChar at h
  dsimp only at h
  split at h
  next hone =>
    have := hbyte (List.mem_singleton.1 h)
    omega
  next =>
    exfalso
    split at h
    · simp only [List.mem_cons, List.not_mem_nil, or_false] at h
      rcases h with h | h <;> have := hbyte h <;> omega
    · split at h
      · simp only [List.mem_cons, List.not_mem_nil, or_false] at h
        rcases h with h | h | h <;> have := hbyte h <;> omega
      · simp only [List.mem_cons, List.not_mem_nil, or_false] at h
        rcases h with h | h | h | h <;> have := hbyte h <;> omega

theorem zero_not_mem_toUTF8 {s : String} (h : '\x00' ∉ s.toList) : 0 ∉ s.toUTF8.data.toList := by
  intro hzero
  have hbytes : s.toUTF8.data.toList = s.toList.flatMap String.utf8EncodeChar := by
    rw [String.toUTF8, ← String.utf8Encode_toList, List.utf8Encode, List.data_toByteArray]
  rw [hbytes] at hzero
  obtain ⟨c, hc, hmem⟩ := List.mem_flatMap.1 hzero
  exact h (eq_nul_of_zero_mem hmem ▸ hc)

/-- Texts that a zero ends, and in which there is none, are told from what stands behind it. -/
theorem append_zero_inj {a b x y : List UInt8} (ha : 0 ∉ a) (hb : 0 ∉ b)
    (h : a ++ 0 :: x = b ++ 0 :: y) : a = b ∧ x = y := by
  induction a generalizing b with
  | nil =>
    cases b with
    | nil => exact ⟨rfl, List.tail_eq_of_cons_eq h⟩
    | cons c b => exact absurd (List.head_eq_of_cons_eq h ▸ List.mem_cons_self) hb
  | cons d a ih =>
    cases b with
    | nil => exact absurd (List.head_eq_of_cons_eq h ▸ List.mem_cons_self) ha
    | cons c b =>
      obtain ⟨rfl, hrest⟩ := List.cons_eq_cons.1 h
      obtain ⟨rfl, hbehind⟩ := ih (List.not_mem_of_not_mem_cons ha)
        (List.not_mem_of_not_mem_cons hb) hrest
      exact ⟨rfl, hbehind⟩

/-- The domain is told from the bytes of the parts, however long these are. -/
theorem framed_domain_inj (hd : '\x00' ∉ domain.toList) (hd' : '\x00' ∉ domain'.toList)
    (h : framed domain parts = framed domain' parts') :
    domain = domain' ∧ sizedAll parts = sizedAll parts' := by
  have hlist : ∀ (d : String) (ps : List ByteArray), (framed d ps).data.toList
      = d.toUTF8.data.toList ++ 0 :: (sizedAll ps).data.toList := by
    intro d ps
    simp [framed_eq]
  have heq := congrArg (fun bytes : ByteArray => bytes.data.toList) h
  simp only [hlist] at heq
  obtain ⟨hdomain, hparts⟩ :=
    append_zero_inj (zero_not_mem_toUTF8 hd) (zero_not_mem_toUTF8 hd') heq
  exact ⟨String.toByteArray_inj.1 (ByteArray.ext (Array.toList_inj.1 hdomain)),
    ByteArray.ext (Array.toList_inj.1 hparts)⟩

/-! ## The parts -/

/-- Short parts are told with their number: each begins with a length, and nothing is shorter. -/
theorem sizedAll_inj_of_short (hs : ∀ part ∈ parts, Short part)
    (hs' : ∀ part ∈ parts', Short part) (h : sizedAll parts = sizedAll parts') :
    parts = parts' := by
  have hempty : ∀ (a : ByteArray) (ps : List ByteArray), sizedAll (a :: ps) ≠ sizedAll [] := by
    intro a ps he
    have hsize := congrArg ByteArray.size he
    simp only [sizedAll, sized, ByteArray.size_append, size_bigEndian, ByteArray.size_empty] at hsize
    omega
  induction parts generalizing parts' with
  | nil =>
    cases parts' with
    | nil => rfl
    | cons b rest' => exact absurd h.symm (hempty b rest')
  | cons a rest ih =>
    cases parts' with
    | nil => exact absurd h (hempty a rest)
    | cons b rest' =>
      rw [List.forall_mem_cons] at hs hs'
      obtain ⟨rfl, hrest⟩ := sized_append_inj h hs.1 hs'.1
      rw [ih hs.2 hs'.2 hrest]

/-! ## Tagged digests -/

theorem eq_or_collide_of_taggedDigest (h : taggedDigest domain parts = taggedDigest domain' parts') :
    framed domain parts = framed domain' parts' ∨
      Collide (· = framed domain parts) (· = framed domain' parts') :=
  eq_or_collide rfl rfl h

/-- What is hashed tells the domain and the parts, so that two tagged digests are equal only if
these are, or by a collision. -/
theorem framed_unambiguous (hd : '\x00' ∉ domain.toList) (hd' : '\x00' ∉ domain'.toList)
    (hs : ∀ part ∈ parts, Short part) (hs' : ∀ part ∈ parts', Short part) :
    (framed domain parts = framed domain' parts' ↔ domain = domain' ∧ parts = parts') ∧
    (taggedDigest domain parts = taggedDigest domain' parts' ↔
      (domain = domain' ∧ parts = parts') ∨
        Collide (· = framed domain parts) (· = framed domain' parts')) := by
  have hinj : framed domain parts = framed domain' parts' ↔ domain = domain' ∧ parts = parts' := by
    constructor
    · intro h
      obtain ⟨hdomain, hparts⟩ := framed_domain_inj hd hd' h
      exact ⟨hdomain, sizedAll_inj_of_short hs hs' hparts⟩
    · rintro ⟨rfl, rfl⟩
      rfl
  refine ⟨hinj, fun h => ?_, ?_⟩
  · exact (eq_or_collide_of_taggedDigest h).imp_left hinj.1
  · rintro (⟨rfl, rfl⟩ | ⟨m, m', rfl, rfl, -, h⟩)
    · rfl
    · exact h

/-- The same bytes under one domain, cut behind the second and behind the first. -/
theorem framed_unambiguous_of_cuts :
    '\x00' ∉ foldDomain.toList ∧ (∀ part ∈ ["ab".toUTF8, "c".toUTF8], Short part) ∧
    (∀ part ∈ ["a".toUTF8, "bc".toUTF8], Short part) ∧
    framed foldDomain ["ab".toUTF8, "c".toUTF8] ≠ framed foldDomain ["a".toUTF8, "bc".toUTF8] ∧
    (taggedDigest foldDomain ["ab".toUTF8, "c".toUTF8]
        = taggedDigest foldDomain ["a".toUTF8, "bc".toUTF8] →
      Collide (· = framed foldDomain ["ab".toUTF8, "c".toUTF8])
        (· = framed foldDomain ["a".toUTF8, "bc".toUTF8])) := by
  have hd : '\x00' ∉ foldDomain.toList := by decide
  have hs : ∀ part ∈ ["ab".toUTF8, "c".toUTF8], Short part := by
    simp only [List.forall_mem_cons, Short]
    exact ⟨by decide, by decide, fun _ h => absurd h List.not_mem_nil⟩
  have hs' : ∀ part ∈ ["a".toUTF8, "bc".toUTF8], Short part := by
    simp only [List.forall_mem_cons, Short]
    exact ⟨by decide, by decide, fun _ h => absurd h List.not_mem_nil⟩
  have hne : ["ab".toUTF8, "c".toUTF8] ≠ ["a".toUTF8, "bc".toUTF8] := by decide
  obtain ⟨hbytes, hdigests⟩ := framed_unambiguous hd hd hs hs'
  exact ⟨hd, hs, hs', fun h => hne (hbytes.1 h).2,
    fun h => (hdigests.1 h).resolve_left fun heq => hne heq.2⟩

/-- A zero byte in the domain could stand for the length of a part. -/
example : framed "d" [ByteArray.empty] = framed "d\x00\x00\x00\x00\x00\x00\x00\x00" [] := by
  decide

/-- The domains under which something is hashed. -/
def domains : List String :=
  [commitDomain, stateDomain, claimDomain, foldDomain, sealDomain, paramsDomain]

theorem nul_not_mem_of_mem_domains : ∀ d ∈ domains, '\x00' ∉ d.toList := by
  decide

theorem nodup_domains : domains.Nodup := by
  decide

/-- Nothing is hashed under two domains: a digest under the one is a digest under the other only by
a collision. -/
theorem collide_of_domains (hd : domain ∈ domains) (hd' : domain' ∈ domains)
    (hne : domain ≠ domain') (h : taggedDigest domain parts = taggedDigest domain' parts') :
    Collide (· = framed domain parts) (· = framed domain' parts') := by
  refine (eq_or_collide_of_taggedDigest h).resolve_left fun heq => hne ?_
  exact (framed_domain_inj (nul_not_mem_of_mem_domains _ hd) (nul_not_mem_of_mem_domains _ hd')
    heq).1

end CommitChain.Hash
