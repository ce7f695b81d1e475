import CommitChain.Proofs.Hash.Domains
import CommitChain.Proofs.Json.CanonicalForm

/-!
# Trees with one digest

Trees with one digest have one canonical form, unless two different texts have one digest
(`canonicalForm_eq_or_collide`).  Under two domains no trees have one digest but by such a collision,
be they equal or not (`collide_of_digests`): a commitment is no state's digest, and no claim's.
-/

namespace CommitChain.Json

open CommitChain.Hash

/-- The bytes that are hashed for the digest of a tree. -/
def Hashed (domain : String) (x : Json) (bytes : ByteArray) : Prop :=
  ∃ text, x.canonical = .ok text ∧ bytes = framed domain [text.toUTF8]

variable {x y : Json} {domain : String}

theorem framed_text_inj {s t : String} (h : framed domain [s.toUTF8] = framed domain [t.toUTF8]) :
    s = t := by
  have hshort : ∀ part : ByteArray, ∀ p ∈ [part].dropLast, Short p :=
    fun part p hp => absurd hp List.not_mem_nil
  have hlength : [s.toUTF8].length = [t.toUTF8].length := rfl
  have hparts := framed_inj hlength (hshort _) (hshort _) h
  exact String.toByteArray_inj.1 (List.singleton_inj.1 hparts)

theorem hashed_of_canonical {text : String} (h : x.canonical = .ok text) :
    Hashed domain x (framed domain [text.toUTF8]) :=
  ⟨_, h, rfl⟩

theorem canonicalForm_eq_or_collide {d : Digest} (hx : x.digest domain = .ok d)
    (hy : y.digest domain = .ok d) :
    x.canonicalForm = y.canonicalForm ∨ Collide (Hashed domain x) (Hashed domain y) := by
  obtain ⟨s, hs, hsd⟩ := exists_canonical_of_digest hx
  obtain ⟨t, ht, htd⟩ := exists_canonical_of_digest hy
  refine (eq_or_collide (hashed_of_canonical hs) (hashed_of_canonical ht)
    (hsd.trans htd.symm)).imp_left fun h => ?_
  exact canonicalForm_eq_of_canonical hs (framed_text_inj h ▸ ht)

/-- Under two domains trees have one digest only by a collision. -/
theorem collide_of_digests {domain' : String} (hd : domain ∈ domains) (hd' : domain' ∈ domains)
    (hne : domain ≠ domain') {d : Digest} (hx : x.digest domain = .ok d)
    (hy : y.digest domain' = .ok d) : Collide (Hashed domain x) (Hashed domain' y) := by
  obtain ⟨s, hs, hsd⟩ := exists_canonical_of_digest hx
  obtain ⟨t, ht, htd⟩ := exists_canonical_of_digest hy
  refine (collide_of_domains hd hd' hne (hsd.trans htd.symm)).mono ?_ ?_
  · rintro m rfl
    exact hashed_of_canonical hs
  · rintro m rfl
    exact hashed_of_canonical ht

/-- Trees of one canonical form that can be written have one digest. -/
theorem exists_common_digest (hx : ∃ text, x.canonical = .ok text)
    (hy : ∃ text, y.canonical = .ok text) (h : x.canonicalForm = y.canonicalForm)
    (domain : String) : ∃ d, x.digest domain = .ok d ∧ y.digest domain = .ok d := by
  obtain ⟨text, htext, htext'⟩ := exists_common_canonical hx hy h
  exact ⟨_, digest_of_canonical htext domain, digest_of_canonical htext' domain⟩

end CommitChain.Json
