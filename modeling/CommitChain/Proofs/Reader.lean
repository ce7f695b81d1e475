import CommitChain.Proofs.Outcome
import CommitChain.Proofs.Text.Normal
import CommitChain.Proofs.Value.Regular
import CommitChain.Reader.Datum

/-!
# What is read

What one call of the parser comes to is one equivalence each for an expression and for the rest of a
list (`datum_eq_ok`, `rest_eq_ok`).  What holds of the atoms and strings of a text and of pairs of
such values holds of everything that is read (`Reader.Inherited`).  So what is read is regular: the
reader brings names and strings into normal form, and it makes no functions.
-/

namespace CommitChain

open CommitChain.Text

theorem Value.regular_symbol (name : String) : (symbol name).Regular :=
  isNormal_normalize name

theorem Value.regular_text (s : String) : (text s).Regular :=
  isNormal_normalize s

namespace Reader

theorem regular_of_stringValue {lexeme : List Char} {offset : Nat} {v : Value}
    (h : stringValue lexeme offset = .ok v) : v.Regular := by
  unfold stringValue at h
  split at h
  next cs _ =>
    cases h
    exact Value.regular_text _
  next => exact absurd h (by simp)

theorem regular_of_atomValue {lexeme : List Char} {offset : Nat} {v : Value}
    (h : atomValue lexeme offset = .ok v) : v.Regular := by
  unfold atomValue at h
  split at h
  · dsimp only at h
    split at h
    · exact absurd h (by simp)
    · cases h
      exact trivial
  · split at h
    · cases h
      exact trivial
    · cases h
      exact Value.regular_symbol _

/-! ## One call -/

section

variable {level fuel start : Nat} {first : Bool} {tokens others : List Token} {v : Value}

/-- The ways to take one expression off a row of tokens. -/
theorem datum_eq_ok : datum level (fuel + 1) tokens = .ok (v, others) ↔
    level < depthLimit ∧ ∃ t ts, tokens = t :: ts ∧
      (t.kind = .opening ∧ rest t.offset (level + 1) true fuel ts = .ok (v, others) ∨
      t.kind = .quote ∧ (∃ w, datum (level + 1) fuel ts = .ok (w, others) ∧
        v = .ofList [.sym "quote", w]) ∨
      t.kind = .string ∧ stringValue t.lexeme t.offset = .ok v ∧ ts = others ∨
      t.kind = .atom ∧ isDot t = false ∧ atomValue t.lexeme t.offset = .ok v ∧ ts = others) := by
  rw [datum.eq_def]
  dsimp only
  split
  next hlevel => exact iff_of_false (by simp) fun h => Nat.not_lt.2 hlevel h.1
  next hlevel =>
    rw [and_iff_right (Nat.not_le.1 hlevel)]
    split
    next => simp
    next t ts =>
      simp only [List.cons.injEq, exists_and_left, and_assoc, exists_eq_left']
      split
      next hkind => simp [hkind]
      next hkind => simp [hkind]
      next hkind =>
        simp only [hkind, reduceCtorEq, false_and, or_false, false_or, true_and]
        constructor
        · intro h
          obtain ⟨⟨w, between⟩, hw, h⟩ := bind_eq_ok.1 h
          cases h
          exact ⟨w, hw, rfl⟩
        · rintro ⟨w, hw, rfl⟩
          rw [hw]
          rfl
      next hkind => simp [hkind, bind_eq_ok]
      next hkind =>
        cases hdot : isDot t
        · simp [hkind, bind_eq_ok]
        · simp [hkind]

/-- The ways to take the rest of a list off a row of tokens. -/
theorem rest_eq_ok : rest start level first (fuel + 1) tokens = .ok (v, others) ↔
    ∃ t ts, tokens = t :: ts ∧
      (t.kind = .closing ∧ v = .nil ∧ ts = others ∨
      t.kind ≠ .closing ∧ isDot t = true ∧ first = false ∧
        (∃ c, c.kind = .closing ∧ datum level fuel ts = .ok (v, c :: others)) ∨
      t.kind ≠ .closing ∧ isDot t = false ∧ ∃ a b between,
        datum level fuel tokens = .ok (a, between) ∧
        rest start level false fuel between = .ok (b, others) ∧ v = .cons a b) := by
  rw [rest.eq_def]
  dsimp only
  split
  next => simp
  next t ts =>
    simp only [List.cons.injEq, exists_and_left, and_assoc, exists_eq_left']
    split
    next hkind => simp [hkind, eq_comm (a := v)]
    next hkind =>
      cases hdot : isDot t
      · simp only [hkind, Bool.false_eq_true, if_false, false_and, false_or, not_false_eq_true,
          ne_eq, true_and]
        constructor
        · intro h
          obtain ⟨⟨a, between⟩, ha, h⟩ := bind_eq_ok.1 h
          obtain ⟨⟨b, _⟩, hb, h⟩ := bind_eq_ok.1 h
          cases h
          exact ⟨a, b, between, ha, hb, rfl⟩
        · rintro ⟨a, b, between, ha, hb, rfl⟩
          rw [ha, ok_bind, hb]
          rfl
      · cases first
        · simp only [hkind, if_true, Bool.false_eq_true, if_false, false_and, false_or,
            not_false_eq_true, ne_eq, true_and, or_false, reduceCtorEq]
          constructor
          · intro h
            obtain ⟨⟨w, between⟩, hw, h⟩ := bind_eq_ok.1 h
            dsimp only at h
            split at h
            · cases h
            next c _ =>
              split at h
              next hclose =>
                cases h
                exact ⟨c, hclose, hw⟩
              · cases h
          · rintro ⟨c, hclose, hw⟩
            rw [hw, ok_bind]
            exact if_pos hclose
        · simp [hkind]

end

/-- A property of the atoms and strings that are read which pairs have from their parts. -/
structure Inherited (P : Value → Prop) : Prop where
  nil : P .nil
  cons : ∀ {a b : Value}, P a → P b → P (.cons a b)
  quote : P (.sym "quote")
  string : ∀ {lexeme : List Char} {offset : Nat} {v : Value},
    stringValue lexeme offset = .ok v → P v
  atom : ∀ {lexeme : List Char} {offset : Nat} {v : Value}, atomValue lexeme offset = .ok v → P v

section

variable {P : Value → Prop}

/-- One expression and the rest of a list call each other; the induction is on the number of calls
that are left. -/
theorem Inherited.of_datum_and_rest (hP : Inherited P) (fuel : Nat) :
    (∀ level tokens v others, datum level fuel tokens = .ok (v, others) → P v) ∧
      ∀ start level first tokens v others,
        rest start level first fuel tokens = .ok (v, others) → P v := by
  induction fuel with
  | zero =>
    refine ⟨fun level tokens v others h => ?_, fun start level first tokens v others h => ?_⟩
    · rw [datum] at h
      exact absurd h (by simp)
    · rw [rest] at h
      exact absurd h (by simp)
  | succ fuel ih =>
    obtain ⟨ihDatum, ihRest⟩ := ih
    constructor
    · intro level tokens v others h
      obtain ⟨_, t, ts, _, ⟨_, h⟩ | ⟨_, w, hw, rfl⟩ | ⟨_, h, _⟩ | ⟨_, _, h, _⟩⟩ := datum_eq_ok.1 h
      · exact ihRest _ _ _ _ _ _ h
      · exact hP.cons hP.quote (hP.cons (ihDatum _ _ _ _ hw) hP.nil)
      · exact hP.string h
      · exact hP.atom h
    · intro start level first tokens v others h
      obtain ⟨t, ts, _, ⟨_, rfl, _⟩ | ⟨_, _, _, c, _, h⟩ | ⟨_, _, a, b, between, ha, hb, rfl⟩⟩ :=
        rest_eq_ok.1 h
      · exact hP.nil
      · exact ihDatum _ _ _ _ h
      · exact hP.cons (ihDatum _ _ _ _ ha) (ihRest _ _ _ _ _ _ hb)

theorem Inherited.of_read (hP : Inherited P) {text : String} {v : Value}
    (h : Value.read text = .ok v) : P v := by
  obtain ⟨tokens, _, h⟩ := bind_eq_ok.1 h
  split at h
  · exact absurd h (by simp)
  · obtain ⟨⟨w, others⟩, hw, h⟩ := bind_eq_ok.1 h
    dsimp only at h
    split at h
    · cases h
      exact (hP.of_datum_and_rest _).1 _ _ _ _ hw
    · exact absurd h (by simp)

end

theorem inherited_regular : Inherited Value.Regular where
  nil := trivial
  cons := And.intro
  quote := (by decide : IsNormal "quote")
  string := regular_of_stringValue
  atom := regular_of_atomValue

end Reader

theorem Value.regular_of_read {text : String} {v : Value} (h : read text = .ok v) : v.Regular :=
  Reader.inherited_regular.of_read h

end CommitChain
