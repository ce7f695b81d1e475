import CommitChain.Proofs.Reader.Exact
import Mathlib.Data.List.Permutation

/-!
# Texts one after the other

`Value.readAll` accepts the texts whose tokens derive some expressions one after the other
(`readAll_eq_ok`).  Where a text stands shows in nothing but the offsets of its tokens, which no
derivation looks at, and a line break ends whatever an accepted text leaves open, a comment or an
atom.  So the tokens of two texts with a line break between them are those of the one and then those
of the other (`Tiles.append_line`), and the expressions are, too.
-/

namespace CommitChain

open CommitChain.Text

/-! ## Where a text stands -/

/-- The same token, further on. -/
def Token.shift (d : Nat) (t : Token) : Token :=
  { t with offset := t.offset + d }

theorem Tiles.shift {offset : Nat} {cs : List Char} {ts : List Token} (d : Nat)
    (h : Tiles offset cs ts) : Tiles (offset + d) cs (ts.map (Token.shift d)) := by
  induction h with
  | done offset => exact .done (offset + d)
  | @blank offset c cs ts hc others ih =>
    rw [Nat.add_right_comm] at ih
    exact .blank hc ih
  | @comment offset line cs ts hline ends others ih =>
    rw [Nat.add_right_comm, Nat.add_right_comm offset] at ih
    exact .comment hline ends ih
  | @mark offset c kind cs ts hmark others ih =>
    rw [Nat.add_right_comm] at ih
    exact .mark hmark ih
  | @string offset body cs ts hbody others ih =>
    have hoffset : offset + 1 + body.length + 1 + d = offset + d + 1 + body.length + 1 := by omega
    rw [hoffset] at ih
    exact .string hbody ih
  | @atom offset c more cs ts hchars ends others ih =>
    rw [Nat.add_right_comm, Nat.add_right_comm offset] at ih
    exact .atom hchars ends ih

/-- A line break ends a comment and an atom, and strings do not reach it. -/
theorem Tiles.append_line {offset : Nat} {cs ds : List Char} {ts us : List Token}
    (h : Tiles offset cs ts) (g : Tiles (offset + cs.length) ('\n' :: ds) us) :
    Tiles offset (cs ++ '\n' :: ds) (ts ++ us) := by
  have head : ∀ {P : Char → Prop} {cs : List Char}, P '\n' → (∀ c ∈ cs.head?, P c) →
      ∀ c ∈ (cs ++ '\n' :: ds).head?, P c := by
    intro P cs hline hcs
    cases cs with
    | nil => exact fun c hc => Option.some.inj hc ▸ hline
    | cons a cs => exact hcs
  have hatom : ¬IsAtomChar '\n' := fun h => absurd h.1 (by decide)
  induction h with
  | done offset => exact g
  | @blank offset c cs ts hc others ih =>
    rw [add_length_cons] at g
    exact .blank hc (ih g)
  | @comment offset line cs ts hline ends others ih =>
    rw [List.length_cons, List.length_append] at g
    have hoffset : offset + (line.length + cs.length + 1)
        = offset + 1 + line.length + cs.length := by
      omega
    rw [List.cons_append, List.append_assoc]
    exact .comment hline (head rfl ends) (ih (hoffset ▸ g))
  | @mark offset c kind cs ts hmark others ih =>
    rw [add_length_cons] at g
    exact .mark hmark (ih g)
  | @string offset body cs ts hbody others ih =>
    rw [List.length_cons, List.length_append, List.length_cons] at g
    have hoffset : offset + (body.length + (cs.length + 1) + 1)
        = offset + 1 + body.length + 1 + cs.length := by
      omega
    rw [List.cons_append, List.append_assoc]
    exact .string hbody (ih (hoffset ▸ g))
  | @atom offset c more cs ts hchars ends others ih =>
    rw [List.length_cons, List.length_append] at g
    have hoffset : offset + (more.length + cs.length + 1)
        = offset + 1 + more.length + cs.length := by
      omega
    rw [List.cons_append, List.append_assoc]
    exact .atom hchars (head hatom ends) (ih (hoffset ▸ g))

namespace Reader

mutual

/-- What tokens derive does not depend on where they stand, by recursion on the derivation. -/
theorem Derives.shift {levels : Nat} {ts : List Token} {v : Value} (d : Nat) :
    Derives levels ts v → Derives levels (ts.map (Token.shift d)) v
  | .atom hkind hdot means => .atom hkind hdot means
  | .string hkind means => .string hkind means
  | .quote hkind datum => .quote hkind (datum.shift d)
  | @Derives.list _ t c _ _ hopen items hclose => by
    have hlist := Derives.list (t := t.shift d) (c := c.shift d) hopen (items.shift d) hclose
    rwa [List.map_cons, List.map_append]
  | @Derives.dotted _ t dot c _ _ _ _ hopen items hne hdot tail hclose => by
    have hlist := Derives.dotted (t := t.shift d) (d := dot.shift d) (c := c.shift d) hopen
      (items.shift d) hne hdot (tail.shift d) hclose
    rwa [List.map_cons, List.map_append, List.map_cons, List.map_append]

theorem DerivesAll.shift {levels : Nat} {ts : List Token} {vs : List Value} (d : Nat) :
    DerivesAll levels ts vs → DerivesAll levels (ts.map (Token.shift d)) vs
  | .nil => .nil
  | .cons first others => by
    rw [List.map_append]
    exact .cons (first.shift d) (others.shift d)

end

theorem DerivesAll.append {levels : Nat} {ts us : List Token} {vs ws : List Value} :
    DerivesAll levels ts vs → DerivesAll levels us ws → DerivesAll levels (ts ++ us) (vs ++ ws)
  | .nil, g => g
  | .cons first others, g => by
    rw [List.append_assoc]
    exact .cons first (others.append g)

/-! ## What all expressions of a text are -/

theorem Admissible.shift {t : Token} (h : Admissible t) (d : Nat) : Admissible (t.shift d) :=
  ⟨h.integer, h.escapes⟩

/-- The ways to take the first of some expressions off a row of tokens. -/
theorem data_eq_ok {calls fuel : Nat} {t : Token} {ts : List Token} {vs : List Value} :
    data calls (fuel + 1) (t :: ts) = .ok vs ↔ ∃ v others ws,
      datum 0 calls (t :: ts) = .ok (v, others) ∧ data calls fuel others = .ok ws ∧
        vs = v :: ws := by
  rw [data]
  · constructor
    · intro h
      obtain ⟨⟨v, others⟩, hv, h⟩ := bind_eq_ok.1 h
      obtain ⟨ws, hws, h⟩ := bind_eq_ok.1 h
      cases h
      exact ⟨v, others, ws, hv, hws, rfl⟩
    · rintro ⟨v, others, ws, hv, hws, rfl⟩
      rw [hv, ok_bind]
      dsimp only
      rw [hws]
      rfl
  · exact List.cons_ne_nil t ts

/-- The parser takes expressions off a row of tokens until none is left, and there are not more of
them than tokens. -/
theorem derivesAll_of_data {calls fuel : Nat} {tokens : List Token} {vs : List Value}
    (hfuel : tokens.length ≤ fuel) (h : data calls fuel tokens = .ok vs) :
    DerivesAll depthLimit tokens vs ∧ ∀ t ∈ tokens, Admissible t := by
  induction fuel generalizing tokens vs with
  | zero =>
    obtain rfl := List.eq_nil_of_length_eq_zero (Nat.le_zero.1 hfuel)
    rw [data] at h
    cases h
    exact ⟨.nil, fun t ht => absurd ht List.not_mem_nil⟩
  | succ fuel ih =>
    cases tokens with
    | nil =>
      rw [data] at h
      cases h
      exact ⟨.nil, fun t ht => absurd ht List.not_mem_nil⟩
    | cons t ts =>
      obtain ⟨v, others, ws, hv, hws, rfl⟩ := data_eq_ok.1 h
      obtain ⟨taken, htokens, hderives, htaken⟩ := (takes_derivation calls).1 _ _ _ _ hv
      obtain ⟨first, more, rfl, _⟩ := hderives.head
      rw [htokens, List.length_append, List.length_cons] at hfuel
      obtain ⟨hothers, hadmissible⟩ := ih (by omega) hws
      rw [htokens]
      exact ⟨.cons hderives hothers, List.forall_mem_append.2 ⟨htaken, hadmissible⟩⟩

/-- What tokens derive is given for them, if the parser may make two calls for each. -/
theorem DerivesAll.data_eq {calls fuel : Nat} {tokens : List Token} {vs : List Value}
    (hcalls : 2 * tokens.length ≤ calls) (hfuel : tokens.length ≤ fuel)
    (hts : ∀ t ∈ tokens, Admissible t) :
    DerivesAll depthLimit tokens vs → data calls fuel tokens = .ok vs
  | .nil => by cases fuel <;> rw [data]
  | @DerivesAll.cons _ ts ts' v vs first others => by
    obtain ⟨hfirst, hothers⟩ := List.forall_mem_append.1 hts
    obtain ⟨t, more, rfl, _⟩ := first.head
    rw [List.length_append, List.length_cons] at hcalls hfuel
    obtain ⟨fuel, rfl⟩ := exists_succ_of_le (Nat.succ_pos more.length) (by omega : _ ≤ fuel)
    have hdatum := first.gives hfirst 0 calls ts' (Nat.le_refl _) (by
      rw [List.length_cons]
      omega)
    have hdata : data calls fuel ts' = .ok vs := others.data_eq (by omega) (by omega) hothers
    exact data_eq_ok.2 ⟨v, ts', vs, hdatum, hdata, rfl⟩

/-- The expressions of a text are those that its tokens derive one after the other. -/
theorem readAll_eq_ok {text : String} {vs : List Value} :
    Value.readAll text = .ok vs ↔ ∃ tokens, Tiles 0 text.toList tokens ∧
      DerivesAll depthLimit tokens vs ∧ ∀ t ∈ tokens, Admissible t := by
  constructor
  · intro h
    obtain ⟨tokens, hscan, h⟩ := bind_eq_ok.1 h
    exact ⟨tokens, scan_eq_ok.1 hscan, derivesAll_of_data (Nat.le_refl _) h⟩
  · rintro ⟨tokens, htiles, hderives, hts⟩
    rw [Value.readAll, scan_eq_ok.2 htiles, ok_bind]
    exact hderives.data_eq (by rw [enough]; omega) (Nat.le_refl _) hts

theorem derivesAll_singleton {levels : Nat} {tokens : List Token} {v : Value} :
    DerivesAll levels tokens [v] ↔ Derives levels tokens v := by
  constructor
  · rintro (_ | ⟨first, ⟨⟩⟩)
    rwa [List.append_nil]
  · intro h
    have hall := DerivesAll.cons h .nil
    rwa [List.append_nil] at hall

/-- One expression is a sequence of one. -/
theorem read_eq_ok {text : String} {v : Value} :
    Value.read text = .ok v ↔ Value.readAll text = .ok [v] := by
  simp only [readAll_eq_ok, derivesAll_singleton]
  constructor
  · intro h
    obtain ⟨tokens, htokens⟩ := accepts_of_read h
    exact ⟨tokens, htokens.tiles, htokens.derives,
      fun t ht => ⟨htokens.integers t ht, htokens.escapes t ht⟩⟩
  · rintro ⟨tokens, htiles, hderives, hts⟩
    exact Accepts.read_eq ⟨htiles, hderives, fun t ht => (hts t ht).integer,
      fun t ht => (hts t ht).escapes⟩

/-- Two texts that are read are read one after the other, if there is a line break between them. -/
theorem readAll_line {s t : String} {vs ws : List Value} (hs : Value.readAll s = .ok vs)
    (ht : Value.readAll t = .ok ws) : Value.readAll (s ++ "\n" ++ t) = .ok (vs ++ ws) := by
  obtain ⟨ts, hts, hvs, has⟩ := readAll_eq_ok.1 hs
  obtain ⟨us, hus, hws, hau⟩ := readAll_eq_ok.1 ht
  have hline : Tiles (0 + s.toList.length) ('\n' :: t.toList)
      (us.map (Token.shift (s.toList.length + 1))) := by
    have hshift := hus.shift (s.toList.length + 1)
    rw [← Nat.add_assoc] at hshift
    exact .blank (by decide) hshift
  refine readAll_eq_ok.2 ⟨_, ?_, hvs.append (hws.shift (s.toList.length + 1)), ?_⟩
  · rw [String.toList_append, String.toList_append, List.append_assoc]
    exact hts.append_line hline
  · refine List.forall_mem_append.2 ⟨has, List.forall_mem_map.2 fun t ht => ?_⟩
    exact (hau t ht).shift _

/-- Reading goes expression by expression: texts with a line break between them are read as what the
one and then the other is read as, and a text is one expression exactly if it is read as a sequence
of one. -/
theorem reading_is_compositional :
    (∀ (s t : String) (vs ws : List Value), Value.readAll s = .ok vs → Value.readAll t = .ok ws →
      Value.readAll (s ++ "\n" ++ t) = .ok (vs ++ ws)) ∧
    ∀ (text : String) (v : Value), Value.read text = .ok v ↔ Value.readAll text = .ok [v] :=
  ⟨fun _ _ _ _ hs ht => readAll_line hs ht, fun _ _ => read_eq_ok⟩

/-- The first text ends in a comment, and the second begins with an atom. -/
theorem reading_is_compositional_after_comment :
    Value.readAll "a (b . 'c) ; d" = .ok [.sym "a", .cons (.sym "b")
      (.ofList [.sym "quote", .sym "c"])] ∧ Value.readAll "12" = .ok [.num 12] ∧
    Value.readAll ("a (b . 'c) ; d" ++ "\n" ++ "12") = .ok ([.sym "a", .cons (.sym "b")
      (.ofList [.sym "quote", .sym "c"])] ++ [.num 12]) := by
  have hfirst : Value.readAll "a (b . 'c) ; d" = .ok [.sym "a", .cons (.sym "b")
      (.ofList [.sym "quote", .sym "c"])] := by
    cbv
  have hsecond : Value.readAll "12" = .ok [.num 12] := by
    cbv
  exact ⟨hfirst, hsecond, reading_is_compositional.1 _ _ _ _ hfirst hsecond⟩

end Reader

end CommitChain
