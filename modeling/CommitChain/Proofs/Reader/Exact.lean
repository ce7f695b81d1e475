import CommitChain.Failure
import CommitChain.Proofs.Reader
import CommitChain.Proofs.Reader.Grammar
import CommitChain.Proofs.Reader.Tokens

/-!
# The reader accepts its grammar

A text is read as a value if and only if it is laid out as tokens that derive the value within the
limits on nesting and digits, and all its escapes are known (`reads_exactly_grammar`).  The parser
takes tokens off the front of a row and leaves the others: whatever it takes derives what it gives
(`takes_derivation`), and it gives what tokens derive, whatever stands behind them, if it may make
two calls for each of them (`Derives.gives`).
-/

namespace CommitChain.Reader

open CommitChain.Text

/-! ## What the parser takes -/

theorem isDot_iff {t : Token} : isDot t = true ↔ IsDot t := by
  simp [isDot, IsDot]

theorem admissible_of_kind {t : Token} (hatom : t.kind ≠ .atom) (hstring : t.kind ≠ .string) :
    Admissible t :=
  ⟨fun h => absurd h hatom, fun h => absurd h hstring⟩

theorem IsDot.admissible {t : Token} (h : IsDot t) : Admissible t := by
  refine ⟨fun _ ds n hw => ?_, fun hstring => absurd (h.1.symm.trans hstring) (by simp)⟩
  rw [h.2] at hw
  exact absurd (writesInteger_iff.1 hw).1 (by decide)

theorem StringMeans.escapesKnown {lexeme : List Char} {v : Value} (h : StringMeans lexeme v) :
    EscapesKnown (inner lexeme) := by
  cases h with
  | intro h => exact h.escapesKnown

/-- Tokens that make up the rest of a list behind its opening parenthesis; `first` says that nothing
of the list was taken yet. -/
inductive Closes (levels : Nat) : Bool → List Token → Value → Prop
  | close {first : Bool} {c : Token} (hclose : c.kind = .closing) : Closes levels first [c] .nil
  | dot {d c : Token} {ts : List Token} {v : Value} (hdot : IsDot d) (tail : Derives levels ts v)
      (hclose : c.kind = .closing) : Closes levels false (d :: (ts ++ [c])) v
  | item {first : Bool} {ts ts' : List Token} {v w : Value} (datum : Derives levels ts v)
      (others : Closes levels false ts' w) : Closes levels first (ts ++ ts') (.cons v w)

/-- The rest of a list is some expressions and the closing parenthesis, perhaps with a dot and one
more expression between them. -/
theorem Closes.cases_on_items {levels : Nat} {first : Bool} {ts : List Token} {v : Value}
    (h : Closes levels first ts v) : ∃ ts₁ vs, DerivesAll levels ts₁ vs ∧
      ((∃ c, c.kind = .closing ∧ ts = ts₁ ++ [c] ∧ v = .ofList vs) ∨
        ∃ d ts₂ c w, IsDot d ∧ Derives levels ts₂ w ∧ c.kind = .closing ∧
          (first = true → vs ≠ []) ∧ ts = ts₁ ++ d :: (ts₂ ++ [c]) ∧ v = .chain vs w) := by
  induction h with
  | @close first c hclose => exact ⟨[], [], .nil, .inl ⟨c, hclose, rfl, rfl⟩⟩
  | @dot d c ts v hdot tail hclose =>
    exact ⟨[], [], .nil, .inr ⟨d, ts, c, v, hdot, tail, hclose, fun h => absurd h (by simp), rfl,
      rfl⟩⟩
  | @item first ts ts' v w datum others ih =>
    obtain ⟨ts₁, vs, hitems, ⟨c, hclose, rfl, rfl⟩ | ⟨d, ts₂, c, u, hdot, tail, hclose, _, rfl,
      rfl⟩⟩ := ih
    · exact ⟨ts ++ ts₁, v :: vs, .cons datum hitems, .inl ⟨c, hclose, by simp, rfl⟩⟩
    · exact ⟨ts ++ ts₁, v :: vs, .cons datum hitems, .inr ⟨d, ts₂, c, u, hdot, tail, hclose,
        fun _ => List.cons_ne_nil _ _, by simp, rfl⟩⟩

theorem Closes.derives {levels : Nat} {t : Token} {ts : List Token} {v : Value}
    (h : Closes levels true ts v) (hopen : t.kind = .opening) :
    Derives (levels + 1) (t :: ts) v := by
  obtain ⟨ts₁, vs, hitems, ⟨c, hclose, rfl, rfl⟩ | ⟨d, ts₂, c, w, hdot, tail, hclose, hne, rfl,
    rfl⟩⟩ := h.cases_on_items
  · exact .list hopen hitems hclose
  · exact .dotted hopen hitems (hne rfl) hdot tail hclose

/-- What the parser takes off a row of tokens derives what it gives, by induction on the number of
calls that are left. -/
theorem takes_derivation (fuel : Nat) :
    (∀ level tokens v others, datum level fuel tokens = .ok (v, others) →
      ∃ ts, tokens = ts ++ others ∧ Derives (depthLimit - level) ts v ∧
        ∀ t ∈ ts, Admissible t) ∧
    ∀ start level first tokens v others, rest start level first fuel tokens = .ok (v, others) →
      ∃ ts, tokens = ts ++ others ∧ Closes (depthLimit - level) first ts v ∧
        ∀ t ∈ ts, Admissible t := by
  induction fuel with
  | zero =>
    refine ⟨fun level tokens v others h => ?_, fun start level first tokens v others h => ?_⟩
    · rw [datum] at h
      exact absurd h (by simp)
    · rw [rest] at h
      exact absurd h (by simp)
  | succ fuel ih =>
    obtain ⟨ihDatum, ihRest⟩ := ih
    constructor
    · intro level tokens v others hread
      obtain ⟨hlevel, t, ts, rfl, h⟩ := datum_eq_ok.1 hread
      have hlevels : depthLimit - level = depthLimit - (level + 1) + 1 := by omega
      rw [hlevels]
      obtain ⟨hkind, h⟩ | ⟨hkind, w, hw, rfl⟩ | ⟨hkind, h, rfl⟩ | ⟨hkind, hdot, h, rfl⟩ := h
      · obtain ⟨ts, rfl, hcloses, hts⟩ := ihRest _ _ _ _ _ _ h
        have ht : Admissible t := admissible_of_kind (by simp [hkind]) (by simp [hkind])
        exact ⟨t :: ts, rfl, hcloses.derives hkind, List.forall_mem_cons.2 ⟨ht, hts⟩⟩
      · obtain ⟨ts, rfl, hderives, hts⟩ := ihDatum _ _ _ _ hw
        have ht : Admissible t := admissible_of_kind (by simp [hkind]) (by simp [hkind])
        exact ⟨t :: ts, rfl, .quote hkind hderives, List.forall_mem_cons.2 ⟨ht, hts⟩⟩
      · have hmeans := stringValue_eq_ok.1 h
        have ht : Admissible t :=
          ⟨fun h => absurd (hkind.symm.trans h) (by simp), fun _ => hmeans.escapesKnown⟩
        exact ⟨[t], rfl, .string hkind hmeans, List.forall_mem_singleton.2 ht⟩
      · obtain ⟨hmeans, hshort⟩ := atomValue_eq_ok.1 h
        have hne : ¬IsDot t := by rwa [← isDot_iff, Bool.not_eq_true]
        have ht : Admissible t :=
          ⟨fun _ => hshort, fun h => absurd (hkind.symm.trans h) (by simp)⟩
        exact ⟨[t], rfl, .atom hkind (fun hl => hne ⟨hkind, hl⟩) hmeans,
          List.forall_mem_singleton.2 ht⟩
    · intro start level first tokens v others h
      obtain ⟨t, ts, rfl, ⟨hkind, rfl, rfl⟩ | ⟨_, hdot, rfl, c, hclose, hw⟩ |
        ⟨_, _, a, b, between, ha, hb, rfl⟩⟩ := rest_eq_ok.1 h
      · have ht : Admissible t := admissible_of_kind (by simp [hkind]) (by simp [hkind])
        exact ⟨[t], rfl, .close hkind, List.forall_mem_singleton.2 ht⟩
      · obtain ⟨ts, rfl, hderives, hts⟩ := ihDatum _ _ _ _ hw
        have hc : Admissible c := admissible_of_kind (by simp [hclose]) (by simp [hclose])
        refine ⟨t :: (ts ++ [c]), by simp, .dot (isDot_iff.1 hdot) hderives hclose, ?_⟩
        simpa [or_imp, forall_and, hc] using And.intro (isDot_iff.1 hdot).admissible hts
      · obtain ⟨ts₁, htokens, hderives, hts₁⟩ := ihDatum _ _ _ _ ha
        obtain ⟨ts₂, rfl, hcloses, hts₂⟩ := ihRest _ _ _ _ _ _ hb
        exact ⟨ts₁ ++ ts₂, by rw [htokens, List.append_assoc], .item hderives hcloses,
          List.forall_mem_append.2 ⟨hts₁, hts₂⟩⟩

/-! ## What the parser gives -/

theorem Derives.head {levels : Nat} {ts : List Token} {v : Value} (h : Derives levels ts v) :
    ∃ t others, ts = t :: others ∧ t.kind ≠ .closing ∧ isDot t = false := by
  have hkinds : ∀ {t : Token}, t.kind ≠ .atom → isDot t = false := fun h => by simp [isDot, h]
  cases h with
  | @atom levels t v hkind hdot =>
    exact ⟨t, [], rfl, by simp [hkind], by simp [isDot, hdot]⟩
  | @string levels t v hkind => exact ⟨t, [], rfl, by simp [hkind], hkinds (by simp [hkind])⟩
  | @quote levels t ts v hkind => exact ⟨t, ts, rfl, by simp [hkind], hkinds (by simp [hkind])⟩
  | @list levels t c ts vs hopen =>
    exact ⟨t, _, rfl, by simp [hopen], hkinds (by simp [hopen])⟩
  | @dotted levels t d c ts ts' vs v hopen =>
    exact ⟨t, _, rfl, by simp [hopen], hkinds (by simp [hopen])⟩

/-- The parser gives `v` for these tokens inside expressions of so many levels, whatever stands
behind them, if it may make two calls for each. -/
def Gives (levels : Nat) (ts : List Token) (v : Value) : Prop :=
  ∀ level fuel others, level + levels ≤ depthLimit → 2 * ts.length ≤ fuel →
    datum level fuel (ts ++ others) = .ok (v, others)

/-- If the rest of a list comes to `w` by some number of calls, it comes to a chain that ends in `w`
with these tokens in front of it. -/
def GivesAll (levels : Nat) (ts : List Token) (vs : List Value) : Prop :=
  ∀ start level first calls more w others, level + levels ≤ depthLimit → 0 < calls →
    (∀ fuel, calls ≤ fuel →
      rest start level (first && vs.isEmpty) fuel more = .ok (w, others)) →
    ∀ fuel, calls + 2 * ts.length ≤ fuel →
      rest start level first fuel (ts ++ more) = .ok (.chain vs w, others)

theorem exists_succ_of_le {n fuel : Nat} (hn : 0 < n) (h : n ≤ fuel) : ∃ k, fuel = k + 1 :=
  Nat.exists_eq_succ_of_ne_zero (by omega)

theorem GivesAll.nil {levels : Nat} : GivesAll levels [] [] := by
  intro start level first calls more w others _ _ hmore fuel hfuel
  have hrest := hmore fuel hfuel
  rwa [List.isEmpty_nil, Bool.and_true] at hrest

theorem GivesAll.cons {levels : Nat} {ts ts' : List Token} {v : Value} {vs : List Value}
    (hhead : ∃ t others, ts = t :: others ∧ t.kind ≠ .closing ∧ isDot t = false)
    (h : Gives levels ts v) (hs : GivesAll levels ts' vs) :
    GivesAll levels (ts ++ ts') (v :: vs) := by
  intro start level first calls more w others hlevel hcalls hmore fuel hfuel
  obtain ⟨t, ts₀, rfl, hkind, hdot⟩ := hhead
  rw [List.length_append, List.length_cons] at hfuel
  obtain ⟨fuel, rfl⟩ := exists_succ_of_le hcalls (by omega : calls ≤ fuel)
  refine rest_eq_ok.2 ⟨t, ts₀ ++ ts' ++ more, rfl, .inr (.inr ⟨hkind, hdot, v, .chain vs w,
    ts' ++ more, ?_, ?_, rfl⟩)⟩
  · rw [List.append_assoc]
    exact h level fuel _ hlevel (by rw [List.length_cons]; omega)
  · refine hs start level false calls more w others hlevel hcalls ?_ fuel (by omega)
    simpa using hmore

theorem Gives.atom {levels : Nat} {t : Token} {v : Value} (hkind : t.kind = .atom)
    (hdot : t.lexeme ≠ ['.']) (means : AtomMeans t.lexeme v) (ht : Admissible t) :
    Gives (levels + 1) [t] v := by
  intro level fuel others hlevel hfuel
  obtain ⟨fuel, rfl⟩ := exists_succ_of_le (by simp) hfuel
  have hvalue : atomValue t.lexeme t.offset = .ok v :=
    atomValue_eq_ok.2 ⟨means, ht.integer hkind⟩
  exact datum_eq_ok.2 ⟨by omega, t, others, rfl, .inr (.inr (.inr ⟨hkind, by simp [isDot, hdot],
    hvalue, rfl⟩))⟩

theorem Gives.string {levels : Nat} {t : Token} {v : Value} (hkind : t.kind = .string)
    (means : StringMeans t.lexeme v) : Gives (levels + 1) [t] v := by
  intro level fuel others hlevel hfuel
  obtain ⟨fuel, rfl⟩ := exists_succ_of_le (by simp) hfuel
  exact datum_eq_ok.2 ⟨by omega, t, others, rfl, .inr (.inr (.inl ⟨hkind,
    stringValue_eq_ok.2 means, rfl⟩))⟩

theorem Gives.quote {levels : Nat} {t : Token} {ts : List Token} {v : Value}
    (hkind : t.kind = .quote) (h : Gives levels ts v) :
    Gives (levels + 1) (t :: ts) (.ofList [.sym "quote", v]) := by
  intro level fuel others hlevel hfuel
  rw [List.length_cons] at hfuel
  obtain ⟨fuel, rfl⟩ := exists_succ_of_le (by omega) hfuel
  refine datum_eq_ok.2 ⟨by omega, t, ts ++ others, rfl, .inr (.inl ⟨hkind, v, ?_, rfl⟩)⟩
  exact h (level + 1) fuel others (by omega) (by omega)

theorem Gives.list {levels : Nat} {t c : Token} {ts : List Token} {vs : List Value}
    (hopen : t.kind = .opening) (hs : GivesAll levels ts vs) (hclose : c.kind = .closing) :
    Gives (levels + 1) (t :: (ts ++ [c])) (.ofList vs) := by
  intro level fuel others hlevel hfuel
  rw [List.length_cons, List.length_append, List.length_singleton] at hfuel
  obtain ⟨fuel, rfl⟩ := exists_succ_of_le Nat.one_pos (by omega : 1 ≤ fuel)
  refine datum_eq_ok.2 ⟨by omega, t, ts ++ [c] ++ others, rfl, .inl ⟨hopen, ?_⟩⟩
  rw [List.append_assoc]
  refine hs t.offset (level + 1) true 1 ([c] ++ others) .nil others (by omega) Nat.one_pos ?_ fuel
    (by omega)
  intro fuel hfuel
  obtain ⟨fuel, rfl⟩ := exists_succ_of_le Nat.one_pos hfuel
  exact rest_eq_ok.2 ⟨c, others, rfl, .inl ⟨hclose, rfl, rfl⟩⟩

theorem Gives.dotted {levels : Nat} {t d c : Token} {ts ts' : List Token} {vs : List Value}
    {v : Value} (hopen : t.kind = .opening) (hs : GivesAll levels ts vs) (hne : vs ≠ [])
    (hdot : IsDot d) (h : Gives levels ts' v) (hclose : c.kind = .closing) :
    Gives (levels + 1) (t :: (ts ++ d :: (ts' ++ [c]))) (.chain vs v) := by
  intro level fuel others hlevel hfuel
  simp only [List.length_cons, List.length_append, List.length_nil] at hfuel
  obtain ⟨fuel, rfl⟩ := exists_succ_of_le Nat.one_pos (by omega : 1 ≤ fuel)
  refine datum_eq_ok.2 ⟨by omega, t, ts ++ d :: (ts' ++ [c]) ++ others, rfl, .inl ⟨hopen, ?_⟩⟩
  rw [List.append_assoc]
  refine hs t.offset (level + 1) true (2 * ts'.length + 1) _ v others (by omega) (by omega) ?_ fuel
    (by omega)
  intro fuel hfuel
  obtain ⟨fuel, rfl⟩ := exists_succ_of_le (Nat.succ_pos _) hfuel
  have hkind : d.kind ≠ .closing := by simp [hdot.1]
  have hfirst : (true && vs.isEmpty) = false := by simpa using hne
  refine rest_eq_ok.2 ⟨d, ts' ++ [c] ++ others, rfl, .inr (.inl ⟨hkind, isDot_iff.2 hdot, hfirst, c,
    hclose, ?_⟩)⟩
  rw [List.append_assoc]
  exact h (level + 1) fuel _ (by omega) (by omega)

mutual

/-- The parser gives what tokens derive, by recursion on the derivation. -/
theorem Derives.gives {levels : Nat} {ts : List Token} {v : Value} :
    Derives levels ts v → (∀ t ∈ ts, Admissible t) → Gives levels ts v
  | .atom hkind hdot means, hts => .atom hkind hdot means (hts _ List.mem_cons_self)
  | .string hkind means, _ => .string hkind means
  | .quote hkind datum, hts => .quote hkind (datum.gives (List.forall_mem_cons.1 hts).2)
  | .list hopen items hclose, hts =>
    have hitems := (List.forall_mem_append.1 (List.forall_mem_cons.1 hts).2).1
    .list hopen (items.givesAll hitems) hclose
  | .dotted hopen items hne hdot tail hclose, hts =>
    have hparts := List.forall_mem_append.1 (List.forall_mem_cons.1 hts).2
    have htail := (List.forall_mem_append.1 (List.forall_mem_cons.1 hparts.2).2).1
    .dotted hopen (items.givesAll hparts.1) hne hdot (tail.gives htail) hclose

theorem DerivesAll.givesAll {levels : Nat} {ts : List Token} {vs : List Value} :
    DerivesAll levels ts vs → (∀ t ∈ ts, Admissible t) → GivesAll levels ts vs
  | .nil, _ => .nil
  | .cons first others, hts =>
    have hparts := List.forall_mem_append.1 hts
    .cons first.head (first.gives hparts.1) (others.givesAll hparts.2)

end

/-! ## The main result -/

/-- A text that is laid out as these tokens and derives a value by the grammar, within the limits on
nesting and on digits. -/
structure Accepts (text : String) (tokens : List Token) (v : Value) : Prop where
  tiles : Tiles 0 text.toList tokens
  derives : Derives 200 tokens v
  integers : ∀ t ∈ tokens, t.kind = .atom →
    ∀ ds n, WritesInteger t.lexeme ds n → ds.length ≤ 4300
  escapes : ∀ t ∈ tokens, t.kind = .string → EscapesKnown (inner t.lexeme)

theorem accepts_of_read {text : String} {v : Value} (h : Value.read text = .ok v) :
    ∃ tokens, Accepts text tokens v := by
  obtain ⟨tokens, hscan, h⟩ := bind_eq_ok.1 h
  split at h
  · exact absurd h (by simp)
  · obtain ⟨⟨w, others⟩, hw, h⟩ := bind_eq_ok.1 h
    dsimp only at h
    split at h
    · cases h
      obtain ⟨ts, rfl, hderives, hts⟩ := (takes_derivation _).1 _ _ _ _ hw
      rw [List.append_nil] at hscan
      exact ⟨ts, scan_eq_ok.1 hscan, hderives, fun t ht => (hts t ht).integer,
        fun t ht => (hts t ht).escapes⟩
    · exact absurd h (by simp)

theorem Accepts.read_eq {text : String} {tokens : List Token} {v : Value}
    (h : Accepts text tokens v) : Value.read text = .ok v := by
  have hgives := h.derives.gives fun t ht => ⟨h.integers t ht, h.escapes t ht⟩
  have hdatum := hgives 0 (enough tokens) [] (Nat.le_refl _) (by rw [enough]; omega)
  obtain ⟨t, ts, rfl, _⟩ := h.derives.head
  rw [List.append_nil] at hdatum
  rw [Value.read, scan_eq_ok.2 h.tiles, ok_bind, List.isEmpty_cons, if_neg Bool.false_ne_true,
    hdatum]
  rfl

/-- Every text is read as the value that the grammar derives from its tokens, and where there is
none, reading fails with an error of reading. -/
theorem reads_exactly_grammar (text : String) :
    (∀ v, Value.read text = .ok v ↔ ∃ tokens, Accepts text tokens v) ∧
      ((∃ tokens v, Accepts text tokens v) ∨
        ∃ e, orFail .read (Value.read text) = .error e ∧ e.kind = .engine .read) := by
  refine ⟨fun v => ⟨accepts_of_read, fun ⟨tokens, h⟩ => h.read_eq⟩, ?_⟩
  cases hread : Value.read text with
  | ok v =>
    obtain ⟨tokens, h⟩ := accepts_of_read hread
    exact .inl ⟨tokens, v, h⟩
  | error fault => exact .inr ⟨.read fault, rfl, rfl⟩

example : Value.read "(a 'b . -12) ; a dotted end" = .ok (.chain [.sym "a",
    .ofList [.sym "quote", .sym "b"]] (.num (-12))) := by
  cbv

end CommitChain.Reader
