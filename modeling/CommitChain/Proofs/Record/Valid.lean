import CommitChain.Proofs.Text.Hex
import CommitChain.Proofs.Value.Shape
import CommitChain.Record

/-!
# Claims that pass their check

Whatever passes the check of a claim is *valid* (`Claim.valid_of_check`): its input and output can
be decoded and hashed, but their texts need not be in normal form.  The canonical form of a valid
claim passes the check too, and what it is read as is the settled claim (`Claim.Valid.check`).
-/

namespace CommitChain

open CommitChain.Text

/-- What can be decoded and hashed. -/
theorem encodingProblem?_eq_none {x : Json} :
    encodingProblem? x = none ↔ (∃ v, Value.decode x = .ok v) ∧ ∃ text, x.canonical = .ok text := by
  unfold encodingProblem?
  cases Value.decode x <;> cases x.canonical <;> simp

/-! ## Encodings -/

/-- A tree that is an encoding and can be hashed. -/
structure Json.Encodes (x : Json) : Prop where
  wellFormed : x.WellFormed
  ok : encodingProblem? x = none

namespace Json.Encodes

variable {x : Json}

theorem shape_and_depth (h : x.Encodes) : Value.Shape x ∧ x.depth ≤ nestingLimit := by
  obtain ⟨⟨v, hv⟩, _⟩ := encodingProblem?_eq_none.1 h.ok
  obtain ⟨hdepth, hv⟩ := Value.decode_eq_ok.1 hv
  exact ⟨Value.exists_decodeAt_iff.1 ⟨v, hv⟩, hdepth⟩

theorem exists_canonical (h : x.Encodes) : ∃ text, x.canonical = .ok text :=
  (encodingProblem?_eq_none.1 h.ok).2

theorem exact (h : x.Encodes) : x.Exact :=
  h.shape_and_depth.1.exact h.wellFormed

theorem settled (h : x.Encodes) : x.canonicalForm.Settled := by
  obtain ⟨_, htext⟩ := h.exists_canonical
  exact settled_canonicalForm (canonical_eq_ok.1 htext).1

theorem same_self (h : x.Encodes) : x.same x = true :=
  h.wellFormed.same_self

/-- The canonical form of an encoding is an encoding. -/
theorem canonicalForm (h : x.Encodes) : x.canonicalForm.Encodes := by
  obtain ⟨hshape, hdepth⟩ := h.shape_and_depth
  obtain ⟨text, htext⟩ := h.exists_canonical
  obtain ⟨v, hv⟩ := hshape.canonicalForm.exists_decodeAt "$"
  have hsettled := h.settled
  refine ⟨hsettled.wellFormed, encodingProblem?_eq_none.2 ⟨⟨v, ?_⟩, text, ?_⟩⟩
  · exact Value.decode_eq_ok.2 ⟨Nat.le_trans (depth_canonicalForm x) hdepth, hv⟩
  · exact canonical_of_canonicalForm_eq htext (hsettled.floatPath?_eq "")
      hsettled.canonicalForm_eq.symm

end Json.Encodes

/-! ## Texts of commitments -/

namespace Commitment

theorem isDigit_of_digits? {cs ds : List Char} (h : digits? cs = some ds) :
    ∀ c ∈ cs, c.toNat < 0x80 := by
  obtain ⟨rfl, -, hdigits⟩ := digits?_eq_some.1 h
  simp only [List.forall_mem_cons]
  exact ⟨by decide, by decide, fun c hc => Hex.toNat_lt_of_isDigit (hdigits c hc)⟩

/-- What has the form of a commitment, be it with a newline behind it, is in normal form. -/
theorem isNormal_of_isText {s : String} (h : isText s = true) : IsNormal s := by
  obtain ⟨ds, hds⟩ := Option.isSome_iff_exists.1 h
  refine isNormal_of_lt fun c hc => Nat.lt_trans ?_ (by decide : 0x80 < 0x300)
  have hall := isDigit_of_digits? hds
  rw [withoutNewline] at hall
  split at hall
  next hlast =>
    obtain ⟨front, hfront⟩ := List.getLast?_eq_some_iff.1 hlast
    rw [hfront, List.dropLast_concat] at hall
    rw [hfront] at hc
    rcases List.mem_append.1 hc with hc | hc
    · exact hall c hc
    · obtain rfl := List.mem_singleton.1 hc
      decide
  next => exact hall c hc

end Commitment

/-! ## Parts of a claim -/

namespace Check

variable {path : List String}

theorem commitmentText_eq_good {x : Json} {s : String} :
    commitmentText path x = .good s ↔ x = .str s ∧ Commitment.isText s = true := by
  rw [commitmentText, ensure_eq_good, text_eq_good]
  by_cases h : Commitment.isText s = true <;> simp [h]

theorem encoding_eq_good {x y : Json} :
    encoding path x = .good y ↔ x = y ∧ encodingProblem? y = none := by
  rw [encoding, ensure_eq_good]
  simp [any]

theorem digest_hex (path : List String) (d : Hash.Digest) :
    digest path (Json.str d.hex).canonicalForm = .good d := by
  rw [digest, text_str d.isNormal_hex, Checked.andThen, Hash.Digest.ofHex?_hex]

theorem commitmentText_str {s : String} (h : Commitment.isText s = true) :
    commitmentText path (Json.str s).canonicalForm = .good s := by
  rw [Json.canonicalForm, Commitment.isNormal_of_isText h]
  exact commitmentText_eq_good.2 ⟨rfl, h⟩

theorem encoding_canonicalForm {x : Json} (h : x.Encodes) :
    encoding path x.canonicalForm = .good x.canonicalForm :=
  encoding_eq_good.2 ⟨rfl, h.canonicalForm.ok⟩

end Check

/-! ## Claims -/

namespace Claim

/-- A claim that has passed its check. -/
structure Valid (c : Claim) : Prop where
  prior : Commitment.isText c.prior = true
  input : c.input.Encodes
  output : c.output.Encodes
  newHead : Commitment.isText c.newHead = true

/-- The claim with its encodings in canonical form. -/
def settled (c : Claim) : Claim :=
  { c with input := c.input.canonicalForm, output := c.output.canonicalForm }

variable {c d : Claim}

theorem Valid.settled (h : c.Valid) : c.settled.Valid :=
  ⟨h.prior, h.input.canonicalForm, h.output.canonicalForm, h.newHead⟩

/-- The members of a well-formed object that pass are those of a valid claim. -/
theorem valid_of_checkMembers {members : List (String × Json)} {path : List String}
    (hw : (Json.obj members).WellFormed) (h : checkMembers members path = .good c) : c.Valid := by
  rw [checkMembers] at h
  obtain ⟨_, hfour, newHead, hnew, rfl⟩ := Checked.seq_eq_good.1 h
  obtain ⟨_, hthree, output, hout, rfl⟩ := Checked.seq_eq_good.1 hfour
  obtain ⟨_, htwo, input, hin, rfl⟩ := Checked.seq_eq_good.1 hthree
  obtain ⟨prior, hprior, rfl⟩ := Checked.map_eq_good.1 htwo
  have encodes : ∀ {name : String} {x : Json},
      Check.member name Check.encoding members path = .good x → x.Encodes := by
    intro name x hx
    obtain ⟨y, hy, hx⟩ := Check.member_eq_good.1 hx
    obtain ⟨rfl, hok⟩ := Check.encoding_eq_good.1 hx
    exact ⟨hw.of_find? hy, hok⟩
  have text : ∀ {name s : String},
      Check.member name Check.commitmentText members path = .good s →
        Commitment.isText s = true := by
    intro name s hs
    obtain ⟨_, _, hs⟩ := Check.member_eq_good.1 hs
    exact (Check.commitmentText_eq_good.1 hs).2
  exact ⟨text hprior, encodes hin, encodes hout, text hnew⟩

/-- A claim that has passed the check of a well-formed tree is valid. -/
theorem valid_of_check {x : Json} {path : List String} (hx : x.WellFormed)
    (h : check path x = .good c) : c.Valid := by
  rw [check] at h
  obtain ⟨members, rfl, hmembers⟩ := Check.object_eq_good h
  exact valid_of_checkMembers hx hmembers

/-- Members whose canonical form holds that of a valid claim pass as the settled claim. -/
theorem Valid.checkMembers (h : c.Valid) {members : List (String × Json)}
    (hn : Json.Distinct (members.map Prod.fst)) (path : List String)
    (hprior : Keyed.find? "prior" members = some (.str c.prior))
    (hinput : Keyed.find? "input" members = some c.input)
    (houtput : Keyed.find? "output" members = some c.output)
    (hnew : Keyed.find? "new_head" members = some (.str c.newHead)) :
    Claim.checkMembers (Json.canonicalObject members) path = .good c.settled := by
  rw [Claim.checkMembers, Check.member_canonicalObject hn hprior,
    Check.member_canonicalObject hn hinput, Check.member_canonicalObject hn houtput,
    Check.member_canonicalObject hn hnew, Check.commitmentText_str h.prior,
    Check.encoding_canonicalForm h.input, Check.encoding_canonicalForm h.output,
    Check.commitmentText_str h.newHead]
  rfl

theorem distinct_members (c : Claim) : Json.Distinct (c.members.map Prod.fst) :=
  (by decide : Json.Distinct ["prior", "input", "output", "new_head"])

/-- The canonical form of a valid claim passes the check, as the settled claim. -/
theorem Valid.check (h : c.Valid) (path : List String) :
    Claim.check path c.toJson.canonicalForm = .good c.settled := by
  rw [Claim.check, Claim.toJson, Check.object_canonicalForm c.distinct_members]
  · exact h.checkMembers c.distinct_members path rfl rfl rfl rfl
  · exact fun k hk => hk

/-! ## Trees of claims -/

theorem Valid.exists_canonical (h : c.Valid) : ∃ text, c.toJson.canonical = .ok text := by
  refine Json.exists_canonical_obj ?_
  simp only [members, List.forall_mem_cons, List.not_mem_nil, false_imp_iff, implies_true, and_true]
  exact ⟨Json.exists_canonical_str _, h.input.exists_canonical, h.output.exists_canonical,
    Json.exists_canonical_str _⟩

theorem Valid.depth_toJson (h : c.Valid) : c.toJson.depth ≤ Json.nestingLimit + 1 := by
  rw [toJson, Json.depth, Nat.add_le_add_iff_right, Json.depthMembers_le]
  simp only [members, List.forall_mem_cons, List.not_mem_nil, false_imp_iff, implies_true, and_true,
    Json.depth, Nat.zero_le, true_and]
  exact ⟨h.input.shape_and_depth.2, h.output.shape_and_depth.2⟩

theorem Valid.toJson_settled (h : c.Valid) :
    c.settled.toJson.canonicalForm = c.toJson.canonicalForm := by
  have hform : ∀ {name : String},
      (Keyed.find? name c.settled.members).map Json.canonicalForm
        = (Keyed.find? name c.members).map Json.canonicalForm := by
    intro name
    simp only [Claim.settled, members, Keyed.find?]
    split_ifs <;> simp [h.input.settled.canonicalForm_eq, h.output.settled.canonicalForm_eq]
  rw [toJson, toJson, Json.canonicalForm_obj, Json.canonicalForm_obj]
  exact congrArg Json.obj
    (Json.sortMembers_eq_of_find? c.settled.distinct_members.2 c.distinct_members.2 fun _ => hform)

/-- Claims settle to one claim exactly if their trees have one canonical form. -/
theorem settled_eq_iff (hc : c.Valid) (hd : d.Valid) :
    c.settled = d.settled ↔ c.toJson.canonicalForm = d.toJson.canonicalForm := by
  constructor
  · intro h
    rw [← hc.toJson_settled, h, hd.toJson_settled]
  · intro h
    have hcheck := hc.check []
    rw [h, hd.check []] at hcheck
    injection hcheck with heq
    exact heq.symm

/-! ## Equality of claims -/

theorem Valid.same_self (h : c.Valid) : c.same c = true := by
  simp only [same, beq_self_eq_true, h.input.same_self, h.output.same_self, Bool.and_self]

/-- Valid claims that are equal settle to one claim. -/
theorem settled_eq_of_same (hc : c.Valid) (hd : d.Valid) (h : c.same d = true) :
    c.settled = d.settled := by
  simp only [same, Bool.and_eq_true, beq_iff_eq] at h
  obtain ⟨⟨⟨hprior, hinput⟩, houtput⟩, hnew⟩ := h
  rw [settled, settled, hprior, hnew, hc.input.exact.canonicalForm_eq hd.input.exact hinput,
    hc.output.exact.canonicalForm_eq hd.output.exact houtput]

/-- A settled claim equals the claim exactly if the encodings of the claim are in normal form. -/
theorem Valid.settled_same_iff (h : c.Valid) :
    c.settled.same c = true ↔ c.input.Normal ∧ c.output.Normal := by
  simp only [same, Claim.settled, beq_self_eq_true, Bool.true_and, Bool.and_true, Bool.and_eq_true]
  rw [h.input.exact.same_canonicalForm_iff, h.output.exact.same_canonicalForm_iff]

end Claim

end CommitChain
