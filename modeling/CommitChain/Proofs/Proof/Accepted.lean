import CommitChain.Proof.HashFold
import CommitChain.Proofs.Json.Digest
import CommitChain.Proofs.Record.Valid
import CommitChain.Proofs.Trace

/-!
# Traces that are accepted

What the check of a trace against a claim comes to (`checkTrace_eq_ok_iff`).  A trace is accepted
for one claim only, up to the normal form of its encodings (`trace_proves_one_claim`).
-/

namespace CommitChain

open CommitChain.Hash CommitChain.Machine CommitChain.Text

namespace HashFold

/-! ## Frames -/

theorem frameFault?_eq_none {position : Nat} (before : Option Digest) {z w : Digest}
    {fs : List Frame} (hn : fs.map Frame.index = List.range' position fs.length)
    (hl : Leads z fs w) (hb : ∀ d ∈ before, d = z) : frameFault? position before fs = none := by
  induction fs generalizing position before z with
  | nil => rfl
  | cons f fs ih =>
    obtain ⟨hf, hl⟩ := hl
    rw [List.map_cons, List.length_cons, List.range'_succ, List.cons.injEq] at hn
    have hrest := ih (some f.output) hn.2 hl fun d hd => (Option.some.inj hd).symm
    cases before with
    | none =>
      rw [frameFault?, if_neg (not_not.2 hn.1)]
      exact hrest
    | some d =>
      have hd : d = f.input := (hb d rfl).trans hf.symm
      rw [frameFault?, if_neg (not_not.2 hn.1), if_neg (not_not.2 hd)]
      exact hrest

/-- Frames without a fault behind the output `z` are numbered in a row and lead on from it. -/
theorem leads_of_frameFault? {position : Nat} {z : Digest} {fs : List Frame}
    (h : frameFault? position (some z) fs = none) :
    fs.map Frame.index = List.range' position fs.length ∧ ∃ w, Leads z fs w := by
  induction fs generalizing position z with
  | nil => exact ⟨rfl, z, rfl⟩
  | cons f fs ih =>
    rw [frameFault?] at h
    split at h
    · exact absurd h (by simp)
    next hindex =>
      split at h
      · exact absurd h (by simp)
      next hlink =>
        obtain ⟨hn, w, hl⟩ := ih h
        refine ⟨?_, w, (not_not.1 hlink).symm, hl⟩
        rw [List.map_cons, List.length_cons, List.range'_succ, hn, not_not.1 hindex]

/-- Frames without a fault are numbered from zero on and lead from the input of the first to the
output of the last. -/
theorem leads_of_frames {fs rest : List Frame} {first last : Frame} (hf : fs = first :: rest)
    (hl : fs.getLast? = some last) (h : frameFault? 0 none fs = none) :
    fs.map Frame.index = List.range' 0 fs.length ∧ Leads first.input fs last.output := by
  subst hf
  rw [frameFault?] at h
  split at h
  · exact absurd h (by simp)
  next hindex =>
    obtain ⟨hn, w, hw⟩ := leads_of_frameFault? h
    have hleads : Leads first.input (first :: rest) w := ⟨rfl, hw⟩
    obtain rfl := hleads.output_getLast? last hl
    refine ⟨?_, hleads⟩
    rw [List.map_cons, List.length_cons, List.range'_succ, hn, not_not.1 hindex]

/-! ## The check -/

/-- What a trace that is accepted for a claim shows, from the first to the last digest. -/
structure Accepts (b : HashFold) (c : Claim) (t : Trace) (z w : Digest) : Prop where
  nonempty : t.frames ≠ []
  short : t.frames.length ≤ b.maxFrames
  numbered : t.frames.map Frame.index = List.range' 0 t.frames.length
  leads : Leads z t.frames w
  start : c.start = .ok z
  halt : stateDigest (haltState t.result) = .ok w
  result : ∃ output next text head, splitEncoding t.result = .ok (output, next) ∧
    output.canonical = .ok text ∧ c.output.canonical = .ok text ∧
    isFunctionEncoding next = true ∧ commitmentOf next = .ok head ∧ head.text = c.newHead

variable {b : HashFold} {c : Claim} {t : Trace} {z w : Digest}

theorem Accepts.checkTrace (h : b.Accepts c t z w) : b.checkTrace c t = .ok (z, w) := by
  obtain ⟨output, next, text, head, hsplit, hoclaim, houtput, hfunction, hhead, hnew⟩ := h.result
  have hshort := h.short
  have hframes := frameFault?_eq_none none h.numbered h.leads fun d hd => by cases hd
  cases hfs : t.frames with
  | nil => exact absurd hfs h.nonempty
  | cons first rest =>
    obtain ⟨last, hlast⟩ : ∃ last, t.frames.getLast? = some last := by
      rw [hfs, List.getLast?_cons]
      exact ⟨_, rfl⟩
    have hfirst : first.input = z := (hfs ▸ h.leads).1
    have hend : last.output = w := h.leads.output_getLast? last hlast
    rw [HashFold.checkTrace, hlast, hfs]
    rw [hfs] at hshort hframes
    simp only [if_neg (Nat.not_lt.2 hshort), hframes, h.start, h.halt, orFail, bind, Except.bind,
      hfirst, hend, ne_eq, not_true_eq_false, if_false, hsplit, hoclaim, houtput, hfunction,
      if_true, hhead, hnew]

/-- The rest is run only where a condition does not stop it. -/
theorem stop_eq_ok {α β ε : Type} {p : Prop} [Decidable p] {e : ε} {a : α} {f g : α → Except ε β}
    {r : β} : (if p then Except.error e >>= f else Except.ok a >>= g) = .ok r
      ↔ ¬p ∧ g a = .ok r := by
  by_cases h : p <;> simp [h, bind, Except.bind]

/-- The rest is run only where a condition holds. -/
theorem need_eq_ok {α β ε : Type} {p : Prop} [Decidable p] {e : ε} {a : α} {f g : α → Except ε β}
    {r : β} : (if p then Except.ok a >>= g else Except.error e >>= f) = .ok r
      ↔ p ∧ g a = .ok r := by
  by_cases h : p <;> simp [h, bind, Except.bind]

theorem accepts_of_checkTrace (h : b.checkTrace c t = .ok (z, w)) : b.Accepts c t z w := by
  unfold HashFold.checkTrace at h
  split at h
  next first rest last hfirst hlast =>
    split at h
    · exact absurd h (by simp)
    next hshort =>
    split at h
    · exact absurd h (by simp)
    next hfault =>
    dsimp only at h
    obtain ⟨start, hstart, h⟩ := bind_eq_ok.1 h
    obtain ⟨hinput, h⟩ := stop_eq_ok.1 h
    obtain ⟨halt, hhalt, h⟩ := bind_eq_ok.1 h
    obtain ⟨houtput, h⟩ := stop_eq_ok.1 h
    obtain ⟨⟨output, next⟩, hsplit, h⟩ := bind_eq_ok.1 h
    obtain ⟨outputText, htext, h⟩ := bind_eq_ok.1 h
    obtain ⟨claimed, hclaimed, h⟩ := bind_eq_ok.1 h
    obtain ⟨hsame, h⟩ := stop_eq_ok.1 h
    obtain ⟨hfunction, h⟩ := need_eq_ok.1 h
    obtain ⟨head, hhead, h⟩ := bind_eq_ok.1 h
    obtain ⟨hnew, h⟩ := stop_eq_ok.1 h
    cases h
    rw [not_not] at hinput houtput hsame hnew
    rw [orFail_eq_ok] at hstart hhalt hsplit htext hclaimed hhead
    obtain ⟨hnumbered, hleads⟩ := leads_of_frames hfirst hlast hfault
    exact {
      nonempty := hfirst ▸ List.cons_ne_nil first rest
      short := Nat.not_lt.1 hshort
      numbered := hnumbered
      leads := hleads
      start := hstart.trans (congrArg _ hinput.symm)
      halt := hhalt.trans (congrArg _ houtput.symm)
      result := ⟨output, next, claimed, head, hsplit, hsame ▸ htext, hclaimed, hfunction, hhead,
        hnew⟩ }
  next => exact absurd h (by simp)

/-- What the check of a trace comes to. -/
theorem checkTrace_eq_ok_iff : b.checkTrace c t = .ok (z, w) ↔ b.Accepts c t z w :=
  ⟨accepts_of_checkTrace, Accepts.checkTrace⟩

end HashFold

/-! ## Calls -/

namespace Claim

/-- The state in which the step of a claim starts. -/
def call (c : Claim) : Json :=
  callState (.str c.prior) [c.input]

variable {c d : Claim} {z : Digest}

/-- Calls with one canonical form are of one function with one input. -/
theorem eq_of_call (hc : c.Valid) (hd : d.Valid) (h : c.call.canonicalForm = d.call.canonicalForm) :
    c.prior = d.prior ∧ c.input.canonicalForm = d.input.canonicalForm := by
  have hnames : ∀ control stack : Json,
      Json.Distinct ([("control", control), ("kont", stack)].map Prod.fst) :=
    fun _ _ => (by decide : Json.Distinct ["control", "kont"])
  have hcontrol := Json.find?_of_canonicalForm_eq (hnames _ _) (hnames _ _) h "control"
  simp only [Keyed.find?, if_true, Option.map_some, Option.some.injEq, Json.canonicalForm,
    Json.canonicalItems, Json.arr.injEq, List.cons.injEq, Json.str.injEq, true_and,
    and_true] at hcontrol
  rwa [Commitment.isNormal_of_isText hc.prior, Commitment.isNormal_of_isText hd.prior] at hcontrol

/-- Claims that start from one digest call one function with one input, unless the texts of their
calls collide. -/
theorem eq_or_collide_of_start (hc : c.Valid) (hd : d.Valid) (h : c.start = .ok z)
    (h' : d.start = .ok z) :
    c.prior = d.prior ∧ c.input.canonicalForm = d.input.canonicalForm ∨
      Collide (Json.Hashed stateDomain c.call) (Json.Hashed stateDomain d.call) :=
  (Json.canonicalForm_eq_or_collide h h').imp_left (eq_of_call hc hd)

theorem Valid.exists_canonical_call (hc : c.Valid) : ∃ text, c.call.canonical = .ok text := by
  have hargs : ∃ text, (Json.arr [c.input]).canonical = .ok text :=
    Json.exists_canonical_arr (List.forall_mem_singleton.2 hc.input.exists_canonical)
  have hcontrol : ∃ text, (Json.arr [.str "call", .str c.prior, .arr [c.input]]).canonical
      = .ok text := by
    refine Json.exists_canonical_arr ?_
    simp only [List.forall_mem_cons, List.not_mem_nil, false_imp_iff, implies_true, and_true]
    exact ⟨Json.exists_canonical_str _, Json.exists_canonical_str _, hargs⟩
  refine Json.exists_canonical_obj ?_
  simp only [List.forall_mem_cons, List.not_mem_nil, false_imp_iff, implies_true, and_true]
  exact ⟨hcontrol, Json.exists_canonical_arr fun x hx => absurd hx List.not_mem_nil⟩

/-- The settled claim starts where the claim does. -/
theorem Valid.start_settled (hc : c.Valid) (h : c.start = .ok z) : c.settled.start = .ok z := by
  have hform : c.settled.call.canonicalForm = c.call.canonicalForm := by
    simp only [call, Claim.settled, callState, stateJson, Json.canonicalForm,
      Json.canonicalMembers, Json.canonicalItems, hc.input.settled.canonicalForm_eq]
  obtain ⟨digest, hdigest, hcall⟩ := Json.exists_common_digest hc.settled.exists_canonical_call
    hc.exists_canonical_call hform stateDomain
  exact hdigest.trans (hcall.symm.trans h)

end Claim

/-! ## What a trace proves -/

namespace HashFold

variable {b b' : HashFold} {c d : Claim} {t : Trace} {z w : Digest}

/-- A trace that is accepted for a claim is accepted for the settled claim. -/
theorem Accepts.settled (h : b.Accepts c t z w) (hc : c.Valid) : b.Accepts c.settled t z w := by
  obtain ⟨output, next, text, head, hsplit, hoclaim, houtput, hrest⟩ := h.result
  have hform := hc.output.settled.canonicalForm_eq
  have htext : c.output.canonicalForm.canonical = .ok text :=
    Json.canonical_of_canonicalForm_eq houtput (hc.output.settled.floatPath?_eq "") hform.symm
  exact { h with
    start := hc.start_settled h.start
    result := ⟨output, next, text, head, hsplit, hoclaim, htext, hrest⟩ }

/-- A trace proves one claim at most: claims that a trace is accepted for have the same heads, and
the same canonical texts of their input, of their output and as a whole, unless the texts of their
calls are different and have one digest. -/
theorem trace_proves_one_claim (hc : c.Valid) (hd : d.Valid) {r r' : Digest × Digest}
    (h : b.checkTrace c t = .ok r) (h' : b'.checkTrace d t = .ok r') :
    (c.prior = d.prior ∧ c.newHead = d.newHead ∧
      (∃ text, c.input.canonical = .ok text ∧ d.input.canonical = .ok text) ∧
      (∃ text, c.output.canonical = .ok text ∧ d.output.canonical = .ok text) ∧
      ∃ digest, c.digest = .ok digest ∧ d.digest = .ok digest) ∨
    Collide (Json.Hashed stateDomain c.call) (Json.Hashed stateDomain d.call) := by
  obtain ⟨z, w⟩ := r
  obtain ⟨z', w'⟩ := r'
  have ha := checkTrace_eq_ok_iff.1 h
  have ha' := checkTrace_eq_ok_iff.1 h'
  -- both claims start from the input of the first frame
  obtain rfl : z = z' := ha.leads.start_unique ha'.leads ha.nonempty
  -- and the result of the trace settles output and new head
  obtain ⟨output, next, text, head, hsplit, hoclaim, houtput, _, hhead, hnew⟩ := ha.result
  obtain ⟨output', next', text', head', hsplit', hoclaim', houtput', _, hhead', hnew'⟩ := ha'.result
  obtain ⟨rfl, rfl⟩ : output = output' ∧ next = next' := by
    simpa using hsplit.symm.trans hsplit'
  obtain rfl : text = text' := by simpa using hoclaim.symm.trans hoclaim'
  obtain rfl : head = head' := by simpa using hhead.symm.trans hhead'
  refine (Claim.eq_or_collide_of_start hc hd ha.start ha'.start).imp_left fun ⟨hprior, hinput⟩ => ?_
  have hnewHead : c.newHead = d.newHead := hnew.symm.trans hnew'
  have hform := Json.canonicalForm_eq_of_canonical houtput houtput'
  have hclaim : c.toJson.canonicalForm = d.toJson.canonicalForm := by
    refine (Claim.settled_eq_iff hc hd).1 ?_
    rw [Claim.settled, Claim.settled, hprior, hnewHead, hinput, hform]
  exact ⟨hprior, hnewHead,
    Json.exists_common_canonical hc.input.exists_canonical hd.input.exists_canonical hinput,
    ⟨text, houtput, houtput'⟩,
    Json.exists_common_digest hc.exists_canonical hd.exists_canonical hclaim claimDomain⟩

/-! ## A trace that is accepted -/

/-- The encoding of a text. -/
theorem encodes_str (s : String) : (Json.arr [.str "str", .str s]).Encodes where
  wellFormed := by
    refine .arr ?_
    simp only [List.forall_mem_cons, List.not_mem_nil, false_imp_iff, implies_true, and_true]
    exact ⟨.str _, .str _⟩
  ok := by
    have htext : ∃ text, (Json.arr [.str "str", .str s]).canonical = .ok text := by
      refine Json.exists_canonical_arr ?_
      simp only [List.forall_mem_cons, List.not_mem_nil, false_imp_iff, implies_true, and_true]
      exact ⟨Json.exists_canonical_str _, Json.exists_canonical_str _⟩
    refine encodingProblem?_eq_none.2 ⟨⟨Value.text s, ?_⟩, htext⟩
    have hdepth : (Json.arr [.str "str", .str s]).depth = 1 := rfl
    exact Value.decode_eq_ok.2 ⟨hdepth ▸ by decide, by rw [Value.decodeAt]⟩

/-- Two frames of the core. -/
def coreFrames (z m w : Digest) : List Frame :=
  [⟨0, z, m, Family.core.name⟩, ⟨1, m, w, Family.core.name⟩]

theorem forall_mem_coreFrames {z m w : Digest} {P : Frame → Prop} :
    (∀ f ∈ coreFrames z m w, P f) ↔
      P ⟨0, z, m, Family.core.name⟩ ∧ P ⟨1, m, w, Family.core.name⟩ := by
  rw [coreFrames, List.forall_mem_cons, List.forall_mem_singleton]

/-- There are claims of a step with a given input and traces of two frames that are accepted for
them, whatever the digest in the middle. -/
theorem exists_accepted {x : Json} (hx : x.Encodes) : ∃ c z w result, c.Valid ∧ c.input = x ∧
    c.output = .arr [.str "str", .str ""] ∧
      ∀ m, ({} : HashFold).Accepts c ⟨coreFrames z m w, result⟩ z w := by
  let output : Json := .arr [.str "str", .str ""]
  let next : Json := .arr [.str "fun", .arr [.str "x"], .arr [.str "sym", .str "x"], .obj []]
  let result : Json := .arr [.str "cons", .arr [output], next]
  have hresult : ∃ text, (haltState result).canonical = .ok text :=
    ⟨_, Json.canonical_eq_ok.2 ⟨rfl, Json.writable_of_integersFit rfl, rfl⟩⟩
  have hnext : ∃ text, next.canonical = .ok text :=
    ⟨_, Json.canonical_eq_ok.2 ⟨rfl, Json.writable_of_integersFit rfl, rfl⟩⟩
  obtain ⟨_, hresult⟩ := hresult
  obtain ⟨_, hnext⟩ := hnext
  have hhead := Json.digest_of_canonical hnext commitDomain
  have hhalt := Json.digest_of_canonical hresult stateDomain
  obtain ⟨head, hhead⟩ : ∃ head, commitmentOf next = .ok head := by
    rw [commitmentOf, hhead]
    exact ⟨_, rfl⟩
  obtain ⟨text, htext⟩ := (encodes_str "").exists_canonical
  have hc : Claim.Valid ⟨head.text, x, output, head.text⟩ :=
    ⟨head.isText_text, hx, encodes_str "", head.isText_text⟩
  obtain ⟨_, hcall⟩ := hc.exists_canonical_call
  exact ⟨_, _, _, result, hc, rfl, rfl, fun m => {
    nonempty := List.cons_ne_nil _ _
    short := (by decide : 2 ≤ 1000000)
    numbered := rfl
    leads := ⟨rfl, rfl, rfl⟩
    start := Json.digest_of_canonical hcall stateDomain
    halt := hhalt
    result := ⟨output, next, text, head, rfl, htext, htext, rfl, hhead, rfl⟩ }⟩

/-- A trace is accepted for two spellings of one claim. -/
theorem trace_proves_two_spellings : ∃ (b : HashFold) (c d : Claim) (t : Trace)
    (r : Digest × Digest), c.Valid ∧ d.Valid ∧ b.checkTrace c t = .ok r ∧
      b.checkTrace d t = .ok r ∧
      c.input = .arr [.str "str", .str "\u1100\u1161"] ∧
      d.input = .arr [.str "str", .str "\uac00"] ∧
      ((c.prior = d.prior ∧ c.newHead = d.newHead ∧
          (∃ text, c.input.canonical = .ok text ∧ d.input.canonical = .ok text) ∧
          (∃ text, c.output.canonical = .ok text ∧ d.output.canonical = .ok text) ∧
          ∃ digest, c.digest = .ok digest ∧ d.digest = .ok digest) ∨
        Collide (Json.Hashed stateDomain c.call) (Json.Hashed stateDomain d.call)) := by
  obtain ⟨c, z, w, result, hc, hinput, _, haccepts⟩ := exists_accepted (encodes_str "\u1100\u1161")
  have h := (haccepts z).checkTrace
  have h' := ((haccepts z).settled hc).checkTrace
  refine ⟨{}, c, c.settled, _, _, hc, hc.settled, h, h', hinput, ?_,
    trace_proves_one_claim hc hc.settled h h'⟩
  have hstr : normalize "str" = "str" := by decide
  rw [Claim.settled, hinput, Json.canonicalForm, Json.canonicalItems, Json.canonicalItems,
    Json.canonicalItems, Json.canonicalForm, Json.canonicalForm, normalize_letters, hstr]

end HashFold

end CommitChain
