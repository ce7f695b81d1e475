import CommitChain.Proofs.Session.Reopening

/-!
# Runs of directives

A session that is opened on a directory without the files of a store is backed by that directory
ever after, whatever fails (`Used.backed`), and what it has stored stays (`Later.goesOn`).
-/

namespace CommitChain

namespace Action

variable {σ α : Type}

/-- An action without its result. -/
def silent (x : Action σ α) : Action σ Unit := fun s =>
  ((x s).1.map fun _ => (), (x s).2)

theorem silent_eq {x : Action σ α} {r : Except Failure Unit} {s t : σ} :
    x.silent s = (r, t) ↔ ∃ r', x s = (r', t) ∧ r = r'.map fun _ => () := by
  constructor
  · intro h
    obtain ⟨rfl, rfl⟩ := Prod.ext_iff.1 h
    exact ⟨_, rfl, rfl⟩
  · rintro ⟨r', hx, rfl⟩
    rw [silent, hx]

end Action

namespace Session

open Archive

variable {dir : Path} {lines : List StepRecord} {saved : Option (Commitment × List Int)}
  {s s' : Session} {config : Config} {disk : Disk}

/-! ## Directives as data -/

inductive Directive
  | commit (text : String)
  | start (text : String)
  | chain (commitment input : String)
  | prove (index : Option Int) (timeout : Option Binary64)

/-- Follows a directive. -/
def Directive.run : Directive → Action Session Unit
  | commit text => (Session.commit text).silent
  | start text => Session.start text
  | chain commitment input => (Session.chain commitment input).silent
  | prove index timeout => (Session.prove index timeout).silent

/-- A session that was opened on a directory without the files of a store and has followed
directives with outcomes of a kind, or that was opened again after such a session. -/
inductive Used (dir : Path) (allowed : Except Failure Unit → Prop) : Session → Prop
  | opened {config : Config} {disk : Disk} {s : Session} (vacant : Vacant dir disk)
      (make : make config (some dir) disk = .ok s) : Used dir allowed s
  | reopened {s t : Session} {config : Config} (before : Used dir allowed s)
      (make : make config (some dir) s.disk = .ok t) : Used dir allowed t
  | ran {s s' : Session} {d : Directive} {r : Except Failure Unit} (before : Used dir allowed s)
      (run : d.run s = (r, s')) (outcome : allowed r) : Used dir allowed s'

theorem start_eq {text : String} {r : Except Failure Unit} (h : start text s = (r, s')) :
    (∃ e, r = .error e ∧ Unhindered r) ∧ s' = s ∨
      ∃ genesis, commitmentOfText text = .ok genesis ∧ startAt genesis s = (r, s') := by
  rw [start] at h
  cases hc : commitmentOfText text with
  | error e =>
    rw [hc, Action.of_error_bind] at h
    obtain ⟨rfl, rfl⟩ := Prod.ext_iff.1 h
    refine .inl ⟨⟨e, rfl, fun fault he => ?_⟩, rfl⟩
    unfold commitmentOfText at hc
    split at hc
    · exact absurd hc (by simp)
    · cases hc
      exact absurd he (by simp)
  | ok genesis =>
    rw [hc, Action.of_ok_bind] at h
    exact .inr ⟨genesis, rfl, h⟩

/-! ## Whatever fails -/

theorem Backed.start (h : Backed dir lines saved s) {text : String} {r : Except Failure Unit}
    (hs : start text s = (r, s')) :
    GoesOn dir True s s' ∧ ∃ saved', Backed dir lines saved' s' := by
  rcases start_eq hs with ⟨_, rfl⟩ | ⟨genesis, _, hs⟩
  · exact ⟨.refl dir _ _, saved, h⟩
  · rcases h.startAt hs with ⟨_, rfl⟩ | ⟨_, _, hg, ⟨_, hb⟩ | ⟨_, _, hb⟩⟩
    · exact ⟨.refl dir _ _, saved, h⟩
    · exact ⟨hg, _, hb⟩
    · exact ⟨hg, _, hb⟩

theorem Backed.begun (h : Backed dir lines saved s) {expected : Commitment}
    (hb : Begun s expected s') : GoesOn dir True s s' ∧ ∃ saved', Backed dir lines saved' s' := by
  cases hb with
  | standing => exact ⟨.refl dir _ s, saved, h⟩
  | started fresh start =>
    rcases h.startAt start with ⟨⟨_, he⟩, _⟩ | ⟨_, _, hg, ⟨_, hb⟩ | ⟨_, he, _⟩⟩
    · exact absurd he (by simp)
    · exact ⟨hg, _, hb⟩
    · exact absurd he (by simp)

theorem Backed.chain (h : Backed dir lines saved s) {commitment input : String}
    {r : Except Failure ChainResult} (hc : chain commitment input s = (r, s')) :
    GoesOn dir (Unhindered r) s s' ∧ ∃ lines' saved', Backed dir lines' saved' s' := by
  cases chaining hc with
  | early e => exact ⟨.refl dir _ s, lines, saved, h⟩
  | unstarted fresh start =>
    rcases h.startAt start with ⟨_, rfl⟩ | ⟨_, _, hg, ⟨_, hb⟩ | ⟨_, _, hb⟩⟩
    · exact ⟨.refl dir _ _, lines, saved, h⟩
    · exact ⟨hg.imp fun _ => trivial, lines, _, hb⟩
    · exact ⟨hg.imp fun _ => trivial, lines, _, hb⟩
  | failed _ evaluated begun advance =>
    obtain ⟨hg, saved₁, hb⟩ := h.begun begun
    obtain ⟨hg', hcases⟩ := hb.advance (regular_of_evaluate evaluated) advance
    refine ⟨(hg.imp fun _ => trivial).trans (hg'.imp fun hu fault he => hu fault ?_), ?_⟩
    · rw [Except.error.inj he]
    · rcases hcases with ⟨_, _, _, hb | ⟨torn, _, _, hb⟩⟩ | ⟨_, he, _⟩
      · exact ⟨lines, saved₁, hb⟩
      · exact ⟨lines ++ [torn], saved₁, hb⟩
      · exact absurd he (by simp)
  | done _ evaluated begun advance =>
    obtain ⟨hg, saved₁, hb⟩ := h.begun begun
    obtain ⟨hg', hcases⟩ := hb.advance (regular_of_evaluate evaluated) advance
    refine ⟨(hg.imp fun _ => trivial).trans (hg'.imp fun _ => unhindered_ok _), ?_⟩
    rcases hcases with ⟨_, he, _⟩ | ⟨step, _, _, _, hb⟩
    · exact absurd he (by simp)
    · exact ⟨lines ++ [step.record], _, hb⟩

/-- A directive leaves a session backed by its directory. -/
theorem Backed.run (h : Backed dir lines saved s) {d : Directive} {r : Except Failure Unit}
    (hd : d.run s = (r, s')) :
    GoesOn dir (Unhindered r) s s' ∧ ∃ lines' saved', Backed dir lines' saved' s' := by
  cases d with
  | commit text =>
    obtain ⟨r', hc, rfl⟩ := Action.silent_eq.1 hd
    obtain ⟨hb, _, hg⟩ := h.commit hc
    exact ⟨hg.imp unhindered_map.1, lines, saved, hb⟩
  | start text =>
    obtain ⟨hg, saved', hb⟩ := h.start hd
    exact ⟨hg.imp fun _ => trivial, lines, saved', hb⟩
  | chain commitment input =>
    obtain ⟨r', hc, rfl⟩ := Action.silent_eq.1 hd
    obtain ⟨hg, hb⟩ := h.chain hc
    exact ⟨hg.imp unhindered_map.1, hb⟩
  | prove index timeout =>
    obtain ⟨r', hp, rfl⟩ := Action.silent_eq.1 hd
    obtain ⟨hg, ⟨_, _, hb⟩ | ⟨_, _, _, _, _, ⟨_, hb⟩ | ⟨_, _, hb⟩⟩⟩ := h.prove hp
    · exact ⟨hg.imp unhindered_map.1, lines, saved, hb⟩
    · exact ⟨hg.imp unhindered_map.1, lines, _, hb⟩
    · exact ⟨hg.imp unhindered_map.1, lines, saved, hb⟩

theorem Used.backed {allowed : Except Failure Unit → Prop} (h : Used dir allowed s) :
    ∃ lines saved, Backed dir lines saved s := by
  induction h with
  | opened vacant make =>
    obtain ⟨_, _, _, hb, _⟩ := backed_of_make vacant.holds List.Pairwise.nil make
    exact ⟨_, _, hb⟩
  | reopened _ make ih =>
    obtain ⟨lines, saved, hb⟩ := ih
    obtain ⟨_, _, _, hb', _⟩ := backed_of_make hb.kept.holds hb.kept.matched.ascending make
    exact ⟨_, _, hb'⟩
  | ran _ run _ ih =>
    obtain ⟨lines, saved, hb⟩ := ih
    exact (hb.run run).2

/-- A session opened on a disk without files, which refuses the given ones of its operations. -/
def onEmptyDisk (refuses : Nat → Bool) : Session :=
  ⟨.default, some ["s"],
    attach ["s"] (Ledger.fresh (Machine.evaluator Config.default.stepLimit) { refuses := refuses })⟩

theorem vacant_empty (dir : Path) (refuses : Nat → Bool) : Vacant dir { refuses := refuses } := by
  intro p hp
  rw [Disk.find?_of_ne_nil hp.ne_nil]
  rfl

theorem used_onEmptyDisk (refuses : Nat → Bool) (allowed : Except Failure Unit → Prop) :
    Used ["s"] allowed (onEmptyDisk refuses) :=
  .opened (vacant_empty _ refuses) (show make .default _ _ = .ok (onEmptyDisk refuses) from rfl)

/-- A function that gives what it takes: the input of a step tells its output and the next
function. -/
def handingOn : String :=
  "(lambda (x) x)"

def handingOnHead : String :=
  "0x148968ca96f68e4ba23154203bd9c8a4eaa4020016debe0821b8c51a14f05737"

/-- The input of a step that gives a datum and goes on as before. -/
def handedOn (datum : String) : String :=
  "(cons (quote " ++ datum ++ ") " ++ handingOn ++ ")"

/-- Follows directives that all have to succeed. -/
def followAll : List Directive → Session → Option Session
  | [], s => some s
  | d :: rest, s =>
    match d.run s with
    | (.ok (), s') => followAll rest s'
    | (.error _, _) => none

theorem followAll_cons {d : Directive} {ds : List Directive} :
    followAll (d :: ds) s = some s' ↔ ∃ t, d.run s = (.ok (), t) ∧ followAll ds t = some s' := by
  rw [followAll]
  cases hd : d.run s with
  | mk r t => cases r <;> simp

theorem Used.followAll {allowed : Except Failure Unit → Prop} (h : Used dir allowed s)
    (hok : allowed (.ok ())) {ds : List Directive} (hf : followAll ds s = some s') :
    Used dir allowed s' := by
  induction ds generalizing s with
  | nil => exact Option.some.inj hf ▸ h
  | cons d rest ih =>
    obtain ⟨t, hd, hf⟩ := followAll_cons.1 hf
    exact ih (.ran h hd hok) hf

end Session

end CommitChain
