import CommitChain.Proofs.Chain.Sound
import CommitChain.Session

/-!
# Ledgers that can be reached

A ledger is sound if its payloads are and its chain is sound over them.  Fresh ledgers and those of
opened sessions are sound, whatever the store directory holds, and everything that clients do keeps
them sound (`Reached.sound`).  Evaluators and listeners are arbitrary and may change at any time.
-/

namespace CommitChain

namespace Ledger

variable {ω : Type}

structure Sound (l : Ledger ω) : Prop where
  payloads : l.payloads.Sound
  chain : l.chain.Sound l.payloads

theorem sound_fresh (evaluator : Evaluator) (world : ω) : (fresh evaluator world).Sound :=
  ⟨Payloads.sound_empty, Chain.sound_fresh _ evaluator⟩

/-! ## Actions that keep a ledger sound -/

/-- What keeps the payloads sound and leaves what they hold keeps a ledger sound. -/
theorem keeps_sound_onPayloads {α : Type} {x : Action (Payloads ω × ω) α}
    (hs : Action.Keeps (fun s => s.1.Sound) x)
    (hf : ∀ c p, Action.Keeps (fun s => s.1.find? c = some p) x) :
    Action.Keeps (Sound (ω := ω)) (onPayloads x) := by
  intro l hl
  exact ⟨hs (l.payloads, l.world) hl.payloads,
    hl.chain.mono fun c p => hf c p (l.payloads, l.world)⟩

theorem keeps_sound_commit (v : Value) : Action.Keeps (Sound (ω := ω)) (commit v) :=
  keeps_sound_onPayloads (Payloads.sound_commit v) (Payloads.find?_commit v)

theorem keeps_sound_restore (encoding : Json) :
    Action.Keeps (Sound (ω := ω)) (restore encoding) :=
  keeps_sound_onPayloads (Payloads.keeps_restore Payloads.sound_commit encoding)
    fun c p => Payloads.keeps_restore (fun v => Payloads.find?_commit v c p) encoding

theorem keeps_sound_putProof (identifier : String) (artifact : ByteArray) :
    Action.Keeps (Sound (ω := ω)) (putProof identifier artifact) :=
  fun _ hl => ⟨hl.payloads, hl.chain⟩

theorem beq_byteArray {a b : ByteArray} : (a == b) = true ↔ a = b := by
  have hdata : (a == b) = (a.data == b.data) := rfl
  rw [hdata, beq_iff_eq, ByteArray.ext_iff]

section

variable {l : Ledger ω} {identifier : String} {bytes : ByteArray}

theorem putProof_same (h : l.proofs.find? identifier = some bytes) :
    putProof identifier bytes l = (.ok false, l) := by
  have hsame : (bytes == bytes) = true := beq_byteArray.2 rfl
  rw [putProof, onProofs, Action.on, Store.put_taken h, hsame]

theorem putProof_taken {stored : ByteArray} (h : l.proofs.find? identifier = some stored)
    (other : stored ≠ bytes) :
    putProof identifier bytes l = (.error (.storeConflict identifier), l) := by
  have hother : (stored == bytes) = false := by
    rw [← Bool.not_eq_true, beq_byteArray]
    exact other
  rw [putProof, onProofs, Action.on, Store.put_taken h, hother]
  rfl

theorem putProof_new (h : l.proofs.find? identifier = none) :
    putProof identifier bytes l
      = ((l.proofs.announce identifier bytes l.world).1.map fun _ => true,
        { l with
          proofs := { l.proofs with entries := l.proofs.entries ++ [(identifier, bytes)] }
          world := (l.proofs.announce identifier bytes l.world).2 }) := by
  rw [putProof, onProofs, Action.on, Store.put_new h]

end

/-- What storing a proof comes to while nobody listens. -/
theorem putProof_eq {l : Ledger ω} (h : l.proofs.listeners = []) (identifier : String)
    (bytes : ByteArray) :
    putProof identifier bytes l
      = match l.proofs.find? identifier with
        | none => (.ok true,
          { l with proofs := { l.proofs with
              entries := l.proofs.entries ++ [(identifier, bytes)] } })
        | some stored =>
          if stored == bytes then (.ok false, l) else (.error (.storeConflict identifier), l) := by
  cases hf : l.proofs.find? identifier with
  | none =>
    rw [putProof_new hf, Store.announce, h]
    simp [Action.all, Action.done, Except.map, h]
  | some stored =>
    by_cases hs : stored = bytes
    · obtain rfl := hs
      rw [putProof_same hf]
      exact (if_pos (beq_byteArray.2 rfl)).symm
    · rw [putProof_taken hf hs]
      exact (if_neg (mt beq_byteArray.1 hs)).symm

theorem keeps_sound_start (genesis : Commitment) :
    Action.Keeps (Sound (ω := ω)) (start genesis) := by
  intro l hl
  unfold start
  split
  next c hc => exact ⟨hl.payloads, Chain.sound_start hl.chain hl.payloads hc⟩
  next => exact hl

theorem keeps_sound_advance (expected : Commitment) (input : Value) :
    Action.Keeps (Sound (ω := ω)) (advance expected input) := by
  rintro ⟨payloads, proofs, c, attached, world⟩ hl
  show Sound ⟨(Chain.advance expected input (c, payloads, world)).2.2.1, proofs,
    (Chain.advance expected input (c, payloads, world)).2.1, attached,
    (Chain.advance expected input (c, payloads, world)).2.2.2⟩
  cases ha : Chain.advance expected input (c, payloads, world) with
  | mk r s =>
    obtain ⟨c', payloads', world'⟩ := s
    cases r with
    | ok step =>
      obtain ⟨fn, result, hc, hadv⟩ := Chain.advance_eq_ok ha
      obtain rfl : c' = c.extend step.record step.newHead := hc
      obtain ⟨world₁, hcommit, _⟩ := hadv.committed
      have hp : payloads'.Sound := (Payloads.sound_commit step.next).after hcommit hl.payloads
      exact ⟨hp, Chain.sound_extend hl.chain hp hadv⟩
    | error e =>
      obtain ⟨rfl, hstopped⟩ := hl.chain.unchanged ha
      obtain rfl | ⟨next, rfl⟩ := hstopped.payloads_eq
      · exact ⟨hl.payloads, hl.chain⟩
      · exact ⟨Payloads.sound_commit next (payloads, world) hl.payloads,
          hl.chain.mono fun k p => Payloads.find?_commit next k p (payloads, world)⟩

/-- What storing a proof and marking a step of the chain keep, proving keeps. -/
theorem keeps_prove {P : Ledger ω → Prop}
    (hput : ∀ bytes, Action.Keeps P (putProof (proofIdentifier bytes) bytes))
    (hmark : ∀ l r, P l → l.chain.owns r = true →
      P { l with chain := l.chain.markProven r.index })
    (backend : Backend) (limit : Option Binary64) (r : StepRecord) :
    Action.Keeps P (prove backend limit r) := by
  intro l hl
  rw [prove, Action.state_bind]
  split
  · exact hl
  next hnot =>
    have howned : l.attached = true → l.chain.owns r = true := by
      intro ha
      simpa [ha] using hnot
    -- storing a proof leaves the chain, so the record is still one of its own when it is marked
    have hkeeps : Action.Keeps (fun l => P l ∧ (l.attached = true → l.chain.owns r = true))
        (do
          let bytes ← Action.of (attempt backend limit r)
          let identifier := proofIdentifier bytes
          let _ ← putProof identifier bytes
          Action.update fun l =>
            if l.attached then { l with chain := l.chain.markProven r.index } else l
          return (⟨identifier, bytes, r.claim, r.index⟩ : Proof)) := by
      refine (Action.keeps_of _).bind fun bytes => Action.Keeps.bind (fun l hl => ?_) fun _ => ?_
      · exact ⟨hput bytes l hl.1, hl.2⟩
      · refine Action.Keeps.bind (fun l hl => ?_) fun _ => Action.keeps_pure _
        dsimp only [Action.update]
        split
        next ha => exact ⟨hmark l r hl.1 (hl.2 ha), hl.2⟩
        next => exact hl
    exact (hkeeps l ⟨hl, howned⟩).1

theorem keeps_provePending {P : Ledger ω → Prop}
    (hput : ∀ bytes, Action.Keeps P (putProof (proofIdentifier bytes) bytes))
    (hmark : ∀ l r, P l → l.chain.owns r = true →
      P { l with chain := l.chain.markProven r.index })
    (backend : Backend) (limit : Option Binary64) :
    Action.Keeps P (provePending backend limit) := by
  refine Action.keeps_state.bind fun l => ?_
  split
  · split
    next r _ => exact keeps_prove hput hmark backend limit r
    next => exact Action.keeps_fail _
  · exact Action.keeps_fail _

theorem Sound.markProven {l : Ledger ω} (h : l.Sound) (index : Int) :
    Sound { l with chain := l.chain.markProven index } :=
  ⟨h.payloads, h.chain.linked, h.chain.last, h.chain.stored, h.chain.running⟩

end Ledger

/-! ## Opened sessions -/

namespace Archive

section

variable {P : Ledger Disk → Prop} (hrestore : ∀ x, Action.Keeps P (Ledger.restore x))
  (hput : ∀ identifier bytes, Action.Keeps P (Ledger.putProof identifier bytes))

include hrestore

theorem keeps_loadPayloads (disk : Disk) (root : Path) (names : List String) :
    Action.Keeps P (loadPayloads disk root names) := by
  induction names with
  | nil => exact Action.keeps_pure ()
  | cons name rest ih =>
    refine (Action.keeps_of _).bind fun x => (hrestore x).bind fun c => ?_
    split
    · exact Action.keeps_fail _
    · exact ih

omit hrestore

include hput

theorem keeps_loadProofs (disk : Disk) (root : Path) (names : List String) :
    Action.Keeps P (loadProofs disk root names) := by
  induction names with
  | nil => exact Action.keeps_pure ()
  | cons name rest ih =>
    unfold loadProofs
    split
    · exact (Action.keeps_of _).bind fun bytes => (hput _ _).bind fun _ => ih
    · exact ih

include hrestore

/-- What restoring a payload, storing a proof and taking up a chain keep, opening keeps. -/
theorem keeps_load (hresume : ∀ l evaluator head records proven c, P l →
      Chain.resume l.payloads evaluator head records proven = .ok c → P { l with chain := c })
    (root : Path) : Action.Keeps P (load root) := by
  refine Action.keeps_state.bind fun l => ?_
  dsimp only
  split
  · refine (keeps_loadPayloads hrestore _ root _).bind fun _ =>
      (keeps_loadProofs hput _ root _).bind fun _ => (Action.keeps_of _).bind fun records =>
        (Action.keeps_of _).bind fun saved => ?_
    split
    next saved =>
      intro l hl
      cases hr : Chain.resume l.payloads l.chain.evaluator saved.head saved.records saved.proven
      with
      | error e => simpa [bind, Action.andThen, Action.state, Action.of, hr] using hl
      | ok c =>
        simpa [bind, Action.andThen, Action.state, Action.of, Action.update, hr] using
          hresume l _ _ _ _ c hl hr
    next => exact Action.keeps_pure ()
  · exact Action.keeps_pure ()

end

theorem keeps_sound_load (root : Path) : Action.Keeps Ledger.Sound (load root) :=
  keeps_load Ledger.keeps_sound_restore Ledger.keeps_sound_putProof
    (fun _ _ _ _ _ _ hl hr => ⟨hl.payloads, Chain.sound_resume hl.payloads hr⟩) root

end Archive

/-- What a fresh ledger has, and opening and listening keep, the ledger of a session has. -/
theorem Session.of_make {P : Ledger Disk → Prop} {config : Config} {root : Option Path}
    {disk : Disk} {s : Session} (h : Session.make config root disk = .ok s)
    (hfresh : P (Ledger.fresh (Machine.evaluator config.stepLimit) disk))
    (hload : ∀ dir, Action.Keeps P (Archive.load dir))
    (hattach : ∀ dir l, P l → P (Archive.attach dir l)) : P s.ledger := by
  simp only [Session.make] at h
  split at h
  · cases h
    exact hfresh
  next dir =>
    have hl := hload dir _ hfresh
    split at h
    · cases h
    next l hload =>
      cases h
      rw [hload] at hl
      exact hattach dir l hl

theorem Session.sound_make {config : Config} {root : Option Path} {disk : Disk} {s : Session}
    (h : Session.make config root disk = .ok s) : s.ledger.Sound := by
  refine Session.of_make h (Ledger.sound_fresh _ _) Archive.keeps_sound_load fun dir l hl => ?_
  exact ⟨hl.payloads, hl.chain.linked, hl.chain.last, hl.chain.stored, hl.chain.running⟩

/-! ## Everything that clients do -/

namespace Ledger

/-- What may happen to a ledger at one time: a call of a client, which succeeds or fails, another
evaluator, a further listener, or a change in the world around it. -/
inductive Next {ω : Type} : Ledger ω → Ledger ω → Prop
  | start (l : Ledger ω) (genesis : Commitment) : Next l (start genesis l).2
  | advance (l : Ledger ω) (expected : Commitment) (input : Value) :
      Next l (advance expected input l).2
  | commit (l : Ledger ω) (v : Value) : Next l (commit v l).2
  | restore (l : Ledger ω) (encoding : Json) : Next l (restore encoding l).2
  | resume (l : Ledger ω) (evaluator : Evaluator) (head : Commitment) (records : List StepRecord)
      (proven : List Int) (c : Chain ω)
      (h : Chain.resume l.payloads evaluator head records proven = .ok c) :
      Next l { l with chain := c }
  | prove (l : Ledger ω) (backend : Backend) (limit : Option Binary64) (r : StepRecord) :
      Next l (prove backend limit r l).2
  | provePending (l : Ledger ω) (backend : Backend) (limit : Option Binary64) :
      Next l (provePending backend limit l).2
  | putProof (l : Ledger ω) (identifier : String) (artifact : ByteArray) :
      Next l (putProof identifier artifact l).2
  | evaluator (l : Ledger ω) (evaluator : Evaluator) :
      Next l { l with chain := { l.chain with evaluator } }
  | hearSteps (l : Ledger ω) (listener : StepRecord → List Int → Action ω Unit) :
      Next l { l with chain := l.chain.subscribe listener }
  | hearPayloads (l : Ledger ω) (listener : Commitment → Payload → Action ω Unit) :
      Next l { l with payloads := l.payloads.subscribe listener }
  | world (l : Ledger ω) (world : ω) : Next l { l with world }

theorem Next.sound {ω : Type} {l l' : Ledger ω} (h : Next l l') (hl : l.Sound) : l'.Sound := by
  cases h with
  | start genesis => exact keeps_sound_start genesis l hl
  | advance expected input => exact keeps_sound_advance expected input l hl
  | commit v => exact keeps_sound_commit v l hl
  | restore encoding => exact keeps_sound_restore encoding l hl
  | resume evaluator head records proven c hc =>
    exact ⟨hl.payloads, Chain.sound_resume hl.payloads hc⟩
  | prove backend limit r =>
    exact keeps_prove (fun _ => keeps_sound_putProof _ _) (fun _ r h _ => h.markProven r.index)
      backend limit r l hl
  | provePending backend limit =>
    exact keeps_provePending (fun _ => keeps_sound_putProof _ _)
      (fun _ r h _ => h.markProven r.index) backend limit l hl
  | putProof identifier artifact => exact keeps_sound_putProof identifier artifact l hl
  | evaluator evaluator =>
    exact ⟨hl.payloads, hl.chain.linked, hl.chain.last, hl.chain.stored, hl.chain.running⟩
  | hearSteps listener =>
    exact ⟨hl.payloads, hl.chain.linked, hl.chain.last, hl.chain.stored, hl.chain.running⟩
  | hearPayloads listener =>
    exact ⟨hl.payloads, hl.chain.linked, hl.chain.last, hl.chain.stored, hl.chain.running⟩
  | world world => exact ⟨hl.payloads, hl.chain⟩

/-- The ledgers that can be reached from a fresh one or from the one of an opened session. -/
inductive Reached : {ω : Type} → Ledger ω → Prop
  | fresh {ω : Type} (evaluator : Evaluator) (world : ω) : Reached (fresh evaluator world)
  | opened {config : Config} {root : Option Path} {disk : Disk} {s : Session}
      (h : Session.make config root disk = .ok s) : Reached s.ledger
  | next {ω : Type} {l l' : Ledger ω} (before : Reached l) (h : Next l l') : Reached l'

theorem Reached.sound {ω : Type} {l : Ledger ω} (h : Reached l) : l.Sound := by
  induction h with
  | fresh evaluator world => exact sound_fresh evaluator world
  | opened h => exact Session.sound_make h
  | next _ h ih => exact h.sound ih

/-- In every ledger that can be reached the steps are numbered from one on, each starts from the new
head of the one before, the head is the new head of the last one, the head of an active chain stands
for a payload that hashes to it, and the chain is not faulted. -/
theorem reached_chain_is_sound {ω : Type} {l : Ledger ω} (h : Reached l) :
    l.chain.history.map StepRecord.index = List.range' 1 l.chain.history.length ∧
      (l.chain.history.IsChain fun a b => b.claim.prior = a.claim.newHead) ∧
      (∀ r ∈ l.chain.history.getLast?,
        l.chain.head?.map Commitment.text = some r.claim.newHead) ∧
      (∀ head, l.chain.standing = .active head →
        ∃ p, l.payloads.fetch head = .ok p ∧ p.value.commitment = .ok head) ∧
      ∀ head, l.chain.standing ≠ .faulted head := by
  have hc := h.sound.chain
  refine ⟨hc.linked.numbered, hc.linked.joined, hc.last, fun head hs => ?_, hc.running⟩
  obtain ⟨p, hf, hp⟩ := hc.stored head hs
  exact ⟨p, Payloads.fetch_eq_ok.2 hf, hp⟩

/-! ## A first step -/

/-- The store of one function under its commitment. -/
def storing (c : Commitment) (fn : Value) : Payloads Unit :=
  ⟨[(c, ⟨fn, fn.encode⟩)], []⟩

theorem find?_storing (c : Commitment) (fn : Value) :
    (storing c fn).find? c = some ⟨fn, fn.encode⟩ := by
  rw [Store.find?, storing, Store.findEntry?, if_pos rfl]

/-- Committing to a value on a fresh ledger. -/
theorem commit_fresh {evaluator : Evaluator} {v : Value} {c : Commitment} {payloads : Payloads ω}
    {world world' : ω} (h : Payloads.commit v (.empty, world) = (.ok c, payloads, world')) :
    commit v (fresh evaluator world) = (.ok c, { fresh evaluator world' with payloads }) := by
  rw [commit, onPayloads, Action.on_eq]
  exact ⟨_, h, rfl⟩

/-- Starting the chain of a ledger on which values were committed to. -/
theorem start_fresh {evaluator : Evaluator} {c : Commitment} {payloads : Payloads ω} {world : ω}
    (h : ∃ p, payloads.find? c = some p) :
    start c { fresh evaluator world with payloads }
      = (.ok (), ⟨payloads, .empty, ⟨evaluator, .active c, [], [], []⟩, true, world⟩) := by
  have hstart : (Chain.fresh evaluator : Chain ω).start payloads c
      = .ok ⟨evaluator, .active c, [], [], []⟩ := Chain.start_eq_ok.2 ⟨rfl, h, rfl⟩
  rw [start]
  dsimp only [fresh]
  rw [hstart]

/-- A chain that is started at a function. -/
theorem start_commit {evaluator : Evaluator} {fn : Value} {c : Commitment}
    (hstrict : fn.encodeStrict = .ok fn.encode) (hc : commitmentOf fn.encode = .ok c) :
    (start c (commit fn (fresh evaluator ())).2).2
      = ⟨storing c fn, .empty, ⟨evaluator, .active c, [], [], []⟩, true, ()⟩ := by
  have hstored : Payloads.commit fn ((Store.empty : Payloads Unit), ())
      = (.ok c, storing c fn, ()) :=
    Payloads.commit_new hstrict hc rfl ()
  rw [commit_fresh hstored, start_fresh ⟨_, find?_storing c fn⟩]

/-- A function that the evaluator answers with `nil` and itself makes step after step. -/
theorem step_again {fn : Value} {c : Commitment} {chain : Chain Unit} {text : String}
    {result : Machine.TracedEvaluation} (hs : chain.standing = .active c)
    (hsilent : chain.listeners = []) (hfunction : fn.isFunction = true)
    (hstrict : fn.encodeStrict = .ok fn.encode) (hc : commitmentOf fn.encode = .ok c)
    (htext : fn.encode.canonical = .ok text)
    (hpair : (Value.nil.cons fn).encodeStrict = .ok (Value.nil.cons fn).encode)
    (heval : chain.evaluator fn [.nil] (.str c.text) = .ok result)
    (hvalue : result.value = .cons .nil fn) :
    ∃ step, advance c .nil ⟨storing c fn, .empty, chain, true, ()⟩
      = (.ok step, ⟨storing c fn, .empty, chain.extend step.record c, true, ()⟩) := by
  have hcommitment : fn.commitment = .ok c := by
    rw [Value.commitment, hstrict]
    exact hc
  have hagain : Payloads.commit fn (storing c fn, ()) = (.ok c, storing c fn, ()) :=
    Payloads.commit_taken hstrict hc htext (find?_storing c fn) htext ()
  obtain ⟨step, _, hadvance⟩ := Chain.advance_of_answer hs hsilent hfunction hcommitment
    ⟨_, find?_storing c fn, rfl⟩ heval hvalue hfunction hpair hagain
  exact ⟨step, Action.on_eq.2 ⟨_, hadvance, rfl⟩⟩

/-- Such a function makes a first step. -/
theorem exists_step {evaluator : Evaluator} {fn : Value} {text : String}
    (hfunction : fn.isFunction = true) (hstrict : fn.encodeStrict = .ok fn.encode)
    (htext : fn.encode.canonical = .ok text)
    (hpair : (Value.nil.cons fn).encodeStrict = .ok (Value.nil.cons fn).encode)
    (heval : ∀ ref, ∃ result, evaluator fn [.nil] (.str ref) = .ok result ∧
      result.value = .cons .nil fn) :
    ∃ c, let l := (advance c .nil (start c (commit fn (fresh evaluator ())).2).2).2
      l.chain.history.length = 1 ∧ l.proofs = .empty := by
  obtain ⟨c, hc⟩ := exists_commitmentOf htext
  obtain ⟨result, hresult, hvalue⟩ := heval c.text
  let chain : Chain Unit := ⟨evaluator, .active c, [], [], []⟩
  have hactive : chain.standing = .active c := rfl
  obtain ⟨step, hstep⟩ := step_again hactive rfl hfunction hstrict hc htext hpair hresult hvalue
  refine ⟨c, ?_⟩
  rw [start_commit hstrict hc, hstep]
  exact ⟨rfl, rfl⟩

/-- A function that gives its argument back. -/
def identity : Value :=
  .closure ["x"] (.sym "x") []

/-- An evaluator that answers every call with `nil` and the function that was called. -/
def answerNil : Evaluator := fun fn _ _ =>
  .ok ⟨⟨.cons .nil fn, 0⟩, []⟩

theorem exists_step_of_identity : ∃ c,
    let l := (advance c .nil (start c (commit identity (fresh answerNil ())).2).2).2
    l.chain.history.length = 1 ∧ l.proofs = .empty :=
  exists_step rfl rfl (Json.canonical_eq_ok.2 ⟨rfl, (rfl : Json.integersFit _ = true), rfl⟩)
    rfl fun _ => ⟨_, rfl, rfl⟩

theorem reached_chain_is_sound_after_step : ∃ l : Ledger Unit,
    Reached l ∧ l.chain.history.length = 1 ∧
      l.chain.history.map StepRecord.index = List.range' 1 l.chain.history.length ∧
      (l.chain.history.IsChain fun a b => b.claim.prior = a.claim.newHead) ∧
      (∀ r ∈ l.chain.history.getLast?,
        l.chain.head?.map Commitment.text = some r.claim.newHead) ∧
      (∀ head, l.chain.standing = .active head →
        ∃ p, l.payloads.fetch head = .ok p ∧ p.value.commitment = .ok head) ∧
      ∀ head, l.chain.standing ≠ .faulted head := by
  obtain ⟨c, hc, _⟩ := exists_step_of_identity
  have hr := Reached.next (.next (.next (.fresh answerNil ()) (.commit _ identity))
    (.start _ c)) (.advance _ c .nil)
  exact ⟨_, hr, hc, reached_chain_is_sound hr⟩

end Ledger

end CommitChain
