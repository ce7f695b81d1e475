import CommitChain.Proofs.Session.Runs

/-!
# Sessions in use

What the chain and the payloads of a session tell is heard by its directory, if it has one, and by
nothing else (`Live.heard`), unless a client adds a listener of its own.  The directory may hold
anything when it is opened, calls may fail in any way, and what is on the disk and in the stores may
be changed from outside in between.
-/

namespace CommitChain

theorem Payloads.keeps_listeners_commit {ω : Type} (v : Value)
    (listeners : List (Commitment → Payload → Action ω Unit)) :
    Action.Keeps (fun s : Payloads ω × ω => s.1.listeners = listeners) (commit v) :=
  keeps_commit (P := fun s => s.listeners = listeners) v fun _ _ _ _ _ hs => hs

namespace Archive

variable {root : Option Path} {l l' : Ledger Disk}

/-- A ledger that is heard by a directory, if there is one, and by nothing else.  A chain that was
taken up anew is not heard. -/
structure Wired (root : Option Path) (l : Ledger Disk) : Prop where
  marked : l.chain.Marked
  unstarted : l.chain.standing = .fresh → l.chain.history = []
  hearPayloads : l.payloads.listeners = root.toList.map savePayload
  hearSteps : l.chain.listeners = root.toList.map saveStep ∨ l.chain.listeners = []

theorem Wired.of_chain (h : Wired root l) (hc : l'.chain = l.chain)
    (hp : l'.payloads.listeners = l.payloads.listeners) : Wired root l' where
  marked := hc ▸ h.marked
  unstarted := hc ▸ h.unstarted
  hearPayloads := hp.trans h.hearPayloads
  hearSteps := hc ▸ h.hearSteps

/-- Another chain that has begun. -/
theorem Wired.chain (h : Wired root l) {c : Chain Disk} (hm : c.Marked)
    (hs : c.standing ≠ .fresh) (hl : c.listeners = l.chain.listeners ∨ c.listeners = []) :
    Wired root { l with chain := c } where
  marked := hm
  unstarted hfresh := absurd hfresh hs
  hearPayloads := h.hearPayloads
  hearSteps := hl.elim (fun he => he ▸ h.hearSteps) .inr

theorem wired_fresh (evaluator : Evaluator) (disk : Disk) :
    Wired none (Ledger.fresh evaluator disk) where
  marked := Chain.marked_fresh evaluator
  unstarted _ := rfl
  hearPayloads := rfl
  hearSteps := .inl rfl

/-! ## Calls of clients -/

theorem keeps_wired_onPayloads {α : Type} {x : Action (Payloads Disk × Disk) α}
    (hx : ∀ listeners, Action.Keeps (fun s => s.1.listeners = listeners) x) :
    Action.Keeps (Wired root) (Ledger.onPayloads x) :=
  fun l hl => hl.of_chain rfl (hx _ (l.payloads, l.world) rfl)

theorem keeps_wired_commit (v : Value) : Action.Keeps (Wired root) (Ledger.commit v) :=
  keeps_wired_onPayloads (Payloads.keeps_listeners_commit v)

theorem keeps_wired_restore (x : Json) : Action.Keeps (Wired root) (Ledger.restore x) :=
  keeps_wired_onPayloads fun listeners =>
    Payloads.keeps_restore (fun v => Payloads.keeps_listeners_commit v listeners) x

theorem keeps_wired_putProof (identifier : String) (bytes : ByteArray) :
    Action.Keeps (Wired root) (Ledger.putProof identifier bytes) :=
  fun _ hl => hl.of_chain rfl rfl

theorem keeps_wired_start (genesis : Commitment) :
    Action.Keeps (Wired root) (Ledger.start genesis) := by
  intro l hl
  unfold Ledger.start
  split
  next c hc =>
    obtain ⟨_, _, rfl⟩ := Chain.start_eq_ok.1 hc
    exact hl.chain ⟨hl.marked.ascending, hl.marked.recorded⟩ (by simp) (.inl rfl)
  next => exact hl

theorem keeps_wired_advance (expected : Commitment) (input : Value) :
    Action.Keeps (Wired root) (Ledger.advance expected input) := by
  intro l hl
  cases ha : Ledger.advance expected input l with
  | mk r l' =>
    obtain ⟨c, payloads, world, hadvance, rfl⟩ := advance_eq ha
    cases r with
    | ok step =>
      obtain ⟨fn, result, hc, hadvanced⟩ := Chain.advance_eq_ok hadvance
      obtain rfl : c = l.chain.extend step.record step.newHead := hc
      obtain ⟨world₁, hcommit, _⟩ := hadvanced.committed
      have hlisteners := (Payloads.keeps_listeners_commit step.next _).after hcommit rfl
      have hchain := hl.chain (hl.marked.extend step.record step.newHead)
        (by simp [Chain.extend]) (.inl rfl)
      exact hchain.of_chain rfl hlisteners
    | error e =>
      rcases Chain.advance_eq_error hadvance with
        ⟨head, p, actual, hs, _, _, _, hfaulted⟩ | ⟨rfl, hstopped⟩
      · cases hfaulted
        exact hl.chain ⟨hl.marked.ascending, hl.marked.recorded⟩ (by simp) (.inl rfl)
      · refine hl.of_chain rfl ?_
        obtain rfl | ⟨next, rfl⟩ := hstopped.payloads_eq
        · rfl
        · exact Payloads.keeps_listeners_commit next _ (l.payloads, l.world) rfl

theorem Wired.resume (h : Wired root l) {payloads : Payloads Disk} {evaluator : Evaluator}
    {head : Commitment} {records : List StepRecord} {proven : List Int} {c : Chain Disk}
    (hc : Chain.resume payloads evaluator head records proven = .ok c) :
    Wired root { l with chain := c } := by
  have hm := Chain.marked_resume hc
  obtain ⟨_, _, _, rfl⟩ := Chain.resume_eq_ok.1 hc
  exact h.chain hm (by simp) (.inr rfl)

theorem Wired.markProven (h : Wired root l) {r : StepRecord} (ho : l.chain.owns r = true) :
    Wired root { l with chain := l.chain.markProven r.index } where
  marked := h.marked.markProven ho
  unstarted := h.unstarted
  hearPayloads := h.hearPayloads
  hearSteps := h.hearSteps

/-- Whatever happens to a ledger keeps it wired, unless a listener is added. -/
theorem Wired.next (h : Wired root l) (hn : Ledger.Next l l')
    (hsteps : l'.chain.listeners = l.chain.listeners ∨ l'.chain.listeners = [])
    (hpayloads : l'.payloads.listeners = l.payloads.listeners) : Wired root l' := by
  cases hn with
  | start genesis => exact keeps_wired_start genesis l h
  | advance expected input => exact keeps_wired_advance expected input l h
  | commit v => exact keeps_wired_commit v l h
  | restore encoding => exact keeps_wired_restore encoding l h
  | resume evaluator head records proven c hc => exact h.resume hc
  | prove backend limit r =>
    exact Ledger.keeps_prove (fun _ => keeps_wired_putProof _ _) (fun _ _ h => h.markProven)
      backend limit r l h
  | provePending backend limit =>
    exact Ledger.keeps_provePending (fun _ => keeps_wired_putProof _ _) (fun _ _ h => h.markProven)
      backend limit l h
  | putProof identifier artifact => exact keeps_wired_putProof identifier artifact l h
  | evaluator => exact ⟨⟨h.marked.ascending, h.marked.recorded⟩, h.unstarted, h.hearPayloads,
      h.hearSteps⟩
  | hearSteps listener =>
    rcases hsteps with hsame | hnone
    · exact absurd hsame (by simp [Chain.subscribe])
    · exact absurd hnone (by simp [Chain.subscribe])
  | hearPayloads listener => exact absurd hpayloads (by simp [Store.subscribe])
  | world world => exact h.of_chain rfl rfl

/-! ## Opening -/

theorem keeps_wired_load (dir : Path) : Action.Keeps (Wired none) (load dir) :=
  keeps_load keeps_wired_restore keeps_wired_putProof (fun _ _ _ _ _ _ hl hc => hl.resume hc) dir

theorem Wired.attach (h : Wired none l) (dir : Path) : Wired (some dir) (attach dir l) where
  marked := ⟨h.marked.ascending, h.marked.recorded⟩
  unstarted := h.unstarted
  hearPayloads := by
    show l.payloads.listeners ++ [savePayload dir] = _
    rw [h.hearPayloads]
    rfl
  hearSteps := by
    left
    have hnone : l.chain.listeners = [] := h.hearSteps.elim id id
    show l.chain.listeners ++ [saveStep dir] = _
    rw [hnone]
    rfl

end Archive

namespace Session

open Archive

variable {s s' : Session}

/-- A session whose ledger is heard by its directory. -/
def Heard (s : Session) : Prop :=
  Wired s.root s.ledger

theorem heard_make {config : Config} {root : Option Path} {disk : Disk}
    (h : make config root disk = .ok s) : Heard s := by
  have hfresh := wired_fresh (Machine.evaluator config.stepLimit) disk
  simp only [make] at h
  split at h
  · cases h
    exact hfresh
  next dir =>
    split at h
    · cases h
    next l hload =>
      cases h
      exact ((keeps_wired_load dir).after hload hfresh).attach dir

/-! ## Directives -/

/-- A property of ledgers that outlasts the calls that directives are made of, and any change in the
world around. -/
structure Lasting (P : Ledger Disk → Prop) : Prop where
  commit : ∀ v : Value, v.Regular → Action.Keeps P (Ledger.commit v)
  start : ∀ genesis, Action.Keeps P (Ledger.start genesis)
  advance : ∀ (expected : Commitment) (v : Value), v.Regular →
    Action.Keeps P (Ledger.advance expected v)
  putProof : ∀ identifier bytes, Action.Keeps P (Ledger.putProof identifier bytes)
  markProven : ∀ l r, P l → l.chain.owns r = true →
    P { l with chain := l.chain.markProven r.index }
  world : ∀ l w, P l → P { l with world := w }

theorem lasting_wired (root : Option Path) : Lasting (Wired root) where
  commit v _ := keeps_wired_commit v
  start := keeps_wired_start
  advance expected v _ := keeps_wired_advance expected v
  putProof := keeps_wired_putProof
  markProven _ _ h := h.markProven
  world _ _ h := h.of_chain rfl rfl

section

variable {P : Option Path → Ledger Disk → Prop}

theorem keeps_onLedger {α : Type} {x : Action (Ledger Disk) α}
    (hx : ∀ root, Action.Keeps (P root) x) :
    Action.Keeps (fun s => P s.root s.ledger) (onLedger x) :=
  fun s hs => hx s.root s.ledger hs

variable (hP : ∀ root, Lasting (P root))

include hP

theorem keeps_persistChain : Action.Keeps (fun s => P s.root s.ledger) persistChain := by
  intro s hs
  cases hp : persistChain s with
  | mk r s' =>
    cases persisting hp with
    | idle => exact hs
    | wrote => exact (hP s.root).world _ _ hs

theorem keeps_startAt (genesis : Commitment) :
    Action.Keeps (fun s => P s.root s.ledger) (startAt genesis) :=
  (keeps_onLedger fun root => (hP root).start genesis).bind fun _ => keeps_persistChain hP

theorem keeps_commit (text : String) :
    Action.Keeps (fun s => P s.root s.ledger) (commit text) := by
  refine Action.keeps_state.bind fun s => Action.Keeps.of_bind fun v hv => ?_
  refine (Action.keeps_of _).bind fun c => ?_
  refine (keeps_onLedger fun root => (hP root).commit v (regular_of_evaluate hv)).bind fun _ => ?_
  exact (Action.keeps_of _).bind fun _ => Action.keeps_pure _

theorem keeps_chain (commitment input : String) :
    Action.Keeps (fun s => P s.root s.ledger) (chain commitment input) := by
  refine (Action.keeps_of _).bind fun expected => Action.keeps_state.bind fun s => ?_
  refine Action.Keeps.of_bind fun v hv => ?_
  have shown : ∀ step, Action.Keeps (fun s => P s.root s.ledger) (shown step) := fun step =>
    (Action.keeps_of _).bind fun _ => (Action.keeps_of _).bind fun _ => Action.keeps_pure _
  have advanced : Action.Keeps (fun s => P s.root s.ledger)
      (onLedger (Ledger.advance expected v) >>= Session.shown) :=
    (keeps_onLedger fun root => (hP root).advance expected v (regular_of_evaluate hv)).bind shown
  split
  · exact (keeps_startAt hP expected).bind fun _ => advanced
  · exact advanced

theorem keeps_prove (index : Option Int) (timeout : Option Binary64) :
    Action.Keeps (fun s => P s.root s.ledger) (prove index timeout) := by
  refine Action.keeps_state.bind fun s => Action.keeps_state.bind fun s' => ?_
  have persisted : ∀ {x : Action (Ledger Disk) Proof}, (∀ root, Action.Keeps (P root) x) →
      Action.Keeps (fun s => P s.root s.ledger) (onLedger x >>= fun proof => persistChain >>=
        fun _ => pure (⟨proof.identifier, proof.index, proof.artifact.size⟩ : ProveResult)) :=
    fun hx => (keeps_onLedger hx).bind fun _ =>
      (keeps_persistChain hP).bind fun _ => Action.keeps_pure _
  cases index with
  | none =>
    exact persisted fun root =>
      Ledger.keeps_provePending (fun _ => (hP root).putProof _ _) (hP root).markProven _ _
  | some i =>
    dsimp only
    split
    · exact persisted fun root =>
        Ledger.keeps_prove (fun _ => (hP root).putProof _ _) (hP root).markProven _ _ _
    · exact Action.keeps_fail _

/-- What lasts through the calls lasts through directives. -/
theorem keeps_run (d : Directive) : Action.Keeps (fun s => P s.root s.ledger) d.run := by
  cases d with
  | commit text => exact keeps_commit hP text
  | start text => exact (Action.keeps_of _).bind fun genesis => keeps_startAt hP genesis
  | chain commitment input => exact keeps_chain hP commitment input
  | prove index timeout => exact keeps_prove hP index timeout

end

/-! ## Whatever a session has been through -/

/-- A session that was opened on any directory, or on none, and has followed directives and other
calls with any outcomes, while the disk and the entries of its stores were changed from outside; no
further listener was added. -/
inductive Live : Session → Prop
  | made {config : Config} {root : Option Path} {disk : Disk} {s : Session}
      (make : make config root disk = .ok s) : Live s
  | ran {s s' : Session} {d : Directive} {r : Except Failure Unit} (before : Live s)
      (run : d.run s = (r, s')) : Live s'
  | next {s : Session} {l : Ledger Disk} (before : Live s) (next : Ledger.Next s.ledger l)
      (steps : l.chain.listeners = s.ledger.chain.listeners ∨ l.chain.listeners = [])
      (payloads : l.payloads.listeners = s.ledger.payloads.listeners) : Live (s.withLedger l)
  | detached {s : Session} (before : Live s) (attached : Bool) :
      Live (s.withLedger { s.ledger with attached := attached })
  | damaged {s : Session} (before : Live s) (payloads : List (Commitment × Payload))
      (proofs : List (String × ByteArray)) :
      Live (s.withLedger { s.ledger with
        payloads := { s.ledger.payloads with entries := payloads }
        proofs := { s.ledger.proofs with entries := proofs } })

theorem Live.heard (h : Live s) : Heard s := by
  induction h with
  | made make => exact heard_make make
  | ran _ run ih => exact (keeps_run lasting_wired _).after run ih
  | next _ next steps payloads ih => exact Wired.next ih next steps payloads
  | detached _ attached ih => exact ih.of_chain rfl rfl
  | damaged _ payloads proofs ih => exact ih.of_chain rfl rfl

theorem Used.live {dir : Path} {allowed : Except Failure Unit → Prop} (h : Used dir allowed s) :
    Live s := by
  induction h with
  | opened _ make => exact .made make
  | reopened _ make _ => exact .made make
  | ran _ run _ ih => exact .ran ih run

end Session

end CommitChain
