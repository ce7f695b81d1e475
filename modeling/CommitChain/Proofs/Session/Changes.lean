import CommitChain.Proofs.Session.Mirrored
import Mathlib.Logic.Relation

/-!
# One change at a time

Whatever a directive does to the ledger of a session is made up of a few kinds of changes: an
operation on the disk, a payload or a proof under a key that was free, a chain with the same
records, or a record between two stored commitments (`Change`, `Backed.changes_run`).  What each of
them keeps, sessions keep.

So each file is listed once and each key has one entry (`Used.orderly`), and the commitments that a
record names are stored (`Used.resolved`).
-/

namespace CommitChain

/-! ## The disk -/

namespace Disk

variable {path p : Path} {disk disk₀ disk' : Disk}

/-- What operations may make of a disk. -/
def Rewritten : Disk → Disk → Prop :=
  Relation.ReflTransGen fun disk disk' => ∃ path f, (change path f disk).2 = disk'

theorem keeps_rewritten_saveBytes (bytes : ByteArray) :
    Action.Keeps (Rewritten disk₀) (saveBytes path bytes) :=
  fun _ h => h.tail ⟨path, fun _ => bytes, rfl⟩

theorem keeps_rewritten_saveJson (x : Json) : Action.Keeps (Rewritten disk₀) (saveJson path x) :=
  (Action.keeps_of _).bind keeps_rewritten_saveBytes

theorem keeps_rewritten_appendJson (x : Json) :
    Action.Keeps (Rewritten disk₀) (appendJson path x) :=
  (Action.keeps_of _).bind fun bytes _ h => h.tail ⟨path, (· ++ bytes), rfl⟩

/-- A path is listed at most once. -/
def Single (p : Path) (entries : List (Path × Entry)) : Prop :=
  (entries.map Prod.fst).count p ≤ 1

theorem count_putEntry (entry : Entry) (entries : List (Path × Entry)) :
    ((putEntry path entry entries).map Prod.fst).count p
      = if p = path then max 1 ((entries.map Prod.fst).count p)
        else (entries.map Prod.fst).count p := by
  induction entries with
  | nil =>
    by_cases hp : p = path
    · simp [putEntry, hp]
    · simp [putEntry, hp, Ne.symm hp]
  | cons e rest ih =>
    obtain ⟨q, e⟩ := e
    rw [putEntry]
    by_cases hq : q = path
    · rw [if_pos hq, List.map_cons, List.map_cons]
      by_cases hp : p = path
      · rw [if_pos hp, hp, hq, List.count_cons_self]
        omega
      · rw [if_neg hp]
    · rw [if_neg hq, List.map_cons, List.map_cons, List.count_cons, List.count_cons, ih]
      by_cases hp : p = path
      · simp [hp, hq]
      · rw [if_neg hp, if_neg hp]

theorem Single.putEntry {entries : List (Path × Entry)} (h : Single p entries) (entry : Entry) :
    Single p (putEntry path entry entries) := by
  unfold Single at h ⊢
  rw [count_putEntry]
  split <;> omega

theorem Single.makeAll (paths : List Path) {entries : List (Path × Entry)}
    (h : Single p entries) : Single p (paths.foldl
      (fun es q => if q.isEmpty then es else Disk.putEntry q .directory es) entries) := by
  induction paths generalizing entries with
  | nil => exact h
  | cons q rest ih =>
    rw [List.foldl_cons]
    apply ih
    split
    · exact h
    · exact h.putEntry _

theorem Single.change (h : Single p disk.entries) (f : ByteArray → ByteArray) :
    Single p (change path f disk).2.entries := by
  unfold Disk.change
  cases hm : disk.makeDirectory (parent path) with
  | error e => exact h
  | ok made =>
    have hmade : Single p made.entries := by
      unfold makeDirectory at hm
      split at hm
      · exact absurd hm (by simp)
      · split at hm
        · exact absurd hm (by simp)
        · cases hm
          exact h.makeAll _
    dsimp only
    split
    · exact hmade
    · split
      · exact hmade
      · exact hmade.putEntry _

theorem Single.rewritten (h : Single p disk.entries) (hr : Rewritten disk disk') :
    Single p disk'.entries := by
  induction hr with
  | refl => exact h
  | tail _ hc ih =>
    obtain ⟨path, f, rfl⟩ := hc
    exact ih.change f

/-- Where nothing stands, nothing is listed. -/
theorem single_of_find? (hp : p ≠ []) (h : disk.find? p = none) : Single p disk.entries := by
  rw [find?_of_ne_nil hp] at h
  refine Nat.le_trans (Nat.le_of_eq (List.count_eq_zero.2 fun hmem => ?_)) (Nat.zero_le 1)
  obtain ⟨⟨q, e⟩, he, rfl⟩ := List.mem_map.1 hmem
  obtain ⟨_, hsome⟩ := lookup?_isSome_of_mem he
  exact absurd (h.symm.trans hsome) (by simp)

end Disk

/-! ## Changes to a ledger -/

namespace Archive

variable {dir : Path} {limit : Int} {lines : List StepRecord}
  {saved : Option (Commitment × List Int)} {disk disk' : Disk} {l l' : Ledger Disk}

theorem savePayload_rewritten {c : Commitment} {p : Payload} {r : Except Failure Unit}
    (h : savePayload dir c p disk = (r, disk')) : Disk.Rewritten disk disk' := by
  unfold savePayload at h
  split at h
  · cases h
    exact .refl
  · exact (Disk.keeps_rewritten_saveJson _).after h .refl

theorem saveProof_rewritten {identifier : String} {bytes : ByteArray} {r : Except Failure Unit}
    (h : saveProof dir identifier bytes disk = (r, disk')) : Disk.Rewritten disk disk' := by
  unfold saveProof at h
  split at h
  · cases h
    exact .refl
  · exact (Disk.keeps_rewritten_saveBytes _).after h .refl

theorem saveStep_rewritten {record : StepRecord} {proven : List Int} {r : Except Failure Unit}
    (h : saveStep dir record proven disk = (r, disk')) : Disk.Rewritten disk disk' := by
  have hkeeps : Action.Keeps (Disk.Rewritten disk) (saveStep dir record proven) := by
    refine (Disk.keeps_rewritten_appendJson _).bind fun _ => ?_
    split
    · exact Disk.keeps_rewritten_saveJson _
    · exact Action.keeps_fail _
  exact hkeeps.after h .refl

/-- A text names a commitment that is stored. -/
def Resolves (payloads : Payloads Disk) (text : String) : Prop :=
  ∃ c p, text = Commitment.text c ∧ payloads.find? c = some p

/-- One change to a ledger. -/
inductive Change (l : Ledger Disk) : Ledger Disk → Prop
  | disk {world : Disk} (rewritten : Disk.Rewritten l.world world) :
      Change l { l with world := world }
  | payload {c : Commitment} {p : Payload} (free : l.payloads.find? c = none) :
      Change l { l with
        payloads := { l.payloads with entries := l.payloads.entries ++ [(c, p)] } }
  | proof {bytes : ByteArray} (free : l.proofs.find? (proofIdentifier bytes) = none) :
      Change l { l with
        proofs := { l.proofs with
          entries := l.proofs.entries ++ [(proofIdentifier bytes, bytes)] } }
  | chain {c : Chain Disk} (history : c.history = l.chain.history) :
      Change l { l with chain := c }
  | record {r : StepRecord} {head : Commitment}
      (prior : Resolves l.payloads r.claim.prior) (newHead : Resolves l.payloads r.claim.newHead) :
      Change l { l with chain := l.chain.extend r head }

/-- Changes one after the other. -/
def Changes : Ledger Disk → Ledger Disk → Prop :=
  Relation.ReflTransGen Change

/-- What one change keeps, changes keep. -/
theorem Changes.keep {P : Ledger Disk → Prop} (h : Changes l l')
    (hstep : ∀ l l', Change l l' → P l → P l') (hl : P l) : P l' := by
  induction h with
  | refl => exact hl
  | tail _ hc ih => exact hstep _ _ hc ih

theorem changes_commit (hl : l.payloads.listeners = [savePayload dir]) {v : Value}
    {r : Except Failure Commitment} {payloads : Payloads Disk} {world : Disk}
    (h : Payloads.commit v (l.payloads, l.world) = (r, payloads, world)) :
    Changes l { l with payloads := payloads, world := world } := by
  rcases commit_cases h hl with ⟨rfl, rfl, _⟩ | ⟨x, c, _, _, _, free, hs, _, rfl⟩
  · exact .refl
  · refine (Relation.ReflTransGen.single (.payload (p := ⟨v, x⟩) free)).tail ?_
    exact .disk (savePayload_rewritten hs)

theorem changes_putProof (hl : l.proofs.listeners = [saveProof dir]) {bytes : ByteArray}
    {r : Except Failure Bool} (h : Ledger.putProof (proofIdentifier bytes) bytes l = (r, l')) :
    Changes l l' := by
  rcases putProof_cases h hl with ⟨rfl, _⟩ | ⟨_, world, free, hs, _, rfl⟩
  · exact .refl
  · refine (Relation.ReflTransGen.single (.proof free)).tail ?_
    exact .disk (saveProof_rewritten hs)

/-- A step that was offered starts from a stored commitment, and its new head is committed. -/
theorem resolves_of_offered {payloads : Payloads Disk} {world world' : Disk} {c : Chain Disk}
    {expected : Commitment} {input fn : Value} {result : Machine.TracedEvaluation}
    {step : Chain.Step} {payloads' : Payloads Disk}
    (ho : Chain.Offered c payloads expected input fn result step)
    (hc : Payloads.commit step.next (payloads, world) = (.ok step.newHead, payloads', world')) :
    Resolves payloads' step.record.claim.prior ∧ Resolves payloads' step.record.claim.newHead := by
  obtain ⟨p, hp, _⟩ := ho.stored
  obtain ⟨_, p', hp'⟩ := Payloads.commit_eq_ok hc
  have hkept := (Payloads.find?_commit step.next expected p).after hc hp
  exact ⟨⟨expected, p, ho.prior, hkept⟩, ⟨step.newHead, p', ho.newHead, hp'⟩⟩

theorem changes_advance (h : Equipped dir limit l) {expected : Commitment} {input : Value}
    {r : Except Failure Chain.Step} (ha : Ledger.advance expected input l = (r, l')) :
    Changes l l' := by
  obtain ⟨c, payloads, world, hadvance, rfl⟩ := advance_eq ha
  cases r with
  | error e =>
    obtain ⟨rfl, hstopped⟩ := h.sound.chain.unchanged hadvance
    cases hstopped with
    | early => exact .refl
    | commit _ committed _ => exact changes_commit h.hearPayloads committed
    | heard _ committed refused =>
      rw [h.hearSteps, List.map_singleton, all_singleton] at refused
      exact (changes_commit h.hearPayloads committed).tail (.disk (saveStep_rewritten refused))
  | ok step =>
    obtain ⟨fn, result, hc, hadvanced⟩ := Chain.advance_eq_ok hadvance
    obtain rfl : c = l.chain.extend step.record step.newHead := hc
    obtain ⟨world₁, committed, accepted⟩ := hadvanced.committed
    rw [h.hearSteps, List.map_singleton, all_singleton] at accepted
    obtain ⟨hprior, hnewHead⟩ := resolves_of_offered hadvanced.toOffered committed
    exact ((changes_commit h.hearPayloads committed).tail
      (.disk (saveStep_rewritten accepted))).tail (.record hprior hnewHead)

end Archive

/-! ## Directives -/

namespace Session

open Archive

variable {dir : Path} {lines : List StepRecord} {saved : Option (Commitment × List Int)}
  {s s' t : Session} {config : Config}

theorem changes_persistChain {r : Except Failure Unit} (h : persistChain s = (r, s')) :
    Changes s.ledger s'.ledger := by
  cases persisting h with
  | idle => exact .refl
  | wrote _ _ saved => exact .single (.disk ((Disk.keeps_rewritten_saveJson _).after saved .refl))

theorem changes_startAt {genesis : Commitment} {r : Except Failure Unit}
    (hs : Session.startAt genesis s = (r, s')) : Changes s.ledger s'.ledger := by
  cases starting hs with
  | early => exact .refl
  | begun _ _ persisted =>
    exact (Relation.ReflTransGen.single (.chain rfl)).trans (changes_persistChain persisted)

theorem Backed.changes_chain (h : Backed dir lines saved s) {commitment input : String}
    {r : Except Failure ChainResult} (hc : Session.chain commitment input s = (r, s')) :
    Changes s.ledger s'.ledger := by
  have hbegun : ∀ {expected s₁}, Begun s expected s₁ →
      Changes s.ledger s₁.ledger ∧ ∃ saved', Backed dir lines saved' s₁ := by
    intro expected s₁ hb
    refine ⟨?_, (h.begun hb).2⟩
    cases hb with
    | standing => exact .refl
    | started _ start => exact changes_startAt start
  cases chaining hc with
  | early => exact .refl
  | unstarted _ start => exact changes_startAt start
  | failed _ _ begun advance =>
    obtain ⟨hchanges, _, hb⟩ := hbegun begun
    exact hchanges.trans (changes_advance hb.kept.equipped advance)
  | done _ _ begun advance =>
    obtain ⟨hchanges, _, hb⟩ := hbegun begun
    exact hchanges.trans (changes_advance hb.kept.equipped advance)

/-- What a directive does to a ledger is made up of changes. -/
theorem Backed.changes_run (h : Backed dir lines saved s) {d : Directive}
    {r : Except Failure Unit} (hd : d.run s = (r, s')) : Changes s.ledger s'.ledger := by
  have hequipped := h.kept.equipped
  cases d with
  | commit text =>
    obtain ⟨_, hc, _⟩ := Action.silent_eq.1 hd
    have hstored : ∀ {v r l}, Ledger.commit v s.ledger = (r, l) → Changes s.ledger l := by
      intro v r l hl
      rw [Ledger.commit, Ledger.onPayloads] at hl
      obtain ⟨⟨payloads, world⟩, hcommit, rfl⟩ := Action.on_eq.1 hl
      exact changes_commit hequipped.hearPayloads hcommit
    cases committing hc with
    | early => exact .refl
    | refused _ stored => exact hstored stored
    | stored _ stored _ _ => exact hstored stored
  | start text =>
    rcases start_eq hd with ⟨_, rfl⟩ | ⟨genesis, _, hs⟩
    · exact .refl
    · exact changes_startAt hs
  | chain commitment input =>
    obtain ⟨_, hc, _⟩ := Action.silent_eq.1 hd
    exact h.changes_chain hc
  | prove index timeout =>
    obtain ⟨_, hp, _⟩ := Action.silent_eq.1 hd
    cases proving hequipped.attached hp with
    | early => exact .refl
    | refused stored => exact changes_putProof hequipped.hearProofs stored
    | marked _ stored persisted _ =>
      refine Relation.ReflTransGen.trans ?_ (changes_persistChain persisted)
      exact (changes_putProof hequipped.hearProofs stored).tail (.chain rfl)

/-! ## What changes keep -/

/-- Each file of the directory is listed once, each key has one entry, and each proof stands under
its own identifier. -/
structure Orderly (dir : Path) (l : Ledger Disk) : Prop where
  listed : ∀ p, OwnFile dir p → Disk.Single p l.world.entries
  payloads : l.payloads.keys.Nodup
  proofs : l.proofs.keys.Nodup
  named : ∀ e ∈ l.proofs.entries, e.1 = proofIdentifier e.2

theorem Orderly.change {l l' : Ledger Disk} (h : Orderly dir l) (hc : Change l l') :
    Orderly dir l' := by
  cases hc with
  | disk rewritten =>
    exact ⟨fun p hp => (h.listed p hp).rewritten rewritten, h.payloads, h.proofs, h.named⟩
  | payload free =>
    exact ⟨h.listed, Store.nodup_keys_append h.payloads free _, h.proofs, h.named⟩
  | proof free =>
    refine ⟨h.listed, h.payloads, Store.nodup_keys_append h.proofs free _, ?_⟩
    exact List.forall_mem_append.2 ⟨h.named, List.forall_mem_singleton.2 rfl⟩
  | chain => exact ⟨h.listed, h.payloads, h.proofs, h.named⟩
  | record => exact ⟨h.listed, h.payloads, h.proofs, h.named⟩

/-- The commitments that the records name are stored. -/
def Resolved (l : Ledger Disk) : Prop :=
  ∀ r ∈ l.chain.history, Resolves l.payloads r.claim.prior ∧ Resolves l.payloads r.claim.newHead

theorem Resolved.change {l l' : Ledger Disk} (h : Resolved l) (hc : Change l l') :
    Resolved l' := by
  cases hc with
  | disk => exact h
  | @payload c p free =>
    have hgrown : ∀ {text}, Resolves l.payloads text → Resolves
        { l.payloads with entries := l.payloads.entries ++ [(c, p)] } text := by
      rintro text ⟨k, q, rfl, hq⟩
      refine ⟨k, q, rfl, ?_⟩
      rw [Store.find?, Store.findEntry?_append, show Store.findEntry? k _ = some q from hq]
      rfl
    exact fun r hr => ⟨hgrown (h r hr).1, hgrown (h r hr).2⟩
  | proof => exact h
  | chain history =>
    intro r hr
    rw [history] at hr
    exact h r hr
  | record prior newHead =>
    exact List.forall_mem_append.2 ⟨h, List.forall_mem_singleton.2 ⟨prior, newHead⟩⟩

/-! ## Sessions -/

/-- Opening a directory gives each key one entry. -/
theorem nodup_keys_of_make {disk : Disk} (hm : make config (some dir) disk = .ok t) :
    t.ledger.payloads.keys.Nodup ∧ t.ledger.proofs.keys.Nodup := by
  refine of_make (P := fun l => l.payloads.keys.Nodup ∧ l.proofs.keys.Nodup) hm
    ⟨List.nodup_nil, List.nodup_nil⟩ (fun dir => ?_) fun _ _ h => h
  refine keeps_load (fun x => ?_) (fun identifier bytes => ?_) (fun _ _ _ _ _ _ h _ => h) dir
  · intro l h
    refine ⟨?_, h.2⟩
    refine Payloads.keeps_restore (P := fun s => s.1.keys.Nodup) (fun v s hs => ?_) x
      (l.payloads, l.world) h.1
    cases hc : Payloads.commit v s with
    | mk r s' =>
      rcases Payloads.eq_or_added_of_commit hc with he | ⟨_, _, _, _, free, he⟩
      · exact he ▸ hs
      · exact he ▸ Store.nodup_keys_append hs free _
  · intro l h
    have hput : ∀ x,
        Store.put id (fun a b => .ok (a == b)) identifier bytes (l.proofs, l.world) = x →
        x.2.1.keys.Nodup := by
      rintro ⟨r, s', world⟩ hx
      exact Store.nodup_keys_of_put h.2 hx
    exact ⟨h.1, hput _ rfl⟩

theorem orderly_of_make {disk : Disk} (h : Holds dir lines saved disk)
    (ha : lines.Pairwise fun a b => a.index ≤ b.index)
    (hm : make config (some dir) disk = .ok t)
    (hlisted : ∀ p, OwnFile dir p → Disk.Single p disk.entries)
    (hnamed : ∀ i bytes, disk.find? (proofFile dir i) = some (.file bytes) →
      i = proofIdentifier bytes) : Orderly dir t.ledger := by
  obtain ⟨_, hworld, _, hb, hstored⟩ := backed_of_make h ha hm
  obtain ⟨hpayloads, hproofs⟩ := nodup_keys_of_make hm
  refine ⟨hworld ▸ hlisted, hpayloads, hproofs, fun e he => ?_⟩
  have hfind := Store.find?_of_mem hproofs he
  obtain ⟨bytes, hbytes, hfile⟩ := hb.kept.filed.proofs _ (hstored.proofs _ _ hfind)
  obtain rfl : e.2 = bytes := Option.some.inj (hfind.symm.trans hbytes)
  exact hnamed _ _ (hworld ▸ hfile)

/-- Whatever fails, the ledger of a session is orderly. -/
theorem Used.orderly {allowed : Except Failure Unit → Prop} (h : Used dir allowed s) :
    Orderly dir s.ledger := by
  induction h with
  | opened vacant make =>
    refine orderly_of_make vacant.holds List.Pairwise.nil make (fun p hp => ?_) fun i bytes hi => ?_
    · exact Disk.single_of_find? hp.ne_nil (vacant p hp)
    · exact absurd (hi.symm.trans (vacant _ (.proof _))) (by simp)
  | reopened before make ih =>
    obtain ⟨lines, saved, hb⟩ := before.backed
    refine orderly_of_make hb.kept.holds hb.kept.matched.ascending make ih.listed
      fun i bytes hi => ?_
    obtain ⟨b, hfind, hfile⟩ := hb.kept.filed.proofs i (Disk.contains_of_find? hi)
    obtain rfl : bytes = b := by simpa using hi.symm.trans hfile
    exact ih.named _ (Store.mem_of_findEntry? hfind)
  | ran before run _ ih =>
    obtain ⟨lines, saved, hb⟩ := before.backed
    exact (hb.changes_run run).keep (fun _ _ hc ho => ho.change hc) ih

end Session

end CommitChain
