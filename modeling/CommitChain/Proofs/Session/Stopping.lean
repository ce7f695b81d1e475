import CommitChain.Proofs.Session.Runs

/-!
# Stopping between two changes

A process that stops before a change on the disk is one whose disk refuses this change and all later
ones.  Every directive then comes to what it would have come to, or fails because the disk does
(`halts_run`).
-/

namespace CommitChain

namespace Disk

/-- The disk without any change from number `n` on. -/
def stopAt (n : Nat) (disk : Disk) : Disk :=
  { disk with refuses := fun k => disk.refuses k || decide (n ≤ k) }

end Disk

namespace Action

variable {σ τ α β : Type}

/-- Whether an action comes to the same after the disk was stopped, or then fails because of the
disk. -/
def Halts (stop : σ → σ) (x : Action σ α) (s : σ) : Prop :=
  x (stop s) = ((x s).1, stop (x s).2) ∨ ∃ fault, (x (stop s)).1 = .error (.disk fault)

variable {stop : σ → σ} {s : σ}

theorem Halts.bind {x : Action σ α} {f : α → Action σ β} (hx : Halts stop x s)
    (hf : ∀ a s', x s = (.ok a, s') → Halts stop (f a) s') : Halts stop (x >>= f) s := by
  rcases hx with hx | ⟨fault, hx⟩
  · cases hr : x s with
    | mk r s' =>
      rw [hr] at hx
      cases r with
      | ok a =>
        rw [Halts, bind_ok hx, bind_ok hr]
        exact hf a s' hr
      | error e =>
        refine .inl ?_
        rw [bind_error hx, bind_error hr]
  · exact .inr ⟨fault, by rw [bind_error (Prod.ext hx rfl)]⟩

theorem halts_of (r : Except Failure α) : Halts stop (of r) s :=
  .inl rfl

theorem Halts.of_bind {r : Except Failure α} {f : α → Action σ β}
    (hf : ∀ a, r = .ok a → Halts stop (f a) s) : Halts stop (of r >>= f) s := by
  refine (halts_of r).bind fun a s' ha => ?_
  obtain ⟨hr, rfl⟩ := of_eq.1 ha
  exact hf a hr

theorem halts_pure (a : α) : Halts stop (pure a : Action σ α) s :=
  .inl rfl

theorem halts_fail (e : Failure) : Halts stop (fail e : Action σ α) s :=
  .inl rfl

/-- What an action reads of the state before it goes on is the same after a stop. -/
theorem Halts.state_bind {f : σ → Action σ β} (h : Halts stop (f s) s)
    (hf : f (stop s) = f s) : Halts stop (state >>= f) s := by
  rw [Halts, Action.state_bind, Action.state_bind, hf]
  exact h

theorem Halts.on {part : σ → τ} {replace : σ → τ → σ} {stopPart : τ → τ} {x : Action τ α}
    (hx : Halts stopPart x (part s)) (hpart : part (stop s) = stopPart (part s))
    (hreplace : ∀ t, replace (stop s) (stopPart t) = stop (replace s t)) :
    Halts stop (on part replace x) s := by
  rcases hx with hx | ⟨fault, hx⟩
  · refine .inl (Prod.ext ?_ ?_)
    · show (x (part (stop s))).1 = _
      rw [hpart, hx]
      rfl
    · show replace (stop s) (x (part (stop s))).2 = _
      rw [hpart, hx]
      exact hreplace _
  · refine .inr ⟨fault, ?_⟩
    show (x (part (stop s))).1 = _
    rw [hpart, hx]

/-- Without its result an action stops as it does with it. -/
theorem Halts.silent {x : Action σ α} (h : Halts stop x s) : Halts stop x.silent s := by
  rcases h with h | ⟨fault, h⟩
  · exact .inl (by rw [Action.silent, Action.silent, h])
  · exact .inr ⟨fault, by rw [Action.silent, h]; rfl⟩

theorem Halts.eq {x : Action σ α} (h : Halts stop x s) {r : Except Failure α} {t : σ}
    (hx : x (stop s) = (r, t)) (hr : Unhindered r) : ∃ s', x s = (r, s') ∧ t = stop s' := by
  rcases h with h | ⟨fault, h⟩
  · obtain ⟨rfl, rfl⟩ := Prod.ext_iff.1 (hx.symm.trans h)
    exact ⟨_, rfl, rfl⟩
  · rw [hx] at h
    exact absurd h (hr fault)

end Action

/-! ## Changes on the disk -/

namespace Disk

variable {n : Nat} {path : Path} {disk : Disk}

theorem makeDirectory_stopAt : makeDirectory path (disk.stopAt n)
    = (makeDirectory path disk).map (stopAt n) := by
  unfold makeDirectory
  have hfile : ∀ q, (disk.stopAt n).isFile q = disk.isFile q := fun q => rfl
  have hany : (ancestors path).any (disk.stopAt n).isFile = (ancestors path).any disk.isFile := rfl
  rw [hany, hfile]
  split
  · rfl
  · split <;> rfl

theorem halts_change {f : ByteArray → ByteArray} :
    Action.Halts (stopAt n) (act (change path f)) disk := by
  unfold Action.Halts act change
  rw [makeDirectory_stopAt]
  cases makeDirectory (parent path) disk with
  | error e => exact .inl rfl
  | ok made =>
    have hfind : (made.stopAt n).find? path = made.find? path := rfl
    have hrefuses : (made.stopAt n).refuses (made.stopAt n).changes
        = (made.refuses made.changes || decide (n ≤ made.changes)) := rfl
    simp only [Except.map, hfind, hrefuses]
    by_cases hn : n ≤ made.changes
    · refine .inr ?_
      simp only [hn, decide_true, Bool.or_true, if_true]
      split <;> exact ⟨_, rfl⟩
    · refine .inl ?_
      simp only [hn, decide_false, Bool.or_false]
      split
      · rfl
      · split <;> rfl

end Disk

namespace Archive

variable {n : Nat} {dir : Path} {disk : Disk}

theorem halts_saveJson (path : Path) (x : Json) :
    Action.Halts (Disk.stopAt n) (Disk.saveJson path x) disk :=
  Action.Halts.of_bind fun _ _ => Disk.halts_change

theorem halts_saveProof (i : String) (bytes : ByteArray) :
    Action.Halts (Disk.stopAt n) (saveProof dir i bytes) disk := by
  have hcontains : (disk.stopAt n).contains (proofFile dir i)
      = disk.contains (proofFile dir i) := rfl
  unfold Action.Halts saveProof
  rw [hcontains]
  split
  · exact .inl rfl
  · exact Disk.halts_change

end Archive

/-! ## Ledgers -/

namespace Store

variable {n : Nat} {κ ν : Type} [DecidableEq κ] {s : Store Disk κ ν} {disk : Disk}

/-- A store beside a disk that is stopped. -/
def stopAt (n : Nat) (s : Store Disk κ ν × Disk) : Store Disk κ ν × Disk :=
  (s.1, s.2.stopAt n)

/-- An insertion stops as its listener does. -/
theorem halts_put {describe : κ → String} {same : ν → ν → Except Failure Bool} {key : κ} {value : ν}
    {listener : κ → ν → Action Disk Unit} (hs : s.listeners = [listener])
    (hl : Action.Halts (Disk.stopAt n) (listener key value) disk) :
    Action.Halts (stopAt n) (put describe same key value) (s, disk) := by
  unfold Action.Halts stopAt
  cases hf : s.find? key with
  | some existing =>
    dsimp only
    rw [put_taken hf, put_taken hf]
    exact .inl rfl
  | none =>
    dsimp only
    rw [put_new hf, put_new hf, announce, hs, List.map_singleton, Archive.all_singleton,
      Archive.all_singleton]
    rcases hl with hl | ⟨fault, hl⟩
    · exact .inl (by rw [hl])
    · exact .inr ⟨fault, by rw [hl]; rfl⟩

end Store

namespace Ledger

open Archive

variable {n : Nat} {dir : Path} {limit : Int} {l : Ledger Disk}

def stopAt (n : Nat) (l : Ledger Disk) : Ledger Disk :=
  { l with world := l.world.stopAt n }

theorem halts_putProof (h : Equipped dir limit l) (i : String) (bytes : ByteArray) :
    Action.Halts (stopAt n) (putProof i bytes) l := by
  unfold putProof onProofs
  refine Action.Halts.on (?_ : Action.Halts (Store.stopAt n) _ _) rfl fun _ => rfl
  exact Store.halts_put h.hearProofs (halts_saveProof i bytes)

theorem halts_prove (h : Equipped dir limit l) (backend : Backend) (time : Option Binary64)
    (r : StepRecord) : Action.Halts (stopAt n) (prove backend time r) l := by
  refine Action.Halts.state_bind ?_ rfl
  split
  · exact Action.halts_fail _
  · refine .of_bind fun bytes _ => (halts_putProof h _ _).bind fun _ l' _ => ?_
    refine Action.Halts.bind (.inl ?_) fun _ _ _ => Action.halts_pure _
    show (_, _) = (_, _)
    have hattached : (l'.stopAt n).attached = l'.attached := rfl
    rw [Prod.mk.injEq]
    refine ⟨rfl, ?_⟩
    show (if (l'.stopAt n).attached = true then _ else _)
      = stopAt n (if l'.attached = true then _ else _)
    rw [hattached]
    split <;> rfl

theorem halts_provePending (h : Equipped dir limit l) (backend : Backend)
    (time : Option Binary64) : Action.Halts (stopAt n) (provePending backend time) l := by
  refine Action.Halts.state_bind ?_ rfl
  split
  · split
    · exact halts_prove h backend time _
    · exact Action.halts_fail _
  · exact Action.halts_fail _

end Ledger

/-! ## Directives -/

namespace Session

open Archive

variable {n : Nat} {dir : Path} {lines : List StepRecord}
  {saved : Option (Commitment × List Int)} {s s' : Session}

def stopAt (n : Nat) (s : Session) : Session :=
  { s with ledger := s.ledger.stopAt n }

theorem halts_onLedger {α : Type} {x : Action (Ledger Disk) α}
    (h : Action.Halts (Ledger.stopAt n) x s.ledger) : Action.Halts (stopAt n) (onLedger x) s :=
  h.on rfl fun _ => rfl

theorem halts_persistChain : Action.Halts (stopAt n) persistChain s := by
  refine Action.Halts.state_bind ?_ rfl
  split
  · exact halts_onLedger ((halts_saveJson _ _).on rfl fun _ => rfl)
  · exact Action.halts_pure _

theorem halts_prove (h : Backed dir lines saved s) (index : Option Int)
    (timeout : Option Binary64) : Action.Halts (stopAt n) (prove index timeout) s := by
  refine Action.Halts.state_bind (Action.Halts.state_bind ?_ rfl) rfl
  have persisted : ∀ {x : Action (Ledger Disk) Proof}, Action.Halts (Ledger.stopAt n) x s.ledger →
      Action.Halts (stopAt n) (onLedger x >>= fun proof => persistChain >>= fun _ =>
        pure (⟨proof.identifier, proof.index, proof.artifact.size⟩ : ProveResult)) s :=
    fun hx => (halts_onLedger hx).bind fun _ _ _ =>
      halts_persistChain.bind fun _ _ _ => Action.halts_pure _
  cases index with
  | none => exact persisted (Ledger.halts_provePending h.kept.equipped _ _)
  | some i =>
    dsimp only
    split
    · exact persisted (Ledger.halts_prove h.kept.equipped _ _ _)
    · exact .inl rfl

end Session

end CommitChain
