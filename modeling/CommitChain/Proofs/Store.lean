import CommitChain.Proofs.Action
import CommitChain.Store

/-!
# Entries of a store

An insertion adds at most one entry behind the others, whether it succeeds or fails.
-/

namespace CommitChain.Store

variable {ω κ ν : Type} [DecidableEq κ]

theorem mem_of_findEntry? {key : κ} {value : ν} {entries : List (κ × ν)}
    (h : findEntry? key entries = some value) : (key, value) ∈ entries := by
  induction entries with
  | nil => exact absurd h nofun
  | cons p r ih =>
    obtain ⟨k, v⟩ := p
    unfold findEntry? at h
    split at h
    next hk =>
      cases hk
      cases h
      exact List.mem_cons_self
    next => exact List.mem_cons_of_mem _ (ih h)

theorem findEntry?_append {key : κ} (entries more : List (κ × ν)) :
    findEntry? key (entries ++ more) =
      Option.or ( findEntry? key entries) ( findEntry? key more) := by
  induction entries with
  | nil => rfl
  | cons p r ih =>
    rw [List.cons_append, findEntry?, findEntry?, ih]
    split <;> rfl

/-- What is found is still found behind further entries. -/
theorem find?_mono {s t : Store ω κ ν} (h : s.entries <+: t.entries) {key : κ} {value : ν}
    (hf : s.find? key = some value) : t.find? key = some value := by
  obtain ⟨more, hmore⟩ := h
  rw [find?, ← hmore, findEntry?_append, show findEntry? key s.entries = some value from hf]
  rfl

theorem findEntry?_concat {key : κ} (entries : List (κ × ν)) (k : κ) (value : ν) :
    findEntry? key (entries ++ [(k, value)])
      = Option.or ( findEntry? key entries) (if k = key then some value else none) := by
  rw [findEntry?_append]
  rfl

/-- An entry that is added under a key that was free is found. -/
theorem find?_added {s : Store ω κ ν} {key : κ} (value : ν) (h : s.find? key = none) :
    find? { s with entries := s.entries ++ [(key, value)] } key = some value := by
  rw [find?, findEntry?_concat, show findEntry? key s.entries = none from h, if_pos rfl]
  rfl

/-! ## Insertions -/

section

variable {describe : κ → String} {same : ν → ν → Except Failure Bool} {key : κ} {value : ν}
  {s : Store ω κ ν} {world : ω}

theorem put_taken {existing : ν} (h : s.find? key = some existing) :
    put describe same key value (s, world)
      = (match same existing value with
          | .error e => .error e
          | .ok true => .ok false
          | .ok false => .error (.storeConflict (describe key)), s, world) := by
  unfold put
  simp only [h]
  split <;> simp [*]

theorem put_new (h : s.find? key = none) :
    put describe same key value (s, world)
      = ((s.announce key value world).1.map fun _ => true,
        { s with entries := s.entries ++ [(key, value)] }, (s.announce key value world).2) := by
  unfold put
  simp only [h]

/-- An insertion leaves the entries, or adds one under a key that was free. -/
theorem eq_or_added_of_put {r : Except Failure Bool} {s' : Store ω κ ν} {world' : ω}
    (h : put describe same key value (s, world) = (r, s', world')) :
    s' = s ∨ s.find? key = none ∧ s' = { s with entries := s.entries ++ [(key, value)] } := by
  cases hf : s.find? key with
  | some existing =>
    rw [put_taken hf] at h
    cases h
    exact .inl rfl
  | none =>
    rw [put_new hf] at h
    cases h
    exact .inr ⟨rfl, rfl⟩

/-- After an insertion that succeeds the key is taken. -/
theorem find?_of_put {b : Bool} {s' : Store ω κ ν} {world' : ω}
    (h : put describe same key value (s, world) = (.ok b, s', world')) :
    ∃ found, s'.find? key = some found ∧ (found = value ∨ same found value = .ok true) := by
  cases hf : s.find? key with
  | none =>
    rw [put_new hf] at h
    obtain ⟨_, h⟩ := Prod.ext_iff.1 h
    obtain ⟨rfl, _⟩ := Prod.ext_iff.1 h
    exact ⟨value, find?_added value hf, .inl rfl⟩
  | some existing =>
    rw [put_taken hf] at h
    obtain ⟨hr, h⟩ := Prod.ext_iff.1 h
    obtain ⟨rfl, _⟩ := Prod.ext_iff.1 h
    refine ⟨existing, hf, .inr ?_⟩
    split at hr
    · exact absurd hr (by simp)
    next hs => exact hs
    · exact absurd hr (by simp)

end

/-! ## Keys -/

theorem find?_eq_none_iff {s : Store ω κ ν} {key : κ} : s.find? key = none ↔ key ∉ s.keys := by
  rw [find?, keys]
  induction s.entries with
  | nil => simp [ findEntry?]
  | cons p rest ih =>
    rw [ findEntry?, List.map_cons, List.mem_cons, not_or]
    by_cases hk : p.1 = key
    · simp [hk]
    · rw [if_neg hk, ih]
      exact (and_iff_right (Ne.symm hk)).symm

/-- If each key has one entry, that entry is found. -/
theorem find?_of_mem {s : Store ω κ ν} (h : s.keys.Nodup) {e : κ × ν} (he : e ∈ s.entries) :
    s.find? e.1 = some e.2 := by
  rw [keys] at h
  rw [find?]
  generalize s.entries = entries at h he
  induction entries with
  | nil => exact absurd he List.not_mem_nil
  | cons p rest ih =>
    obtain ⟨hnot, hrest⟩ := List.nodup_cons.1 h
    rw [ findEntry?]
    rcases List.mem_cons.1 he with rfl | he
    · rw [if_pos rfl]
    · have hne : p.1 ≠ e.1 := fun hk => hnot (hk ▸ List.mem_map_of_mem he)
      rw [if_neg hne, ih hrest he]

/-- An entry under a free key leaves each key with one entry. -/
theorem nodup_keys_append {s : Store ω κ ν} (h : s.keys.Nodup) {key : κ}
    (free : s.find? key = none) (value : ν) :
    (Store.keys { s with entries := s.entries ++ [(key, value)] }).Nodup := by
  rw [keys, List.map_append, List.map_singleton, List.nodup_append]
  refine ⟨h, List.pairwise_singleton _ key, fun k hk other ho => ?_⟩
  rw [List.mem_singleton.1 ho]
  rintro rfl
  exact find?_eq_none_iff.1 free hk

theorem nodup_keys_of_put {describe : κ → String} {same : ν → ν → Except Failure Bool} {key : κ}
    {value : ν} {s s' : Store ω κ ν} {world world' : ω} {r : Except Failure Bool}
    (h : s.keys.Nodup) (hp : put describe same key value (s, world) = (r, s', world')) :
    s'.keys.Nodup := by
  rcases eq_or_added_of_put hp with rfl | ⟨free, rfl⟩
  · exact h
  · exact nodup_keys_append h free value

end CommitChain.Store
