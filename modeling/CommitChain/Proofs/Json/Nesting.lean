import CommitChain.Proofs.Json.RoundTrip
import CommitChain.Proofs.Keyed

/-!
# The bound on nesting

A bound on nesting only turns texts away: what is read under it is read the same without one, and is
nested no deeper (`parseChars_nesting`).  So a text is turned away exactly if it is nested too
deeply.
-/

namespace CommitChain.Json

/-- Trees that hold no others. -/
theorem filled_unsigned {limits : Limits} {negative : Bool} {cs rest : List Char} {x : Json}
    (h : unsigned limits negative cs = .ok (x, rest)) : x.filled = 0 := by
  unfold unsigned at h
  dsimp only at h
  split at h
  · split at h
    · cases h
      rfl
    · exact absurd h (by simp)
  · split at h
    · split at h
      · exact absurd h (by simp)
      · cases h
        rfl
    · cases h
      rfl
    · cases h
      rfl

theorem filled_scalar {limits : Limits} {cs rest : List Char} {x : Json}
    (h : scalar limits cs = .ok (x, rest)) : x.filled = 0 := by
  unfold scalar at h
  split at h
  case h_6 => exact filled_unsigned h
  case h_7 => exact filled_unsigned h
  all_goals
    cases h
    rfl

theorem filledItems_le {xs : List Json} {n : Nat} :
    filledItems xs ≤ n ↔ ∀ x ∈ xs, x.filled ≤ n := by
  induction xs with
  | nil => simp [filledItems]
  | cons x xs ih => rw [filledItems, Nat.max_le, ih, List.forall_mem_cons]

theorem filledMembers_le {ms : List (String × Json)} {n : Nat} :
    filledMembers ms ≤ n ↔ ∀ p ∈ ms, p.2.filled ≤ n := by
  induction ms with
  | nil => simp [filledMembers]
  | cons p ms ih => rw [filledMembers, Nat.max_le, ih, List.forall_mem_cons]

theorem filled_arr_le {xs : List Json} {n : Nat} (h : ∀ x ∈ xs, x.filled ≤ n) :
    (arr xs).filled ≤ n + 1 := by
  cases xs with
  | nil => exact Nat.zero_le _
  | cons x xs =>
    rw [filled]
    exact Nat.succ_le_succ (filledItems_le.2 h)

theorem filled_obj_le {ms : List (String × Json)} {n : Nat} (h : ∀ p ∈ ms, p.2.filled ≤ n) :
    (obj ms).filled ≤ n + 1 := by
  cases ms with
  | nil => exact Nat.zero_le _
  | cons p ms =>
    rw [filled]
    exact Nat.succ_le_succ (filledMembers_le.2 h)

theorem filled_object_le {ms : List (String × Json)} {n : Nat} (h : ∀ p ∈ ms, p.2.filled ≤ n) :
    (object ms).filled ≤ n + 1 :=
  filled_obj_le fun p hp => h p (Keyed.mem_ofPairs hp)

/-! ## Reading under a bound -/

variable {digits : Option Nat} {m : Nat}

/-- What reading under the bound `m` has to imply for all calls with so much left: no bound would
change it, and what is read inside `level` others is nested no deeper than `m`. -/
structure Bounded (digits : Option Nat) (m fuel : Nat) : Prop where
  value : ∀ {level cs x rest}, level ≤ m → value ⟨digits, some m⟩ level fuel cs = .ok (x, rest) →
    level + x.filled ≤ m ∧ value ⟨digits, none⟩ level fuel cs = .ok (x, rest)
  items : ∀ {level cs xs rest}, level ≤ m → items ⟨digits, some m⟩ level fuel cs = .ok (xs, rest) →
    (∀ x ∈ xs, level + x.filled ≤ m) ∧ items ⟨digits, none⟩ level fuel cs = .ok (xs, rest)
  members : ∀ {level cs ms rest}, level ≤ m →
    members ⟨digits, some m⟩ level fuel cs = .ok (ms, rest) →
    (∀ p ∈ ms, level + p.2.filled ≤ m) ∧ members ⟨digits, none⟩ level fuel cs = .ok (ms, rest)

theorem scalar_nesting (cs : List Char) :
    scalar ⟨digits, some m⟩ cs = scalar ⟨digits, none⟩ cs := by
  unfold scalar
  rfl

theorem lt_of_admits {level : Nat} (h : Limits.admits ⟨digits, some m⟩ level = true) :
    level < m :=
  of_decide_eq_true h

variable {level fuel : Nat} {cs rest : List Char}

theorem bounded_value {x : Json} (ih : Bounded digits m fuel) (hl : level ≤ m)
    (h : value ⟨digits, some m⟩ level (fuel + 1) cs = .ok (x, rest)) :
    level + x.filled ≤ m ∧ value ⟨digits, none⟩ level (fuel + 1) cs = .ok (x, rest) := by
  rw [value.eq_def] at h ⊢
  dsimp only at h ⊢
  split at h
  next =>
    obtain ⟨⟨s, cs'⟩, hs, h⟩ := bind_eq_ok.1 h
    cases h
    exact ⟨hl, bind_eq_ok.2 ⟨_, hs, rfl⟩⟩
  next =>
    split at h
    · cases h
      exact ⟨hl, rfl⟩
    · split at h
      next ha =>
        have hlt := lt_of_admits ha
        obtain ⟨⟨xs, cs'⟩, hxs, h⟩ := bind_eq_ok.1 h
        cases h
        obtain ⟨hfilled, hfree⟩ := ih.items hlt hxs
        have hxs : (arr xs).filled ≤ m - level - 1 + 1 := filled_arr_le fun x hx => by
          have hx := hfilled x hx
          omega
        refine ⟨?_, bind_eq_ok.2 ⟨_, hfree, rfl⟩⟩
        dsimp only
        omega
      next => exact absurd h (by simp)
  next =>
    split at h
    · cases h
      exact ⟨hl, rfl⟩
    · split at h
      next ha =>
        have hlt := lt_of_admits ha
        obtain ⟨⟨ms, cs'⟩, hms, h⟩ := bind_eq_ok.1 h
        cases h
        obtain ⟨hfilled, hfree⟩ := ih.members hlt hms
        have hms : (object ms).filled ≤ m - level - 1 + 1 := filled_object_le fun p hp => by
          have hp := hfilled p hp
          omega
        refine ⟨?_, bind_eq_ok.2 ⟨_, hfree, rfl⟩⟩
        dsimp only
        omega
      next => exact absurd h (by simp)
  next =>
    rw [filled_scalar h]
    exact ⟨hl, scalar_nesting (m := m) cs ▸ h⟩

theorem bounded_items {xs : List Json} (ih : Bounded digits m fuel) (hl : level ≤ m)
    (h : items ⟨digits, some m⟩ level (fuel + 1) cs = .ok (xs, rest)) :
    (∀ x ∈ xs, level + x.filled ≤ m)
      ∧ items ⟨digits, none⟩ level (fuel + 1) cs = .ok (xs, rest) := by
  rw [Json.items] at h ⊢
  obtain ⟨⟨x, cs'⟩, hx, h⟩ := bind_eq_ok.1 h
  obtain ⟨hfilled, hfree⟩ := ih.value hl hx
  rw [hfree, ok_bind]
  dsimp only at h ⊢
  split at h
  next =>
    obtain ⟨⟨ys, cs''⟩, hys, h⟩ := bind_eq_ok.1 h
    cases h
    obtain ⟨hrest, hfree⟩ := ih.items hl hys
    exact ⟨List.forall_mem_cons.2 ⟨hfilled, hrest⟩, bind_eq_ok.2 ⟨_, hfree, rfl⟩⟩
  next =>
    cases h
    exact ⟨List.forall_mem_singleton.2 hfilled, rfl⟩
  next => exact absurd h (by simp)

theorem bounded_members {ms : List (String × Json)} (ih : Bounded digits m fuel) (hl : level ≤ m)
    (h : members ⟨digits, some m⟩ level (fuel + 1) cs = .ok (ms, rest)) :
    (∀ p ∈ ms, level + p.2.filled ≤ m)
      ∧ members ⟨digits, none⟩ level (fuel + 1) cs = .ok (ms, rest) := by
  rw [members.eq_def] at h ⊢
  dsimp only at h ⊢
  split at h
  next =>
    obtain ⟨⟨k, cs'⟩, hk, h⟩ := bind_eq_ok.1 h
    rw [hk, ok_bind]
    dsimp only at h ⊢
    split at h
    next cs'' =>
      obtain ⟨⟨x, cs₁⟩, hx, h⟩ := bind_eq_ok.1 h
      obtain ⟨hfilled, hfree⟩ := ih.value hl hx
      rw [hfree, ok_bind]
      dsimp only at h ⊢
      split at h
      next =>
        obtain ⟨⟨ns, cs₂⟩, hns, h⟩ := bind_eq_ok.1 h
        cases h
        obtain ⟨hrest, hfree⟩ := ih.members hl hns
        exact ⟨List.forall_mem_cons.2 ⟨hfilled, hrest⟩, bind_eq_ok.2 ⟨_, hfree, rfl⟩⟩
      next =>
        cases h
        exact ⟨List.forall_mem_singleton.2 hfilled, rfl⟩
      next => exact absurd h (by simp)
    next => exact absurd h (by simp)
  next => exact absurd h (by simp)

theorem bounded (fuel : Nat) : Bounded digits m fuel := by
  induction fuel with
  | zero =>
    refine ⟨fun _ h => ?_, fun _ h => ?_, fun _ h => ?_⟩
    · exact absurd h (by simp [Json.value])
    · exact absurd h (by simp [Json.items])
    · exact absurd h (by simp [Json.members])
  | succ fuel ih => exact ⟨bounded_value ih, bounded_items ih, bounded_members ih⟩

/-- What is read under a bound on nesting is nested no deeper, and is read without a bound too. -/
theorem parseChars_nesting {cs : List Char} {x : Json}
    (h : parseChars ⟨digits, some m⟩ cs = .ok x) :
    x.filled ≤ m ∧ parseChars ⟨digits, none⟩ cs = .ok x := by
  obtain ⟨⟨y, rest⟩, hy, h⟩ := bind_eq_ok.1 h
  obtain ⟨hfilled, hfree⟩ := (bounded (2 * cs.length + 2)).value (Nat.zero_le m) hy
  dsimp only at h
  split at h
  next hrest =>
    cases h
    refine ⟨by omega, bind_eq_ok.2 ⟨_, hfree, ?_⟩⟩
    exact if_pos hrest
  next => exact absurd h (by simp)

end CommitChain.Json
