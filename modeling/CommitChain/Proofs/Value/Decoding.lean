import CommitChain.Proofs.Outcome
import CommitChain.Proofs.Value.Encoding

/-!
# Decoding encodings

The encoding of a regular value decodes to the pruned value, as long as nothing that it shows is
suspended (`decode_encode`).
-/

namespace CommitChain.Value

open CommitChain.Text

theorem isCons_last (v : Value) : v.last.isCons = false := by
  induction v using value_induction with
  | cons a b _ ihb => exact ihb
  | _ => rfl

/-! ## Names and environments -/

theorem map_normalize {names : List String} (h : ∀ n ∈ names, IsNormal n) :
    names.map normalize = names := by
  rw [List.map_congr_left h]
  exact List.map_id' names

theorem mapM_str {f : Json → Option String} (h : ∀ s, f (.str s) = some s) (names : List String) :
    (names.map Json.str).mapM f = some names := by
  induction names with
  | nil => rfl
  | cons n names ih =>
    rw [List.map_cons, List.mapM_cons, h, ih]
    rfl

theorem decodeParams_namesJson (path : String) (names : List String) :
    decodeParams path (namesJson names) = .ok names := by
  rw [namesJson, decodeParams, mapM_str fun _ => rfl]

theorem ofPairs_of_isSorted {env : Env} (hs : Keyed.IsSorted env) (hn : ∀ p ∈ env, IsNormal p.1) :
    Env.ofPairs env = env := by
  have hnames : (env.map fun p => (Text.normalize p.1, p.2)) = env := by
    refine (List.map_congr_left fun p hp => ?_).trans (List.map_id env)
    have hname : normalize p.1 = p.1 := hn p hp
    rw [hname]
    rfl
  rw [Env.ofPairs, hnames]
  exact hs.sorted_eq

/-! ## Trees of values -/

variable {path : String}

theorem decodeAt_pack {x : Json} {xs : List Json} {last : Json} {v w : Value} {vs : List Value}
    (hx : ∀ p, decodeAt p x = .ok v) (hxs : ∀ p i, decodeItems p i xs = .ok vs)
    (hlast : ∀ p, decodeAt p last = .ok w) (hw : w.isCons = false) :
    decodeAt path (pack (x :: xs, last)) = .ok (chain (v :: vs) w) := by
  have hpack : pack (x :: xs, last) = .arr [.str "cons", .arr (x :: xs), last] := rfl
  rw [hpack]
  simp [decodeAt, hx, hxs, hlast, hw, bind, Except.bind]

theorem decodeAt_function {params : List String} {body : Json} {members : List (String × Json)}
    {b : Value} {env : Env} (hp : ∀ n ∈ params, IsNormal n) (hb : ∀ p, decodeAt p body = .ok b)
    (he : ∀ p, decodeMembers p members = .ok env) (hs : Keyed.IsSorted env)
    (hn : ∀ p ∈ env, IsNormal p.1) :
    decodeAt path (.arr [.str "fun", namesJson params, body, .obj members])
      = .ok (closure params b env) := by
  simp [decodeAt, decodeParams_namesJson, hb, decodeScope, he, ofPairs_of_isSorted hs hn, function,
    map_normalize hp, bind, Except.bind]

theorem decodeAt_recursive {name : String} {params : List String} {body : Json}
    {members : List (String × Json)} {b : Value} {env : Env} (hname : IsNormal name)
    (hp : ∀ n ∈ params, IsNormal n) (hb : ∀ p, decodeAt p body = .ok b)
    (he : ∀ p, decodeMembers p members = .ok env) (hs : Keyed.IsSorted env)
    (hn : ∀ p ∈ env, IsNormal p.1) :
    decodeAt path (.arr [.str "fix", .str name, namesJson params, body, .obj members])
      = .ok (fix name params b env) := by
  have hname : normalize name = name := hname
  simp [decodeAt, decodeParams_namesJson, hb, decodeScope, he, ofPairs_of_isSorted hs hn, recursive,
    map_normalize hp, hname, bind, Except.bind]

/-! ## Values -/

/-- What decoding has to give for the parts of a value, where nothing is suspended.  The rest of a
chain has a path and a number of its own, so both may be anything. -/
structure Decodes (v : Value) : Prop where
  whole : ∀ p q, suspended? p none v = none → decodeAt q v.encode = .ok v.prune
  items : ∀ p q i j, suspended? p (some i) v = none →
    decodeItems q j (parts v).1 = .ok v.prune.items
  last : ∀ p q i, suspended? p (some i) v = none → decodeAt q (parts v).2 = .ok v.prune.last

/-- A value that is no pair is its own last part. -/
theorem Decodes.single {v : Value} (hparts : (parts v).1 = []) (hc : v.prune.isCons = false)
    (h : ∀ p i q, suspended? p i v = none → decodeAt q (parts v).2 = .ok v.prune) : Decodes v := by
  have hencode : v.encode = (parts v).2 := by
    rw [encode, ← Prod.eta (parts v), hparts]
    rfl
  have hw : v.prune.items = [] ∧ v.prune.last = v.prune := by
    cases hv : v.prune with
    | cons a b => exact absurd hc (by simp [hv, isCons])
    | _ => exact ⟨rfl, rfl⟩
  refine ⟨fun p q hs => hencode ▸ h p none q hs, fun p q i j _ => ?_, fun p q i hs => ?_⟩
  · rw [hparts, hw.1]
    rfl
  · rw [hw.2]
    exact h p (some i) q hs

theorem decodeMembers_scopeParts {keep : List String} {env : List (String × Value)}
    (h : ∀ p ∈ env, p.2.Regular → Decodes p.2) (hr : ∀ p ∈ env, p.2.Regular) {p : String}
    (hs : suspendedInScope? p keep env = none) (q : String) :
    decodeMembers q (scopeParts keep env) = .ok (pruneScope keep env) := by
  induction env with
  | nil => rfl
  | cons b env ih =>
    obtain ⟨name, v⟩ := b
    obtain ⟨hv, henv⟩ := List.forall_mem_cons.1 h
    obtain ⟨hrv, hrenv⟩ := List.forall_mem_cons.1 hr
    rw [suspendedInScope?] at hs
    by_cases hk : keep.contains name
    · rw [if_pos hk] at hs
      split at hs
      next => exact absurd hs (by simp)
      next hnone =>
        rw [scopeParts_of_mem hk, pruneScope_of_mem hk, decodeMembers,
          (hv hrv).whole _ _ hnone, ih henv hrenv hs]
        rfl
    · rw [if_neg hk] at hs
      rw [scopeParts_of_not_mem hk, pruneScope_of_not_mem hk, ih henv hrenv hs]

theorem isNormal_of_mem_pruneScope {keep : List String} {env : Env} (h : env.Regular) :
    ∀ p ∈ pruneScope keep env, IsNormal p.1 := by
  intro p hp
  obtain ⟨q, hq, hname, _⟩ := mem_pruneScope hp
  exact hname ▸ (h.2 q hq).1

theorem decodes_of_regular {v : Value} (h : v.Regular) : Decodes v := by
  induction v using value_induction with
  | num n =>
    refine Decodes.single rfl rfl fun p i q _ => ?_
    rw [parts, decodeAt, prune]
  | sym name =>
    have hname : normalize name = name := h
    refine Decodes.single rfl rfl fun p i q _ => ?_
    rw [parts, decodeAt, prune, symbol, hname]
  | str s =>
    have hs : normalize s = s := h
    refine Decodes.single rfl rfl fun p i q _ => ?_
    rw [parts, decodeAt, prune, text, hs]
  | nil =>
    refine Decodes.single rfl rfl fun p i q _ => ?_
    rw [parts, decodeAt, prune]
  | cons a b iha ihb =>
    have hb := ihb h.2
    have ha := iha h.1
    have split : ∀ {p : String} {i : Option Nat}, suspended? p i (cons a b) = none →
        ∃ p' p'' j, suspended? p' none a = none ∧ suspended? p'' (some j) b = none := by
      intro p i hs
      rw [suspended?] at hs
      split at hs
      next => exact absurd hs (by simp)
      next hnone => exact ⟨_, _, _, hnone, hs⟩
    refine ⟨fun p q hs => ?_, fun p q i j hs => ?_, fun p q i hs => ?_⟩
    · obtain ⟨p', p'', j, hsa, hsb⟩ := split hs
      rw [encode, parts, ← encode, decodeAt_pack (fun q => ha.whole p' q hsa)
        (fun q i => hb.items p'' q j i hsb) (fun q => hb.last p'' q j hsb) (isCons_last _), prune]
      show Except.ok (cons a.prune (chain b.prune.items b.prune.last)) = _
      rw [chain_items_last]
    · obtain ⟨p', p'', k, hsa, hsb⟩ := split hs
      have hfirst := ha.whole p' s!"{q}[{j}]" hsa
      rw [encode] at hfirst
      rw [parts, decodeItems, hfirst, hb.items p'' q k (j + 1) hsb, prune]
      rfl
    · obtain ⟨p', p'', k, hsa, hsb⟩ := split hs
      rw [parts, prune]
      exact hb.last p'' q k hsb
  | closure params body env ihb ihe =>
    obtain ⟨hp, hb, he⟩ := regular_closure.1 h
    refine Decodes.single rfl rfl fun p i q hs => ?_
    rw [suspended?] at hs
    split at hs
    next => exact absurd hs (by simp)
    next hnone =>
      rw [parts, prune]
      exact decodeAt_function hp (fun q => (ihb hb).whole _ q hnone)
        (fun q => decodeMembers_scopeParts ihe (fun p hp => (he.2 p hp).2) hs q)
        (isSorted_pruneScope _ he.1) (isNormal_of_mem_pruneScope he)
  | fix name params body env ihb ihe =>
    obtain ⟨hn, hp, hb, he⟩ := regular_fix.1 h
    refine Decodes.single rfl rfl fun p i q hs => ?_
    rw [suspended?] at hs
    split at hs
    next => exact absurd hs (by simp)
    next hnone =>
      rw [parts, prune]
      exact decodeAt_recursive hn hp (fun q => (ihb hb).whole _ q hnone)
        (fun q => decodeMembers_scopeParts ihe (fun p hp => (he.2 p hp).2) hs q)
        (isSorted_pruneScope _ he.1) (isNormal_of_mem_pruneScope he)
  | thunk expr env ihb ihe =>
    refine Decodes.single rfl rfl fun p i q hs => ?_
    rw [suspended?] at hs
    exact absurd hs (by simp)

/-- Within the limit on nesting a tree is decoded as it stands. -/
theorem decode_eq_ok {x : Json} {v : Value} :
    decode x = .ok v ↔ x.depth ≤ Json.nestingLimit ∧ decodeAt "$" x = .ok v := by
  rw [decode, decodeFrom]
  split
  next h => exact iff_of_false (by simp) fun hx => absurd hx.1 (Nat.not_le.2 h)
  next h => exact (and_iff_right (Nat.not_lt.1 h)).symm

/-- What can be encoded strictly decodes to the pruned value. -/
theorem decode_encode {v : Value} (h : v.Regular) {x : Json} (hx : v.encodeStrict = .ok x) :
    decode x = .ok v.prune := by
  obtain ⟨hdepth, hs, rfl⟩ := encodeStrict_eq_ok.1 hx
  exact decode_eq_ok.2 ⟨hdepth, (decodes_of_regular h).whole _ _ hs⟩

/-! ## Encoding what was decoded -/

theorem regular_prune {v : Value} (h : v.Regular) : v.prune.Regular := by
  have hscope : ∀ {keep : List String} {env : Env}, env.Regular →
      (∀ p ∈ env, p.2.Regular → p.2.prune.Regular) → Env.Regular (pruneScope keep env) := by
    intro keep env he hp
    refine ⟨isSorted_pruneScope keep he.1, fun q hq => ?_⟩
    obtain ⟨p, hm, hname, hvalue⟩ := mem_pruneScope hq
    exact ⟨hname ▸ (he.2 p hm).1, hvalue ▸ hp p hm (he.2 p hm).2⟩
  induction v using value_induction with
  | cons a b iha ihb => exact ⟨iha h.1, ihb h.2⟩
  | closure params body env ihb ihe =>
    obtain ⟨hp, hb, he⟩ := regular_closure.1 h
    rw [prune]
    exact regular_closure.2 ⟨hp, ihb hb, hscope he ihe⟩
  | fix name params body env ihb ihe =>
    obtain ⟨hn, hp, hb, he⟩ := regular_fix.1 h
    rw [prune]
    exact regular_fix.2 ⟨hn, hp, ihb hb, hscope he ihe⟩
  | thunk expr env ihb ihe =>
    obtain ⟨hb, he⟩ := regular_thunk.1 h
    rw [prune]
    exact regular_thunk.2 ⟨ihb hb, hscope he ihe⟩
  | _ => exact h

theorem suspendedInScope?_prune {keep : List String} {env : List (String × Value)}
    (h : ∀ p ∈ env, ∀ path i, suspended? path i p.2.prune = suspended? path i p.2) (path : String) :
    suspendedInScope? path keep (pruneScope keep env) = suspendedInScope? path keep env := by
  induction env with
  | nil => rfl
  | cons b env ih =>
    obtain ⟨hv, henv⟩ := List.forall_mem_cons.1 h
    by_cases hk : keep.contains b.1
    · rw [pruneScope_of_mem hk, suspendedInScope?, suspendedInScope?, if_pos hk, if_pos hk, hv,
        ih henv]
    · rw [pruneScope_of_not_mem hk, ih henv, suspendedInScope?.eq_def path keep (b :: env)]
      exact (if_neg hk).symm

theorem suspended?_prune (v : Value) (path : String) (i : Option Nat) :
    suspended? path i v.prune = suspended? path i v := by
  induction v using value_induction generalizing path i with
  | cons a b iha ihb => simp only [prune, suspended?, iha, ihb]
  | closure params body env ihb ihe =>
    simp only [prune, suspended?, ihb, freeInFunction_prune, suspendedInScope?_prune ihe]
  | fix name params body env ihb ihe =>
    simp only [prune, suspended?, ihb, freeInFix_prune, suspendedInScope?_prune ihe]
  | thunk expr env ihb ihe => simp only [prune, suspended?]
  | _ => simp only [prune]

/-- The pruned value has the strict encoding of the value. -/
theorem encodeStrict_prune (v : Value) : v.prune.encodeStrict = v.encodeStrict := by
  rw [encodeStrict, encode_prune, suspended?_prune, encodeStrict]

end CommitChain.Value
