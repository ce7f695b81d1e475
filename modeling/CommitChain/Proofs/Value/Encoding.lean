import CommitChain.Proofs.Json.CanonicalForm
import CommitChain.Proofs.Value.Pruned

/-!
# Encodings of regular values

The encoding of a regular value is settled, so it is its own canonical form, and it decodes to the
pruned value as long as nothing in it is suspended.
-/

namespace CommitChain.Value

open CommitChain.Text

/-- Induction on a value, with the values of an environment as its parts. -/
@[elab_as_elim]
theorem value_induction {motive : Value → Prop} (num : ∀ n, motive (num n))
    (sym : ∀ name, motive (sym name)) (str : ∀ s, motive (str s)) (nil : motive nil)
    (cons : ∀ a b, motive a → motive b → motive (cons a b))
    (closure : ∀ params body env, motive body → (∀ p ∈ env, motive p.2) →
      motive (closure params body env))
    (fix : ∀ name params body env, motive body → (∀ p ∈ env, motive p.2) →
      motive (fix name params body env))
    (thunk : ∀ expr env, motive expr → (∀ p ∈ env, motive p.2) → motive (thunk expr env))
    (v : Value) : motive v :=
  @Value.rec motive (fun env => ∀ p ∈ env, motive p.2) (fun p => motive p.2) num sym str nil cons
    closure fix thunk (fun _ hp => absurd hp List.not_mem_nil)
    (fun _ _ hp hps => List.forall_mem_cons.2 ⟨hp, hps⟩) (fun _ _ hv => hv) v

/-! ## The shape of encodings -/

theorem scopeParts_eq_map (keep : List String) (env : List (String × Value)) :
    scopeParts keep env
      = (env.filter fun p => keep.contains p.1).map fun p => (p.1, p.2.encode) := by
  induction env with
  | nil => rw [scopeParts, List.filter_nil, List.map_nil]
  | cons p r ih =>
    obtain ⟨name, v⟩ := p
    by_cases h : keep.contains name
    · rw [scopeParts_of_mem h, List.filter_cons, if_pos h, ih]
      rfl
    · rw [scopeParts_of_not_mem h, List.filter_cons, if_neg h, ih]

theorem settled_pack {items : List Json} {last : Json} (h : ∀ x ∈ items, x.Settled)
    (hl : last.Settled) : (pack (items, last)).Settled := by
  cases items with
  | nil => exact hl
  | cons x xs =>
    refine .arr ?_
    simp only [List.forall_mem_cons, List.not_mem_nil, false_imp_iff, implies_true, and_true]
    exact ⟨.str (by decide), .arr h, hl⟩

theorem settled_namesJson {names : List String} (h : ∀ n ∈ names, IsNormal n) :
    (namesJson names).Settled :=
  .arr (List.forall_mem_map.2 fun n hn => .str (h n hn))

theorem settled_scopeParts (keep : List String) {env : Env} (h : env.Regular)
    (hp : ∀ p ∈ env, p.2.encode.Settled) : (Json.obj (scopeParts keep env)).Settled := by
  rw [scopeParts_eq_map]
  have hmem : ∀ p ∈ env.filter fun p => keep.contains p.1, p ∈ env := fun p hp =>
    (List.mem_filter.1 hp).1
  refine .obj (List.forall_mem_map.2 fun p hm => (h.2 p (hmem p hm)).1) ?_
    (List.forall_mem_map.2 fun p hm => hp p (hmem p hm))
  have hs := h.1.filter fun p => keep.contains p.1
  rw [Keyed.IsSorted, List.map_map]
  exact hs

theorem settled_parts {v : Value} (h : v.Regular) :
    (∀ x ∈ (parts v).1, x.Settled) ∧ (parts v).2.Settled := by
  have single : ∀ {x : Json}, x.Settled → (∀ y ∈ ([] : List Json), y.Settled) ∧ x.Settled :=
    fun h => ⟨fun _ hy => absurd hy List.not_mem_nil, h⟩
  have tagged : ∀ {tag : String} {xs : List Json}, IsNormal tag → (∀ x ∈ xs, x.Settled) →
      (Json.arr (.str tag :: xs)).Settled :=
    fun ht hxs => .arr (List.forall_mem_cons.2 ⟨.str ht, hxs⟩)
  induction v using value_induction with
  | num n =>
    rw [parts]
    exact single (tagged (by decide) (List.forall_mem_singleton.2 (.int n)))
  | sym name =>
    rw [parts]
    exact single (tagged (by decide) (List.forall_mem_singleton.2 (.str h)))
  | str s =>
    rw [parts]
    exact single (tagged (by decide) (List.forall_mem_singleton.2 (.str h)))
  | nil =>
    rw [parts]
    exact single (tagged (by decide) fun _ hx => absurd hx List.not_mem_nil)
  | cons a b iha ihb =>
    obtain ⟨ha, hb⟩ := h
    obtain ⟨hitems, hlast⟩ := ihb hb
    rw [parts]
    exact ⟨List.forall_mem_cons.2 ⟨settled_pack (iha ha).1 (iha ha).2, hitems⟩, hlast⟩
  | closure params body env ihb ihe =>
    obtain ⟨hp, hb, he⟩ := regular_closure.1 h
    have hbody := settled_pack (ihb hb).1 (ihb hb).2
    have henv := settled_scopeParts (freeInFunction params body) he fun p hm =>
      settled_pack (ihe p hm (he.2 p hm).2).1 (ihe p hm (he.2 p hm).2).2
    rw [parts]
    refine single (tagged (by decide) ?_)
    simpa using And.intro (settled_namesJson hp) ⟨hbody, henv⟩
  | fix name params body env ihb ihe =>
    obtain ⟨hn, hp, hb, he⟩ := regular_fix.1 h
    have hbody := settled_pack (ihb hb).1 (ihb hb).2
    have henv := settled_scopeParts (freeInFix name params body) he fun p hm =>
      settled_pack (ihe p hm (he.2 p hm).2).1 (ihe p hm (he.2 p hm).2).2
    rw [parts]
    refine single (tagged (by decide) ?_)
    simpa using And.intro (Json.Settled.str hn) ⟨settled_namesJson hp, hbody, henv⟩
  | thunk expr env ihb ihe =>
    obtain ⟨hb, he⟩ := regular_thunk.1 h
    have hbody := settled_pack (ihb hb).1 (ihb hb).2
    have henv := settled_scopeParts (freeVariables expr) he fun p hm =>
      settled_pack (ihe p hm (he.2 p hm).2).1 (ihe p hm (he.2 p hm).2).2
    rw [parts]
    refine single (tagged (by decide) ?_)
    simpa using And.intro hbody henv

/-- The encoding of a regular value is its own canonical form. -/
theorem settled_encode {v : Value} (h : v.Regular) : v.encode.Settled :=
  settled_pack (settled_parts h).1 (settled_parts h).2

theorem encodeStrict_eq_ok {v : Value} {x : Json} :
    v.encodeStrict = .ok x
      ↔ v.encode.depth ≤ Json.nestingLimit ∧ suspended? "$" none v = none ∧ v.encode = x := by
  unfold encodeStrict
  split
  next h => simp [Nat.not_le.2 h]
  next h =>
    split
    next hs => simp [hs]
    next hs => simp [hs, Nat.not_lt.1 h]

end CommitChain.Value
