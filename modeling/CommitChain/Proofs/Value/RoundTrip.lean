import CommitChain.Proofs.Value.Decoded

/-!
# Encoding and decoding back

What stops a strict encoding is a suspended computation in the tree, and nothing else.  A strict
encoding is decoded to the pruned value, which has the same encoding, so decoding and encoding again
changes nothing any more.  The value itself comes back exactly if it is *trim*: no environment in it
binds a name that the code beside it does not refer to.
-/

namespace CommitChain.Value

mutual

/-- Every environment, at every depth, binds only free names of the code that it belongs to. -/
def Trim : Value → Prop
  | num _ | sym _ | str _ | nil => True
  | cons a b => Trim a ∧ Trim b
  | closure params body env => Trim body ∧ TrimBindings (freeInFunction params body) env
  | fix name params body env => Trim body ∧ TrimBindings (freeInFix name params body) env
  | thunk expr env => Trim expr ∧ TrimBindings (freeVariables expr) env

/-- Bindings of names in `keep` to trim values. -/
def TrimBindings (keep : List String) : List (String × Value) → Prop
  | [] => True
  | (name, v) :: env => (name ∈ keep ∧ Trim v) ∧ TrimBindings keep env

end

/-! ## Trim values are their own pruned form -/

theorem length_pruneScope_le (keep : List String) (env : List (String × Value)) :
    (pruneScope keep env).length ≤ env.length := by
  induction env with
  | nil => exact Nat.le_refl 0
  | cons p env ih =>
    by_cases hk : keep.contains p.1
    · rw [pruneScope_of_mem hk]
      exact Nat.succ_le_succ ih
    · rw [pruneScope_of_not_mem hk]
      exact Nat.le_succ_of_le ih

theorem pruneScope_eq_self_iff {keep : List String} {env : List (String × Value)}
    (h : ∀ p ∈ env, p.2.prune = p.2 ↔ p.2.Trim) :
    pruneScope keep env = env ↔ TrimBindings keep env := by
  induction env with
  | nil => exact iff_of_true rfl trivial
  | cons p env ih =>
    obtain ⟨name, v⟩ := p
    obtain ⟨hv, henv⟩ := List.forall_mem_cons.1 h
    rw [TrimBindings, ← ih henv, ← hv, ← List.contains_iff_mem]
    by_cases hk : keep.contains name
    · rw [pruneScope_of_mem hk, List.cons.injEq, Prod.mk.injEq, and_iff_right rfl,
        and_iff_right hk]
    · -- a binding that is left out makes the scope shorter
      rw [pruneScope_of_not_mem hk]
      refine iff_of_false (fun he => ?_) fun ht => hk ht.1.1
      have hlength := length_pruneScope_le keep env
      rw [he] at hlength
      exact Nat.not_succ_le_self _ hlength

theorem prune_eq_self_iff {v : Value} : v.prune = v ↔ v.Trim := by
  induction v using value_induction with
  | cons a b iha ihb => rw [prune, cons.injEq, iha, ihb, Trim]
  | closure params body env ihb ihe =>
    rw [prune, closure.injEq, and_iff_right rfl, ihb, pruneScope_eq_self_iff ihe, Trim]
  | fix name params body env ihb ihe =>
    rw [prune, fix.injEq, and_iff_right rfl, and_iff_right rfl, ihb, pruneScope_eq_self_iff ihe,
      Trim]
  | thunk expr env ihb ihe =>
    rw [prune, thunk.injEq, ihb, pruneScope_eq_self_iff ihe, Trim]
  | _ => exact iff_of_true rfl trivial

/-! ## Strict encodings -/

theorem encode?_eq_ok {v : Value} {x : Json} :
    v.encode? = .ok x ↔ v.encode.depth ≤ Json.nestingLimit ∧ v.encode = x := by
  unfold encode?
  split
  next h => exact iff_of_false (by simp) fun hx => absurd hx.1 (Nat.not_le.2 h)
  next h => rw [Except.ok.injEq, and_iff_right (Nat.not_lt.1 h)]

/-- Within the limit on nesting only a suspended computation stops a strict encoding. -/
theorem encodeStrict_eq_error_iff {v : Value} {x : Json} (h : v.encode? = .ok x) :
    (∃ path, v.encodeStrict = .error (.suspended path)) ↔ HasThunk x := by
  obtain ⟨hdepth, rfl⟩ := encode?_eq_ok.1 h
  rw [encodeStrict, if_neg (Nat.not_lt.2 hdepth), ← not_iff_not,
    ← suspended?_eq_none_iff "$" none]
  cases suspended? "$" none v <;> simp

theorem encodeStrict_of_not_hasThunk {v : Value} {x : Json} (h : v.encode? = .ok x)
    (hx : ¬HasThunk x) : v.encodeStrict = .ok x := by
  obtain ⟨hdepth, rfl⟩ := encode?_eq_ok.1 h
  exact encodeStrict_eq_ok.2 ⟨hdepth, (suspended?_eq_none_iff _ _).2 hx, rfl⟩

/-- What can be encoded strictly is decoded to a value with the same encoding, and to the value
itself exactly if it is trim. -/
theorem exists_decode_encodeStrict {v : Value} {x : Json} (hr : v.Regular)
    (h : v.encodeStrict = .ok x) :
    ∃ w, decode x = .ok w ∧ w.encodeStrict = .ok x ∧ (w = v ↔ v.Trim) :=
  ⟨v.prune, decode_encode hr h, (encodeStrict_prune v).trans h, prune_eq_self_iff⟩

/-- **Encoding and decoding are inverse on trim values.**  A strict encoding is the tree that
`encode?` gives, unless a suspended computation stands in it; it can be decoded, to a value that has
the same strict encoding and is the value itself exactly if that is trim.  What a tree is decoded to
can be encoded, and its encoding is a fixed point of decoding and encoding. -/
theorem strict_encoding_round_trip :
    (∀ (v : Value) (x : Json), v.encode? = .ok x →
      ((∃ path, v.encodeStrict = .error (.suspended path)) ↔ HasThunk x) ∧
      (¬HasThunk x → v.encodeStrict = .ok x)) ∧
    (∀ (v : Value) (x : Json), v.Regular → v.encodeStrict = .ok x →
      ∃ w, decode x = .ok w ∧ w.encodeStrict = .ok x ∧ (w = v ↔ v.Trim)) ∧
    (∀ (x : Json) (v : Value), decode x = .ok v → ∃ y w, v.encodeStrict = .ok y ∧
      decode y = .ok w ∧ w.encodeStrict = .ok y) := by
  refine ⟨fun v x h => ⟨encodeStrict_eq_error_iff h, encodeStrict_of_not_hasThunk h⟩,
    fun v x => exists_decode_encodeStrict, fun x v h => ?_⟩
  have hv := encodeStrict_of_decode h
  obtain ⟨w, hw, hwv, _⟩ := exists_decode_encodeStrict (regular_of_decode h) hv
  exact ⟨_, w, hv, hw, hwv⟩

/-- A function with a suspended computation in a binding that its body does not refer to. -/
def idleThunk : Value :=
  closure ["x"] (ofList [sym "f", sym "x"]) [("f", sym "car"), ("g", thunk nil [])]

/-- The binding with the suspended computation is left out, so there is a strict encoding, and the
function comes back without the binding. -/
theorem strict_encoding_round_trip_of_idleThunk :
    (∃ x, idleThunk.encode? = .ok x ∧ ¬HasThunk x ∧ idleThunk.Regular ∧
      idleThunk.encodeStrict = .ok x ∧ ∃ w, decode x = .ok w ∧ w ≠ idleThunk ∧
        ∃ y u, w.encodeStrict = .ok y ∧ decode y = .ok u ∧ u.encodeStrict = .ok y) ∧
    (∃ x, (thunk nil []).encode? = .ok x ∧ HasThunk x) := by
  obtain ⟨hthunk, hround, hfixed⟩ := strict_encoding_round_trip
  have hsym : ∀ name ∈ ["f", "x", "car"], (sym name).Regular := by
    show ∀ name ∈ ["f", "x", "car"], Text.IsNormal name
    decide
  have hregular : idleThunk.Regular := by
    have hsorted : Keyed.IsSorted [("f", sym "car"), ("g", thunk nil [])] := by
      show List.Pairwise (· < ·) ["f", "g"]
      decide
    refine regular_closure.2 ⟨by decide, ⟨hsym "f" (by simp), hsym "x" (by simp), trivial⟩, hsorted,
      List.forall_mem_cons.2 ⟨⟨by decide, hsym "car" (by simp)⟩, List.forall_mem_singleton.2
        ⟨by decide, regular_thunk.2 ⟨trivial, Env.regular_empty⟩⟩⟩⟩
  have hstrict : idleThunk.encodeStrict = .ok idleThunk.encode := rfl
  have hnone : ¬HasThunk idleThunk.encode := fun h => by
    obtain ⟨path, hpath⟩ := (hthunk idleThunk _ rfl).1.2 h
    exact absurd (hstrict.symm.trans hpath) (by simp)
  have htrim : ¬idleThunk.Trim := fun h => absurd h.2.2.1.1 (by decide)
  obtain ⟨w, hw, _, hself⟩ := hround idleThunk _ hregular hstrict
  exact ⟨⟨_, rfl, hnone, hregular, hstrict, w, hw, fun he => htrim (hself.1 he), hfixed _ w hw⟩,
    _, rfl, (hthunk (thunk nil []) _ rfl).1.1 ⟨"$", rfl⟩⟩

end CommitChain.Value
