import CommitChain.Proofs.Keyed
import CommitChain.Proofs.Language.Form

/-!
# Hereditary properties of values

A property of values is *hereditary* if a value has it just when its parts have it: the items of a
pair, the code and the environment of a function or a suspended computation, and the names in it.
What it asks of a number or a string is its own affair.
-/

namespace CommitChain

/-- A property that a value has just when its parts have it, with what it asks of names and of
environments. -/
structure Hereditary where
  value : Value → Prop
  name : String → Prop
  scope : Env → Prop
  nil : value .nil
  t : name "t"
  sym : ∀ {x : String}, value (.sym x) ↔ name x
  cons : ∀ {a b : Value}, value (.cons a b) ↔ value a ∧ value b
  closure : ∀ {params : List String} {body : Value} {env : Env},
    value (.closure params body env) ↔ (∀ p ∈ params, name p) ∧ value body ∧ scope env
  fix : ∀ {x : String} {params : List String} {body : Value} {env : Env},
    value (.fix x params body env)
      ↔ name x ∧ (∀ p ∈ params, name p) ∧ value body ∧ scope env
  thunk : ∀ {expr : Value} {env : Env}, value (.thunk expr env) ↔ value expr ∧ scope env
  bind : ∀ {env : Env} {x : String} {v : Value}, scope env → name x → value v →
    scope (env.bind x v)
  lookup : ∀ {env : Env} {x : String} {v : Value}, scope env → env.lookup x = some v → value v

namespace Hereditary

variable (H : Hereditary)

theorem ofList {vs : List Value} : H.value (.ofList vs) ↔ ∀ v ∈ vs, H.value v := by
  induction vs with
  | nil => exact iff_of_true H.nil fun v hv => absurd hv List.not_mem_nil
  | cons v vs ih =>
    exact (H.cons.trans (and_congr_right fun _ => ih)).trans List.forall_mem_cons.symm

theorem args {x : String} {vs : List Value} (h : H.value (.form x vs)) : ∀ v ∈ vs, H.value v :=
  H.ofList.1 (H.cons.1 h).2

theorem nameList {names : List String} :
    H.value (.nameList names) ↔ ∀ x ∈ names, H.name x := by
  rw [Value.nameList, H.ofList, List.forall_mem_map]
  simp only [H.sym]

theorem bindingList {pairs : List (String × Value)} :
    H.value (.bindingList pairs) ↔ ∀ p ∈ pairs, H.name p.1 ∧ H.value p.2 := by
  rw [Value.bindingList, H.ofList, List.forall_mem_map]
  have hpair : ∀ p : String × Value,
      H.value (.ofList [.sym p.1, p.2]) ↔ H.name p.1 ∧ H.value p.2 := by
    simp [H.ofList, H.sym]
  simp only [hpair]

theorem ofBool (b : Bool) : H.value (.ofBool b) := by
  cases b
  · exact H.nil
  · exact H.sym.2 H.t

theorem bindAll {env : Env} (h : H.scope env) {pairs : List (String × Value)}
    (hp : ∀ p ∈ pairs, H.name p.1 ∧ H.value p.2) : H.scope (env.bindAll pairs) := by
  induction pairs generalizing env with
  | nil => exact h
  | cons p r ih =>
    obtain ⟨⟨hname, hvalue⟩, hr⟩ := List.forall_mem_cons.1 hp
    exact ih (H.bind h hname hvalue) hr

/-- A function that knows itself captures its own name besides. -/
theorem close {v : Value} (h : H.value v) : H.value v.close := by
  cases v with
  | fix x params body env =>
    obtain ⟨hname, hparams, hbody, henv⟩ := H.fix.1 h
    exact H.closure.2 ⟨hparams, hbody, H.bind henv hname h⟩
  | _ => exact h

end Hereditary

end CommitChain
