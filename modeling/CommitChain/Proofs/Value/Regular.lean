import CommitChain.Proofs.Value.Hereditary

/-!
# Regular values

A value is *regular* if its names and strings are in normal form and its environments are sorted by
name, at every depth.  The constructors of `Value` admit other values as well; those that the
reader, the decoder and the machine make are regular.
-/

namespace CommitChain

open CommitChain.Text

namespace Value

mutual

/-- Names and strings in normal form, and sorted environments, at every depth. -/
def Regular : Value → Prop
  | num _ | nil => True
  | sym name => IsNormal name
  | str s => IsNormal s
  | cons a b => Regular a ∧ Regular b
  | closure params body env =>
    (∀ p ∈ params, IsNormal p) ∧ Regular body ∧ Keyed.IsSorted env ∧ RegularBindings env
  | fix name params body env =>
    IsNormal name ∧ (∀ p ∈ params, IsNormal p) ∧ Regular body ∧ Keyed.IsSorted env
      ∧ RegularBindings env
  | thunk expr env => Regular expr ∧ Keyed.IsSorted env ∧ RegularBindings env

/-- Bindings of normal names to regular values. -/
def RegularBindings : List (String × Value) → Prop
  | [] => True
  | (name, v) :: env => (IsNormal name ∧ Regular v) ∧ RegularBindings env

end

theorem regularBindings_iff {env : List (String × Value)} :
    RegularBindings env ↔ ∀ p ∈ env, IsNormal p.1 ∧ p.2.Regular := by
  induction env with
  | nil => simp [RegularBindings]
  | cons p r ih => rw [RegularBindings, ih, List.forall_mem_cons]

end Value

/-! ## Regular environments -/

namespace Env

/-- Bindings sorted by name, of normal names to regular values. -/
def Regular (env : Env) : Prop :=
  Keyed.IsSorted env ∧ ∀ p ∈ env, IsNormal p.1 ∧ p.2.Regular

theorem regular_empty : Regular empty :=
  ⟨List.Pairwise.nil, fun _ hp => absurd hp (List.not_mem_nil)⟩

theorem Regular.bind {env : Env} (h : env.Regular) {name : String} {v : Value}
    (hn : IsNormal name) (hv : v.Regular) : (env.bind name v).Regular := by
  refine ⟨Keyed.isSorted_insert name v h.1, fun p hp => ?_⟩
  rcases Keyed.mem_insert hp with rfl | hp
  · exact ⟨hn, hv⟩
  · exact h.2 p hp

theorem Regular.lookup {env : Env} (h : env.Regular) {name : String} {v : Value}
    (hv : env.lookup name = some v) : v.Regular :=
  (h.2 _ (Keyed.mem_of_find? hv)).2

end Env

namespace Value

theorem regular_closure {params : List String} {body : Value} {env : Env} :
    (closure params body env).Regular
      ↔ (∀ p ∈ params, IsNormal p) ∧ body.Regular ∧ env.Regular := by
  rw [Regular, regularBindings_iff, Env.Regular]

theorem regular_fix {name : String} {params : List String} {body : Value} {env : Env} :
    (fix name params body env).Regular
      ↔ IsNormal name ∧ (∀ p ∈ params, IsNormal p) ∧ body.Regular ∧ env.Regular := by
  rw [Regular, regularBindings_iff, Env.Regular]

theorem regular_thunk {expr : Value} {env : Env} :
    (thunk expr env).Regular ↔ expr.Regular ∧ env.Regular := by
  rw [Regular, regularBindings_iff, Env.Regular]

end Value

/-! ## Parts of regular values -/

/-- What is regular is so at every depth. -/
def Hereditary.regular : Hereditary where
  value := Value.Regular
  name := IsNormal
  scope := Env.Regular
  nil := trivial
  t := by decide
  sym := Iff.rfl
  cons := Iff.rfl
  closure := Value.regular_closure
  fix := Value.regular_fix
  thunk := Value.regular_thunk
  bind h hn hv := h.bind hn hv
  lookup h hv := h.lookup hv

theorem Env.Regular.bindAll {env : Env} (h : env.Regular) {pairs : List (String × Value)}
    (hp : ∀ p ∈ pairs, IsNormal p.1 ∧ p.2.Regular) : (env.bindAll pairs).Regular :=
  Hereditary.regular.bindAll h hp

namespace Value

theorem regular_ofList {xs : List Value} : (ofList xs).Regular ↔ ∀ x ∈ xs, x.Regular :=
  Hereditary.regular.ofList

end Value

end CommitChain
