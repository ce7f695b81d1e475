import CommitChain.Proofs.Value.Encoding
import CommitChain.Proofs.Value.Hereditary

/-!
# Values whose numbers can be written

The numbers of a value *fit* if each of them, at every depth and in every environment, can be
written in decimal.  The encoding of such a value is plain, so it has a canonical text.
-/

namespace CommitChain

open CommitChain.Text

namespace Value

mutual

/-- All numbers can be written in decimal. -/
def NumbersFit : Value → Prop
  | num n => n.natAbs < integerBound
  | sym _ | str _ | nil => True
  | cons a b => NumbersFit a ∧ NumbersFit b
  | closure _ body env => NumbersFit body ∧ BindingsFit env
  | fix _ _ body env => NumbersFit body ∧ BindingsFit env
  | thunk expr env => NumbersFit expr ∧ BindingsFit env

/-- Bindings of any names to values whose numbers fit. -/
def BindingsFit : List (String × Value) → Prop
  | [] => True
  | (_, v) :: env => NumbersFit v ∧ BindingsFit env

end

theorem bindingsFit_iff {env : List (String × Value)} :
    BindingsFit env ↔ ∀ p ∈ env, p.2.NumbersFit := by
  induction env with
  | nil => simp [BindingsFit]
  | cons p r ih => rw [BindingsFit, ih, List.forall_mem_cons]

end Value

/-! ## Environments -/

namespace Env

/-- All numbers of the values that are bound fit. -/
def NumbersFit (env : Env) : Prop :=
  ∀ p ∈ env, p.2.NumbersFit

theorem NumbersFit.bind {env : Env} (h : env.NumbersFit) (name : String) {v : Value}
    (hv : v.NumbersFit) : (env.bind name v).NumbersFit := by
  intro p hp
  rcases Keyed.mem_insert hp with rfl | hp
  · exact hv
  · exact h p hp

theorem NumbersFit.lookup {env : Env} (h : env.NumbersFit) {name : String} {v : Value}
    (hv : env.lookup name = some v) : v.NumbersFit :=
  h _ (Keyed.mem_of_find? hv)

end Env

namespace Value

theorem numbersFit_closure {params : List String} {body : Value} {env : Env} :
    (closure params body env).NumbersFit ↔ body.NumbersFit ∧ env.NumbersFit := by
  rw [NumbersFit, bindingsFit_iff, Env.NumbersFit]

theorem numbersFit_fix {name : String} {params : List String} {body : Value} {env : Env} :
    (fix name params body env).NumbersFit ↔ body.NumbersFit ∧ env.NumbersFit := by
  rw [NumbersFit, bindingsFit_iff, Env.NumbersFit]

theorem numbersFit_thunk {expr : Value} {env : Env} :
    (thunk expr env).NumbersFit ↔ expr.NumbersFit ∧ env.NumbersFit := by
  rw [NumbersFit, bindingsFit_iff, Env.NumbersFit]

end Value

/-- If the numbers of a value fit, they do so at every depth; nothing is asked of names. -/
def Hereditary.numbersFit : Hereditary where
  value := Value.NumbersFit
  name _ := True
  scope := Env.NumbersFit
  nil := trivial
  t := trivial
  sym := Iff.rfl
  cons := Iff.rfl
  closure := Value.numbersFit_closure.trans (by simp)
  fix := Value.numbersFit_fix.trans (by simp)
  thunk := Value.numbersFit_thunk
  bind h _ hv := h.bind _ hv
  lookup h hv := h.lookup hv

namespace Value

theorem numbersFit_ofList {vs : List Value} : (ofList vs).NumbersFit ↔ ∀ v ∈ vs, v.NumbersFit :=
  Hereditary.numbersFit.ofList

/-! ## Encodings -/

theorem plain_pack {items : List Json} {last : Json} (h : ∀ x ∈ items, x.Plain)
    (hl : last.Plain) : (pack (items, last)).Plain := by
  cases items with
  | nil => exact hl
  | cons x xs =>
    refine Json.plain_arr ?_
    simp only [List.forall_mem_cons, List.not_mem_nil, false_imp_iff, implies_true, and_true]
    exact ⟨Json.plain_str _, Json.plain_arr h, hl⟩

theorem plain_namesJson (names : List String) : (namesJson names).Plain :=
  Json.plain_arr (List.forall_mem_map.2 fun name _ => Json.plain_str name)

theorem plain_scopeParts (keep : List String) {env : Env} (h : ∀ p ∈ env, p.2.encode.Plain) :
    (Json.obj (scopeParts keep env)).Plain := by
  rw [scopeParts_eq_map]
  exact Json.plain_obj (List.forall_mem_map.2 fun p hp => h p (List.mem_of_mem_filter hp))

theorem plain_parts {v : Value} (h : v.NumbersFit) :
    (∀ x ∈ (parts v).1, x.Plain) ∧ (parts v).2.Plain := by
  have single : ∀ {tag : String} {xs : List Json}, (∀ x ∈ xs, x.Plain) →
      (∀ y ∈ ([] : List Json), y.Plain) ∧ (Json.arr (.str tag :: xs)).Plain :=
    fun hxs => ⟨fun _ hy => absurd hy List.not_mem_nil,
      Json.plain_arr (List.forall_mem_cons.2 ⟨Json.plain_str _, hxs⟩)⟩
  induction v using value_induction with
  | num n =>
    rw [parts]
    exact single (List.forall_mem_singleton.2 (Json.plain_int h))
  | sym name =>
    rw [parts]
    exact single (List.forall_mem_singleton.2 (Json.plain_str name))
  | str s =>
    rw [parts]
    exact single (List.forall_mem_singleton.2 (Json.plain_str s))
  | nil =>
    rw [parts]
    exact single fun _ hx => absurd hx List.not_mem_nil
  | cons a b iha ihb =>
    obtain ⟨ha, hb⟩ := h
    obtain ⟨hitems, hlast⟩ := ihb hb
    rw [parts]
    exact ⟨List.forall_mem_cons.2 ⟨plain_pack (iha ha).1 (iha ha).2, hitems⟩, hlast⟩
  | closure params body env ihb ihe =>
    obtain ⟨hb, he⟩ := numbersFit_closure.1 h
    have hbody := plain_pack (ihb hb).1 (ihb hb).2
    have henv := plain_scopeParts (freeInFunction params body) fun p hp =>
      plain_pack (ihe p hp (he p hp)).1 (ihe p hp (he p hp)).2
    rw [parts]
    refine single ?_
    simpa using And.intro (plain_namesJson params) ⟨hbody, henv⟩
  | fix name params body env ihb ihe =>
    obtain ⟨hb, he⟩ := numbersFit_fix.1 h
    have hbody := plain_pack (ihb hb).1 (ihb hb).2
    have henv := plain_scopeParts (freeInFix name params body) fun p hp =>
      plain_pack (ihe p hp (he p hp)).1 (ihe p hp (he p hp)).2
    rw [parts]
    refine single ?_
    simpa using And.intro (Json.plain_str name) ⟨plain_namesJson params, hbody, henv⟩
  | thunk expr env ihb ihe =>
    obtain ⟨hb, he⟩ := numbersFit_thunk.1 h
    have hbody := plain_pack (ihb hb).1 (ihb hb).2
    have henv := plain_scopeParts (freeVariables expr) fun p hp =>
      plain_pack (ihe p hp (he p hp)).1 (ihe p hp (he p hp)).2
    rw [parts]
    refine single ?_
    simpa using And.intro hbody henv

/-- The encoding of a value whose numbers fit has a canonical text. -/
theorem NumbersFit.plain_encode {v : Value} (h : v.NumbersFit) : v.encode.Plain :=
  plain_pack (plain_parts h).1 (plain_parts h).2

end Value

end CommitChain
