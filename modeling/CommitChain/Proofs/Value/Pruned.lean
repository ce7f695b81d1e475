import CommitChain.Proofs.Value.Regular
import CommitChain.Value.Encoding

/-!
# Pruned values

`prune` drops from every environment, at every depth, the bindings that the code beside it does not
refer to.  The encoding of a value shows its pruned form and nothing else (`prune_eq_iff`).

Two environments *agree* on some names (`Env.AgreeOn`) if they bind each of them to values of one
pruned form, or both leave it unbound.
-/

namespace CommitChain

namespace Value

mutual

/-- The value without the bindings that its code does not refer to. -/
def prune : Value → Value
  | num n => num n
  | sym name => sym name
  | str s => str s
  | nil => nil
  | cons a b => cons (prune a) (prune b)
  | closure params body env =>
    closure params (prune body) (pruneScope (freeInFunction params body) env)
  | fix name params body env =>
    fix name params (prune body) (pruneScope (freeInFix name params body) env)
  | thunk expr env => thunk (prune expr) (pruneScope (freeVariables expr) env)

/-- The bindings of the names in `keep`, with pruned values. -/
def pruneScope (keep : List String) : List (String × Value) → List (String × Value)
  | [] => []
  | (name, v) :: env =>
    if keep.contains name then (name, prune v) :: pruneScope keep env else pruneScope keep env

end

attribute [local simp] prune pruneScope

/-! ## Pruned code has the same shape -/

theorem isCons_prune (v : Value) : v.prune.isCons = v.isCons := by
  cases v <;> simp [isCons]

theorem symbolName?_prune (v : Value) : v.prune.symbolName? = v.symbolName? := by
  cases v <;> simp [symbolName?]

theorem headName?_prune (v : Value) : v.prune.headName? = v.headName? := by
  cases v with
  | cons a b => cases a <;> simp [headName?]
  | _ => simp [headName?]

theorem truthy_prune (v : Value) : v.prune.truthy = v.truthy := by
  cases v <;> simp [truthy]

theorem isAtom_prune (v : Value) : v.prune.isAtom = v.isAtom := by
  cases v <;> simp [isAtom]

theorem toList?_prune (v : Value) : v.prune.toList? = v.toList?.map (List.map prune) := by
  fun_induction toList? v with
  | case1 => rfl
  | case2 a b ih =>
    rw [prune, toList?, ih]
    cases b.toList? <;> rfl
  | case3 v hn hc => cases v <;> simp_all [toList?]

theorem paramNames?_prune (v : Value) : v.prune.paramNames? = v.paramNames? := by
  unfold paramNames?
  rw [toList?_prune]
  cases v.toList? with
  | none => rfl
  | some vs => simp [List.mapM_map, Function.comp_def, symbolName?_prune]

theorem bindingPairs?_prune (v : Value) :
    v.prune.bindingPairs? = v.bindingPairs?.map (List.map fun p => (p.1, p.2.prune)) := by
  fun_induction bindingPairs? v with
  | case1 => rfl
  | case2 name expr rest ih =>
    simp only [prune, bindingPairs?, ih]
    cases rest.bindingPairs? <;> rfl
  | case3 v hn hc =>
    cases v with
    | cons a b =>
      cases a with
      | cons c d =>
        cases c <;> try rfl
        cases d <;> try rfl
        rename_i n x y
        cases y <;> simp_all [bindingPairs?]
      | _ => rfl
    | _ => simp_all [bindingPairs?]

/-- The three scans for free variables at once, along their common recursion. -/
theorem free_prune :
    (∀ v : Value, v.prune.freeVariables = v.freeVariables) ∧
    (∀ v : Value, v.prune.freeInItems = v.freeInItems) ∧
    (∀ own inner (v : Value), freeInBindings own inner v.prune = freeInBindings own inner v) := by
  apply freeVariables.mutual_induct
  case case1 => exact fun name h => rfl
  case case2 => exact fun name h => rfl
  case case3 =>
    intro first body rest
    simp [freeVariables]
  case case4 =>
    intro form first body rest _ hl ih
    simp [freeVariables, hl, ih, isCons_prune, paramNames?_prune]
  case case5 =>
    intro form first body rest _ _ hlet ih1 ih2
    simp [freeVariables, hlet, ih1, ih2, isCons_prune, bindingPairs?_prune]
  case case6 =>
    intro form first body rest _ _ _ hrec ih1 ih2
    simp [freeVariables, hrec, ih1, ih2, isCons_prune, bindingPairs?_prune]
  case case7 =>
    intro form first body rest hq hl hlet hrec ih1 ih2 ih3
    simp only [prune, freeVariables, isCons_prune, paramNames?_prune, bindingPairs?_prune,
      Option.isSome_map, hq, hl, hlet, hrec, ih1, ih2, ih3, if_false]
  case case8 =>
    intro rest h
    cases rest with
    | cons a b => cases b <;> simp_all [freeVariables]
    | _ => simp [freeVariables]
  case case9 =>
    intro form rest h hq ih
    cases rest with
    | cons a b => cases b <;> simp_all [freeVariables]
    | _ => simp_all [freeVariables]
  case case10 =>
    intro head rest _ h ih1 ih2
    cases head <;> simp_all [freeVariables]
  case case11 =>
    intro v hs _ _ hc
    cases v <;> simp_all [freeVariables]
  case case12 =>
    intro head rest ih1 ih2
    rw [prune, freeInItems, ih1, ih2, freeInItems]
  case case13 =>
    intro v h
    cases v <;> simp_all [freeInItems]
  case case14 =>
    intro own inner name expr tail rest ih1 ih2
    simp only [prune, freeInBindings, ih1, ih2]
  case case15 =>
    intro v own inner h
    cases v with
    | cons a b =>
      cases a with
      | cons c d =>
        cases c <;> try rfl
        cases d <;> first | rfl | exact absurd rfl (h _ _ _ _)
      | _ => rfl
    | _ => rfl

theorem freeVariables_prune (v : Value) : v.prune.freeVariables = v.freeVariables :=
  free_prune.1 v

theorem freeInFunction_prune (params : List String) (body : Value) :
    freeInFunction params body.prune = freeInFunction params body := by
  rw [freeInFunction, freeVariables_prune, freeInFunction]

theorem freeInFix_prune (name : String) (params : List String) (body : Value) :
    freeInFix name params body.prune = freeInFix name params body := by
  rw [freeInFix, freeInFunction_prune, freeInFix]

/-! ## Scopes -/

theorem pruneScope_of_mem {keep : List String} {name : String} (h : keep.contains name)
    (v : Value) (env : List (String × Value)) :
    pruneScope keep ((name, v) :: env) = (name, v.prune) :: pruneScope keep env := by
  rw [pruneScope, if_pos h]

theorem pruneScope_of_not_mem {keep : List String} {name : String} (h : ¬keep.contains name)
    (v : Value) (env : List (String × Value)) :
    pruneScope keep ((name, v) :: env) = pruneScope keep env := by
  rw [pruneScope, if_neg h]

theorem scopeParts_of_mem {keep : List String} {name : String} (h : keep.contains name)
    (v : Value) (env : List (String × Value)) :
    scopeParts keep ((name, v) :: env) = (name, v.encode) :: scopeParts keep env := by
  rw [scopeParts, if_pos h, encode]

theorem scopeParts_of_not_mem {keep : List String} {name : String} (h : ¬keep.contains name)
    (v : Value) (env : List (String × Value)) :
    scopeParts keep ((name, v) :: env) = scopeParts keep env := by
  rw [scopeParts, if_neg h]

/-! ## The encoding shows the pruned form -/

mutual

theorem parts_prune : ∀ v : Value, parts v.prune = parts v
  | num _ | sym _ | str _ | nil => rfl
  | cons a b => by rw [prune, parts, parts_prune a, parts_prune b, parts]
  | closure params body env => by
    rw [prune, parts, parts_prune body, freeInFunction_prune, scopeParts_pruneScope, parts]
  | fix name params body env => by
    rw [prune, parts, parts_prune body, freeInFix_prune, scopeParts_pruneScope, parts]
  | thunk expr env => by
    rw [prune, parts, parts_prune expr, freeVariables_prune, scopeParts_pruneScope, parts]

theorem scopeParts_pruneScope (keep : List String) : ∀ env : List (String × Value),
    scopeParts keep (pruneScope keep env) = scopeParts keep env
  | [] => rfl
  | (name, v) :: env => by
    by_cases h : keep.contains name
    · rw [pruneScope_of_mem h, scopeParts_of_mem h, scopeParts_of_mem h, encode, parts_prune v,
        scopeParts_pruneScope keep env, encode]
    · rw [pruneScope_of_not_mem h, scopeParts_of_not_mem h, scopeParts_pruneScope keep env]

end

theorem encode_prune (v : Value) : v.prune.encode = v.encode := by
  rw [encode, parts_prune, encode]

/-- What stands in a tree tells the items of a chain from its end. -/
theorem parts_eq_of_encode_eq {v w : Value} (h : v.encode = w.encode) : parts v = parts w := by
  cases v <;> cases w <;> simp [encode, parts, pack] at h ⊢ <;> grind

theorem namesJson_inj {a b : List String} (h : namesJson a = namesJson b) : a = b :=
  List.map_injective_iff.2 (fun _ _ e => Json.str.inj e) (Json.arr.inj h)

mutual

theorem prune_eq_of_parts_eq : ∀ {v w : Value}, parts v = parts w → v.prune = w.prune
  | num _, w, h => by cases w <;> simp_all [parts]
  | sym _, w, h => by cases w <;> simp_all [parts]
  | str _, w, h => by cases w <;> simp_all [parts]
  | nil, w, h => by cases w <;> simp_all [parts]
  | cons a b, w, h => by
    cases w <;> simp only [parts, Prod.mk.injEq, List.cons.injEq, reduceCtorEq, false_and] at h
    next c d =>
      obtain ⟨⟨h1, h2⟩, h3⟩ := h
      rw [prune, prune, prune_eq_of_parts_eq (parts_eq_of_encode_eq h1),
        prune_eq_of_parts_eq (Prod.ext h2 h3)]
  | closure params body env, w, h => by
    cases w <;> simp [parts] at h
    next params' body' env' =>
      obtain ⟨h1, h2, h3⟩ := h
      have hb := prune_eq_of_parts_eq (parts_eq_of_encode_eq h2)
      have hf : freeInFunction params' body' = freeInFunction params body := by
        rw [← freeInFunction_prune, ← hb, freeInFunction_prune, namesJson_inj h1]
      rw [hf] at h3
      rw [prune, prune, hf, pruneScope_eq_of_scopeParts_eq h3, hb, namesJson_inj h1]
  | fix name params body env, w, h => by
    cases w <;> simp [parts] at h
    next name' params' body' env' =>
      obtain ⟨h0, h1, h2, h3⟩ := h
      have hb := prune_eq_of_parts_eq (parts_eq_of_encode_eq h2)
      have hf : freeInFix name' params' body' = freeInFix name params body := by
        rw [← freeInFix_prune, ← hb, freeInFix_prune, namesJson_inj h1, h0]
      rw [hf] at h3
      rw [prune, prune, hf, pruneScope_eq_of_scopeParts_eq h3, hb, h0, namesJson_inj h1]
  | thunk expr env, w, h => by
    cases w <;> simp [parts] at h
    next expr' env' =>
      obtain ⟨h1, h2⟩ := h
      have hb := prune_eq_of_parts_eq (parts_eq_of_encode_eq h1)
      have hf : freeVariables expr' = freeVariables expr := by
        rw [← freeVariables_prune, ← hb, freeVariables_prune]
      rw [hf] at h2
      rw [prune, prune, hf, pruneScope_eq_of_scopeParts_eq h2, hb]

theorem pruneScope_eq_of_scopeParts_eq {keep : List String} :
    ∀ {env env' : List (String × Value)}, scopeParts keep env = scopeParts keep env' →
      pruneScope keep env = pruneScope keep env'
  | [], env', h => by
    induction env' with
    | nil => rfl
    | cons p env' ih =>
      by_cases hp : keep.contains p.1
      · rw [scopeParts_of_mem hp, scopeParts] at h
        exact absurd h (List.cons_ne_nil _ _).symm
      · rw [scopeParts_of_not_mem hp] at h
        rw [ih h, pruneScope_of_not_mem hp]
  | (name, v) :: env, env', h => by
    by_cases hn : keep.contains name
    · rw [scopeParts_of_mem hn] at h
      -- the first kept binding of the other environment may stand deeper
      induction env' with
      | nil => exact absurd h (by simp [scopeParts])
      | cons p env' ih =>
        by_cases hp : keep.contains p.1
        · rw [scopeParts_of_mem hp] at h
          obtain ⟨h1, h2⟩ := List.cons.inj h
          obtain ⟨h3, h4⟩ := Prod.mk.inj h1
          rw [pruneScope_of_mem hn, pruneScope_of_mem hp, h3,
            prune_eq_of_parts_eq (parts_eq_of_encode_eq h4), pruneScope_eq_of_scopeParts_eq h2]
        · rw [scopeParts_of_not_mem hp] at h
          rw [ih h, pruneScope_of_not_mem hp]
    · rw [scopeParts_of_not_mem hn] at h
      rw [pruneScope_of_not_mem hn, pruneScope_eq_of_scopeParts_eq h]

end

/-- Values have one pruned form if and only if they have one encoding. -/
theorem prune_eq_iff {v w : Value} : v.prune = w.prune ↔ v.encode = w.encode :=
  ⟨fun h => by rw [← encode_prune v, h, encode_prune],
    fun h => prune_eq_of_parts_eq (parts_eq_of_encode_eq h)⟩

theorem prune_prune (v : Value) : v.prune.prune = v.prune :=
  prune_eq_iff.2 (encode_prune v)

theorem pruneScope_pruneScope (keep : List String) (env : List (String × Value)) :
    pruneScope keep (pruneScope keep env) = pruneScope keep env :=
  pruneScope_eq_of_scopeParts_eq (scopeParts_pruneScope keep env)

end Value

/-! ## Agreement of environments -/

open CommitChain.Value

theorem Value.find?_pruneScope (keep : List String) (name : String)
    (env : List (String × Value)) :
    Keyed.find? name (pruneScope keep env)
      = if keep.contains name then (Keyed.find? name env).map prune else none := by
  induction env with
  | nil => simp [pruneScope, Keyed.find?]
  | cons p r ih =>
    by_cases hp : keep.contains p.1
    · rw [pruneScope_of_mem hp, Keyed.find?, Keyed.find?, ih]
      by_cases he : p.1 = name
      · rw [if_pos he, if_pos he, if_pos (he ▸ hp), Option.map_some]
      · rw [if_neg he, if_neg he]
    · rw [pruneScope_of_not_mem hp, ih, Keyed.find?]
      by_cases he : p.1 = name
      · rw [if_neg (he ▸ hp), if_neg (he ▸ hp)]
      · rw [if_neg he]

theorem Value.mem_pruneScope {keep : List String} {q : String × Value} :
    ∀ {env : List (String × Value)}, q ∈ pruneScope keep env →
      ∃ p ∈ env, p.1 = q.1 ∧ p.2.prune = q.2
  | [], h => absurd h List.not_mem_nil
  | p :: env, h => by
    by_cases hp : keep.contains p.1
    · rw [pruneScope_of_mem hp] at h
      rcases List.mem_cons.1 h with rfl | h
      · exact ⟨p, List.mem_cons_self, rfl, rfl⟩
      · obtain ⟨r, hr, he⟩ := mem_pruneScope h
        exact ⟨r, List.mem_cons_of_mem _ hr, he⟩
    · rw [pruneScope_of_not_mem hp] at h
      obtain ⟨r, hr, he⟩ := mem_pruneScope h
      exact ⟨r, List.mem_cons_of_mem _ hr, he⟩

theorem Value.isSorted_pruneScope (keep : List String) {env : List (String × Value)}
    (h : Keyed.IsSorted env) : Keyed.IsSorted (pruneScope keep env) := by
  induction env with
  | nil => exact List.Pairwise.nil
  | cons p r ih =>
    by_cases hp : keep.contains p.1
    · rw [pruneScope_of_mem hp]
      refine List.pairwise_cons.2 ⟨fun name hm => ?_, ih h.tail⟩
      obtain ⟨q, hq, rfl⟩ := List.mem_map.1 hm
      obtain ⟨s, hs, he, _⟩ := mem_pruneScope hq
      exact he ▸ h.head_lt hs
    · rw [pruneScope_of_not_mem hp]
      exact ih h.tail

namespace Env

/-- The environments bind each of the names to values of one pruned form, or both do not bind it. -/
def AgreeOn (keep : List String) (env env' : Env) : Prop :=
  ∀ name ∈ keep, (env.lookup name).map prune = (env'.lookup name).map prune

theorem AgreeOn.mono {keep keep' : List String} {env env' : Env} (h : AgreeOn keep env env')
    (hk : ∀ name ∈ keep', name ∈ keep) : AgreeOn keep' env env' :=
  fun name hn => h name (hk name hn)

theorem agreeOn_pruneScope {keep keep' : List String} (env : Env)
    (hk : ∀ name ∈ keep, name ∈ keep') : AgreeOn keep (pruneScope keep' env) env := by
  intro name hn
  rw [lookup, find?_pruneScope, if_pos (List.contains_iff_mem.2 (hk name hn)), lookup,
    Option.map_map]
  exact congrArg (fun f => (Keyed.find? name env).map f) (funext prune_prune)

/-- Sorted environments that agree on some names have one pruned scope for them. -/
theorem AgreeOn.pruneScope_eq {keep : List String} {env env' : Env} (h : AgreeOn keep env env')
    (hs : Keyed.IsSorted env) (hs' : Keyed.IsSorted env') :
    pruneScope keep env = pruneScope keep env' := by
  refine Keyed.eq_of_find?_eq (isSorted_pruneScope keep hs) (isSorted_pruneScope keep hs')
    fun name => ?_
  rw [find?_pruneScope, find?_pruneScope]
  split
  next hc => exact h name (List.contains_iff_mem.1 hc)
  next => rfl

/-- Binding a name anew leaves an agreement on the other names. -/
theorem AgreeOn.bind {keep : List String} {env env' : Env} {name : String} {v v' : Value}
    (h : AgreeOn (keep.filter (· ≠ name)) env env') (hv : v.prune = v'.prune) :
    AgreeOn keep (env.bind name v) (env'.bind name v') := by
  intro other ho
  rw [lookup, lookup, Env.bind, Env.bind, Keyed.find?_insert, Keyed.find?_insert]
  by_cases he : name = other
  · rw [if_pos he, if_pos he, Option.map_some, Option.map_some, hv]
  · rw [if_neg he, if_neg he]
    exact h other (List.mem_filter.2 ⟨ho, by simpa using Ne.symm he⟩)

/-- Binding parameters to arguments leaves an agreement on the other names. -/
theorem AgreeOn.bindAll {params : List String} {args args' : List Value}
    (hl : args.length = params.length) (ha : args.map prune = args'.map prune) :
    ∀ {keep : List String} {env env' : Env},
      AgreeOn (keep.filter fun x => !params.contains x) env env' →
      AgreeOn keep (env.bindAll (params.zip args)) (env'.bindAll (params.zip args')) := by
  induction params generalizing args args' with
  | nil =>
    intro keep env env' h
    exact h.mono fun name hn => List.mem_filter.2 ⟨hn, rfl⟩
  | cons p params ih =>
    intro keep env env' h
    cases args with
    | nil => exact absurd hl (by simp)
    | cons a args =>
      cases args' with
      | nil => exact absurd ha (by simp)
      | cons a' args' =>
        obtain ⟨h1, h2⟩ := List.cons.inj ha
        refine ih (Nat.succ.inj hl) h2 (AgreeOn.bind (h.mono fun name hn => ?_) h1)
        obtain ⟨hn, hp⟩ := List.mem_filter.1 hn
        obtain ⟨hn, hps⟩ := List.mem_filter.1 hn
        refine List.mem_filter.2 ⟨hn, ?_⟩
        simp only [ne_eq, decide_eq_true_eq] at hp
        simp only [List.contains_eq_mem, List.mem_cons, hp, false_or] at hps ⊢
        exact hps

end Env

end CommitChain
