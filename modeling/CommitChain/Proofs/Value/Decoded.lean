import CommitChain.Proofs.Value.Decoding
import CommitChain.Proofs.Value.Suspended

/-!
# Decoded values

What a tree is decoded to is told by one induction over its constructs (`decodeAt_induction`).  A
decoded value is regular, nothing in it is suspended, and its encoding is not nested deeper than the
tree (`Forced`), so it can be encoded strictly (`encodeStrict_of_decode`).
-/

namespace CommitChain

open CommitChain.Text

/-- What is related one by one to members of a list. -/
theorem exists_of_forall₂_left {α β : Type} {R : α → β → Prop} {as : List α} {bs : List β}
    (h : List.Forall₂ R as bs) : ∀ a ∈ as, ∃ b ∈ bs, R a b := by
  induction h with
  | nil => exact fun _ ha => absurd ha List.not_mem_nil
  | cons hab _ ih =>
    refine List.forall_mem_cons.2 ⟨⟨_, List.mem_cons_self, hab⟩, fun a ha => ?_⟩
    obtain ⟨b, hb, hr⟩ := ih a ha
    exact ⟨b, List.mem_cons_of_mem _ hb, hr⟩

theorem exists_of_forall₂_right {α β : Type} {R : α → β → Prop} {as : List α} {bs : List β}
    (h : List.Forall₂ R as bs) : ∀ b ∈ bs, ∃ a ∈ as, R a b :=
  exists_of_forall₂_left h.flip

/-! ## Environments of pairs -/

namespace Env

theorem mem_bindAll {p : String × Value} {pairs : List (String × Value)} {env : Env}
    (h : p ∈ env.bindAll pairs) : p ∈ env ∨ p ∈ pairs := by
  induction pairs generalizing env with
  | nil => exact .inl h
  | cons q r ih =>
    rcases ih h with h | h
    · rcases Keyed.mem_insert h with rfl | h
      · exact .inr List.mem_cons_self
      · exact .inl h
    · exact .inr (List.mem_cons_of_mem _ h)

/-- The values of an environment made of pairs are among theirs. -/
theorem mem_ofPairs {p : String × Value} {pairs : List (String × Value)} (h : p ∈ ofPairs pairs) :
    ∃ q ∈ pairs, p.2 = q.2 := by
  obtain ⟨q, hq, rfl⟩ := List.mem_map.1 ((mem_bindAll h).resolve_left List.not_mem_nil)
  exact ⟨q, hq, rfl⟩

theorem regular_ofPairs {pairs : List (String × Value)} (h : ∀ p ∈ pairs, p.2.Regular) :
    (ofPairs pairs).Regular :=
  regular_empty.bindAll (List.forall_mem_map.2 fun p hp => ⟨isNormal_normalize p.1, h p hp⟩)

end Env

namespace Value

/-! ## The constructs -/

/-- What is read as texts one by one is those texts. -/
theorem eq_map_str_of_mapM {f : Json → Option String} (hf : ∀ x s, f x = some s → x = .str s)
    {items : List Json} {names : List String} (h : items.mapM f = some names) :
    items = names.map Json.str := by
  induction items generalizing names with
  | nil =>
    cases h
    rfl
  | cons x xs ih =>
    rw [List.mapM_cons] at h
    obtain ⟨s, hs, h⟩ := Option.bind_eq_some_iff.1 h
    obtain ⟨rest, hrest, h⟩ := Option.bind_eq_some_iff.1 h
    cases h
    rw [hf x s hs, ih hrest, List.map_cons]

theorem decodeParams_eq_ok {path : String} {x : Json} {params : List String}
    (h : decodeParams path x = .ok params) : x = namesJson params := by
  unfold decodeParams at h
  split at h
  next names =>
    split at h
    next ps hps =>
      cases h
      refine congrArg Json.arr (eq_map_str_of_mapM ?_ hps)
      intro y s hy
      split at hy
      · cases hy
        rfl
      · exact absurd hy (by simp)
    next => exact absurd h (by simp)
  next => exact absurd h (by simp)

/-- Members and the bindings that they are decoded to, one by one. -/
def Bound (motive : Json → Value → Prop) (members : List (String × Json))
    (pairs : List (String × Value)) : Prop :=
  List.Forall₂ (fun m p => m.1 = p.1 ∧ motive m.2 p.2) members pairs

/-- Induction on a tree that is decoded, with one case for each construct. -/
theorem decodeAt_induction {motive : Json → Value → Prop}
    (num : ∀ n, motive (.arr [.str "num", .int n]) (.num n))
    (sym : ∀ name, motive (.arr [.str "sym", .str name]) (symbol name))
    (str : ∀ s, motive (.arr [.str "str", .str s]) (text s))
    (nil : motive (.arr [.str "nil"]) .nil)
    (cons : ∀ items vs last w, items ≠ [] → List.Forall₂ motive items vs → motive last w →
      w.isCons = false → motive (.arr [.str "cons", .arr items, last]) (chain vs w))
    (closure : ∀ params body b members pairs, motive body b → Bound motive members pairs →
      motive (.arr [.str "fun", namesJson params, body, .obj members])
        (function params b (Env.ofPairs pairs)))
    (fix : ∀ name params body b members pairs, motive body b → Bound motive members pairs →
      motive (.arr [.str "fix", .str name, namesJson params, body, .obj members])
        (recursive name params b (Env.ofPairs pairs)))
    {path : String} {x : Json} {v : Value} (h : decodeAt path x = .ok v) : motive x v := by
  refine decodeAt.induct (fun path x => ∀ v, decodeAt path x = .ok v → motive x v)
    (fun path x => ∀ env, decodeScope path x = .ok env →
      ∃ members pairs, x = .obj members ∧ env = Env.ofPairs pairs ∧ Bound motive members pairs)
    (fun path members => ∀ pairs, decodeMembers path members = .ok pairs →
      Bound motive members pairs)
    (fun path index items => ∀ vs, decodeItems path index items = .ok vs →
      List.Forall₂ motive items vs)
    ?num ?sym ?str ?nil ?cons ?closure ?fix ?malformed ?unknown ?other ?scope ?noScope ?noItems
    ?items ?noMembers ?members path x v h
  case num =>
    intro path n v h
    rw [decodeAt] at h
    cases h
    exact num n
  case sym =>
    intro path name v h
    rw [decodeAt] at h
    cases h
    exact sym name
  case str =>
    intro path s v h
    rw [decodeAt] at h
    cases h
    exact str s
  case nil =>
    intro path v h
    rw [decodeAt] at h
    cases h
    exact nil
  case cons =>
    intro path x xs last ihx ihxs ihl v h
    rw [decodeAt] at h
    obtain ⟨first, hx, h⟩ := bind_eq_ok.1 h
    obtain ⟨others, hxs, h⟩ := bind_eq_ok.1 h
    obtain ⟨w, hl, h⟩ := bind_eq_ok.1 h
    split at h
    · exact absurd h (by simp)
    next hw =>
      cases h
      exact cons _ _ _ _ (List.cons_ne_nil x xs) (.cons (ihx first hx) (ihxs others hxs)) (ihl w hl)
        (Bool.not_eq_true _ ▸ hw)
  case closure =>
    intro path params body env ihb ihe v h
    rw [decodeAt] at h
    obtain ⟨ps, hps, h⟩ := bind_eq_ok.1 h
    obtain ⟨b, hb, h⟩ := bind_eq_ok.1 h
    obtain ⟨e, he, h⟩ := bind_eq_ok.1 h
    cases h
    obtain rfl := decodeParams_eq_ok hps
    obtain ⟨members, pairs, rfl, rfl, hbound⟩ := ihe e he
    exact closure ps body b members pairs (ihb b hb) hbound
  case fix =>
    intro path name params body env ihb ihe v h
    rw [decodeAt] at h
    obtain ⟨ps, hps, h⟩ := bind_eq_ok.1 h
    obtain ⟨b, hb, h⟩ := bind_eq_ok.1 h
    obtain ⟨e, he, h⟩ := bind_eq_ok.1 h
    cases h
    obtain rfl := decodeParams_eq_ok hps
    obtain ⟨members, pairs, rfl, rfl, hbound⟩ := ihe e he
    exact fix name ps body b members pairs (ihb b hb) hbound
  case malformed =>
    intro path tag tail h₁ h₂ h₃ h₄ h₅ h₆ h₇ ht v h
    rw [decodeAt, if_pos ht] at h <;> first | assumption | exact absurd h (by simp)
  case unknown =>
    intro path tag tail h₁ h₂ h₃ h₄ h₅ h₆ h₇ ht v h
    rw [decodeAt, if_neg ht] at h <;> first | assumption | exact absurd h (by simp)
  case other =>
    intro x path h₁ h₂ h₃ h₄ h₅ h₆ h₇ h₈ v h
    rw [decodeAt] at h <;> first | assumption | exact absurd h (by simp)
  case scope =>
    intro path members ih env h
    rw [decodeScope] at h
    obtain ⟨pairs, hpairs, h⟩ := bind_eq_ok.1 h
    cases h
    exact ⟨members, pairs, rfl, rfl, ih pairs hpairs⟩
  case noScope =>
    intro x path hx env h
    rw [decodeScope] at h
    · exact absurd h (by simp)
    · exact hx
  case noItems =>
    intro path index vs h
    cases h
    exact .nil
  case items =>
    intro path index x xs ihx ihxs vs h
    rw [decodeItems] at h
    obtain ⟨v, hv, h⟩ := bind_eq_ok.1 h
    obtain ⟨ws, hws, h⟩ := bind_eq_ok.1 h
    cases h
    exact .cons (ihx v hv) (ihxs ws hws)
  case noMembers =>
    intro path pairs h
    cases h
    exact .nil
  case members =>
    intro path name x xs ihx ihxs pairs h
    rw [decodeMembers] at h
    obtain ⟨v, hv, h⟩ := bind_eq_ok.1 h
    obtain ⟨ws, hws, h⟩ := bind_eq_ok.1 h
    cases h
    exact .cons ⟨rfl, ihx v hv⟩ (ihxs ws hws)

/-! ## Depth -/

theorem depth_arr_le {xs ys : List Json}
    (h : List.Forall₂ (fun x y => x.depth ≤ y.depth) xs ys) :
    (Json.arr xs).depth ≤ (Json.arr ys).depth := by
  rw [Json.depth, Json.depth, Nat.add_le_add_iff_right, Json.depthItems_le]
  intro x hx
  obtain ⟨y, hy, hle⟩ := exists_of_forall₂_left h x hx
  exact Nat.le_trans hle (Json.depthItems_le.1 (Nat.le_refl _) y hy)

theorem depth_obj_le {a b : List (String × Json)}
    (h : ∀ p ∈ a, ∃ q ∈ b, p.2.depth ≤ q.2.depth) : (Json.obj a).depth ≤ (Json.obj b).depth := by
  rw [Json.depth, Json.depth, Nat.add_le_add_iff_right, Json.depthMembers_le]
  intro p hp
  obtain ⟨q, hq, hle⟩ := h p hp
  exact Nat.le_trans hle (Json.depthMembers_le.1 (Nat.le_refl _) q hq)

theorem depth_namesJson_le (names : List String) :
    (namesJson (names.map normalize)).depth ≤ (namesJson names).depth := by
  refine depth_arr_le ?_
  rw [List.map_map, List.forall₂_map_left_iff, List.forall₂_map_right_iff, List.forall₂_same]
  exact fun name _ => Nat.le_refl 0

/-! ## Chains -/

theorem encode_chain {vs : List Value} {w : Value} (hw : w.isCons = false) :
    (chain vs w).encode = pack (vs.map encode, w.encode) := by
  have hlast : (chain vs w).items = vs ∧ (chain vs w).last = w := by
    induction vs with
    | nil =>
      cases w with
      | cons a b => exact absurd hw (by simp [isCons])
      | _ => exact ⟨rfl, rfl⟩
    | cons v vs ih => exact ⟨congrArg (v :: ·) ih.1, ih.2⟩
  rw [encode_eq_pack, hlast.1, hlast.2]

theorem regular_chain {vs : List Value} {w : Value} (h : ∀ v ∈ vs, v.Regular) (hw : w.Regular) :
    (chain vs w).Regular := by
  induction vs with
  | nil => exact hw
  | cons v vs ih =>
    obtain ⟨hv, hvs⟩ := List.forall_mem_cons.1 h
    exact ⟨hv, ih hvs⟩

/-! ## What decoding gives -/

/-- What decoding gives for a tree: a regular value with nothing suspended in it, whose encoding is
nested no deeper than the tree. -/
structure Forced (x : Json) (v : Value) : Prop where
  regular : v.Regular
  none_suspended : ¬HasThunk v.encode
  depth_le : v.encode.depth ≤ x.depth

namespace Bound

variable {members : List (String × Json)} {pairs : List (String × Value)}

/-- The values of the environment are decoded from members. -/
theorem exists_member (h : Bound Forced members pairs) :
    ∀ p ∈ Env.ofPairs pairs, ∃ m ∈ members, Forced m.2 p.2 := by
  intro p hp
  obtain ⟨q, hq, hv⟩ := Env.mem_ofPairs hp
  obtain ⟨m, hm, _, hforced⟩ := exists_of_forall₂_right h q hq
  exact ⟨m, hm, hv ▸ hforced⟩

theorem regular (h : Bound Forced members pairs) : (Env.ofPairs pairs).Regular := by
  refine Env.regular_ofPairs fun p hp => ?_
  obtain ⟨m, _, _, hforced⟩ := exists_of_forall₂_right h p hp
  exact hforced.regular

theorem none_suspended (h : Bound Forced members pairs) {keep : List String} :
    ∀ p ∈ Env.ofPairs pairs, keep.contains p.1 → ¬HasThunk p.2.encode := by
  intro p hp _
  obtain ⟨m, _, hforced⟩ := h.exists_member p hp
  exact hforced.none_suspended

theorem depth_le (h : Bound Forced members pairs) (keep : List String) :
    (Json.obj (scopeParts keep (Env.ofPairs pairs))).depth ≤ (Json.obj members).depth := by
  rw [scopeParts_eq_map]
  refine depth_obj_le (List.forall_mem_map.2 fun p hp => ?_)
  obtain ⟨m, hm, hforced⟩ := h.exists_member p (List.mem_filter.1 hp).1
  exact ⟨m, hm, hforced.depth_le⟩

end Bound

theorem forced_of_decodeAt {path : String} {x : Json} {v : Value} (h : decodeAt path x = .ok v) :
    Forced x v := by
  refine decodeAt_induction ?num ?sym ?str ?nil ?cons ?closure ?fix h
  case num => exact fun n => ⟨trivial, (suspended?_eq_none_iff "" none).1 rfl, Nat.le_refl _⟩
  case sym =>
    exact fun name =>
      ⟨isNormal_normalize name, (suspended?_eq_none_iff "" none).1 rfl, Nat.le_refl _⟩
  case str =>
    exact fun s => ⟨isNormal_normalize s, (suspended?_eq_none_iff "" none).1 rfl, Nat.le_refl _⟩
  case nil => exact ⟨trivial, (suspended?_eq_none_iff "" none).1 rfl, Nat.le_refl _⟩
  case cons =>
    intro items vs last w ne hitems hlast hw
    have hvs : ∀ v ∈ vs, ∃ x ∈ items, Forced x v := exists_of_forall₂_right hitems
    refine ⟨regular_chain (fun v hv => ?_) hlast.regular, ?_, ?_⟩
    · obtain ⟨x, _, hforced⟩ := hvs v hv
      exact hforced.regular
    · rw [encode_chain hw, not_hasThunk_pack]
      refine ⟨fun v hv => ?_, hlast.none_suspended⟩
      obtain ⟨x, _, hforced⟩ := hvs v hv
      exact hforced.none_suspended
    · have hdepth : List.Forall₂ (fun y x => y.depth ≤ x.depth) (vs.map encode) items :=
        List.forall₂_map_left_iff.2 (hitems.flip.imp fun _ _ hforced => hforced.depth_le)
      rw [encode_chain hw]
      cases hitems with
      | nil => exact absurd rfl ne
      | cons _ _ =>
        exact depth_arr_le
          (.cons (Nat.le_refl _) (.cons (depth_arr_le hdepth) (.cons hlast.depth_le .nil)))
  case closure =>
    intro params body b members pairs hb he
    refine ⟨regular_closure.2 ⟨List.forall_mem_map.2 fun p _ => isNormal_normalize p, hb.regular,
      he.regular⟩, (not_hasThunk_closure _ _ _).2 ⟨hb.none_suspended, he.none_suspended⟩, ?_⟩
    exact depth_arr_le (.cons (Nat.le_refl _) (.cons (depth_namesJson_le params)
      (.cons hb.depth_le (.cons (he.depth_le _) .nil))))
  case fix =>
    intro name params body b members pairs hb he
    refine ⟨regular_fix.2 ⟨isNormal_normalize name,
      List.forall_mem_map.2 fun p _ => isNormal_normalize p, hb.regular, he.regular⟩,
      (not_hasThunk_fix _ _ _ _).2 ⟨hb.none_suspended, he.none_suspended⟩, ?_⟩
    exact depth_arr_le (.cons (Nat.le_refl _) (.cons (Nat.le_refl _) (.cons
      (depth_namesJson_le params) (.cons hb.depth_le (.cons (he.depth_le _) .nil)))))

theorem regular_of_decode {x : Json} {v : Value} (h : decode x = .ok v) : v.Regular :=
  (forced_of_decodeAt (decode_eq_ok.1 h).2).regular

/-- What was decoded can be encoded strictly. -/
theorem encodeStrict_of_decode {x : Json} {v : Value} (h : decode x = .ok v) :
    v.encodeStrict = .ok v.encode := by
  obtain ⟨hdepth, hx⟩ := decode_eq_ok.1 h
  have hforced := forced_of_decodeAt hx
  exact encodeStrict_eq_ok.2 ⟨Nat.le_trans hforced.depth_le hdepth,
    (suspended?_eq_none_iff _ _).2 hforced.none_suspended, rfl⟩

end Value

end CommitChain
