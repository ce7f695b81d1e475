import CommitChain.Proofs.Commitment
import CommitChain.Proofs.Json.Reordered
import CommitChain.Proofs.Value.Shape
import Mathlib.Data.List.Perm.Basic

/-!
# The layout of environments

Whether a tree can be decoded does not depend on the order of members, at any depth
(`Shape.reordered`).  What it is decoded to does not depend on it either, as long as members whose
names have one normal form stand for one value (`Unambiguous`): of such members the last one counts,
and which one is last is a matter of layout.  The condition is exact (`decode_reordered_iff`).
-/

namespace CommitChain

open CommitChain.Text CommitChain.Json

/-! ## Environments -/

namespace Env

/-- Pairs whose names have one normal form only if they have one value make up the same environment
in any order. -/
theorem ofPairs_perm {a b : List (String × Value)} (h : a.Perm b)
    (hone : ∀ p ∈ a, ∀ q ∈ a, Text.normalize p.1 = Text.normalize q.1 → p.2 = q.2) :
    ofPairs a = ofPairs b :=
  Keyed.sorted_eq_of_perm (h.map _) (List.forall_mem_map.2 fun p hp =>
    List.forall_mem_map.2 fun q hq => hone p hp q hq)

/-- The last pair counts. -/
theorem find?_ofPairs_concat (pairs : List (String × Value)) (name : String) (v : Value) :
    Keyed.find? (Text.normalize name) (ofPairs (pairs ++ [(name, v)])) = some v := by
  have hsorted : ofPairs (pairs ++ [(name, v)])
      = Keyed.insert (Text.normalize name) v (ofPairs pairs) := by
    rw [ofPairs, List.map_append]
    exact Keyed.sorted_concat _ _ _
  rw [hsorted, Keyed.find?_insert, if_pos rfl]

end Env

namespace Value

/-! ## What a tree stands for -/

theorem Bound.imp {M N : Json → Value → Prop} {members : List (String × Json)}
    {pairs : List (String × Value)} (h : Bound M members pairs) (hmn : ∀ x v, M x v → N x v) :
    Bound N members pairs :=
  List.Forall₂.imp (fun _ _ hm => hm.imp_right (hmn _ _)) h

/-- A tree is decoded to a value, wherever it stands. -/
def StandsFor (x : Json) (v : Value) : Prop :=
  ∀ path, decodeAt path x = .ok v

theorem StandsFor.unique {x : Json} {v w : Value} (h : StandsFor x v) (g : StandsFor x w) :
    v = w :=
  Except.ok.inj ((h "").symm.trans (g ""))

section

variable {items : List Json} {vs : List Value} {last body : Json} {w b : Value}
  {params : List String} {members : List (String × Json)} {pairs : List (String × Value)}

theorem decodeItems_eq (h : List.Forall₂ StandsFor items vs) (path : String) (index : Nat) :
    decodeItems path index items = .ok vs := by
  induction h generalizing index with
  | nil => rfl
  | cons hx _ ih => rw [decodeItems, hx, ih, ok_bind, ok_bind]

theorem decodeMembers_eq (h : Bound StandsFor members pairs) (path : String) :
    decodeMembers path members = .ok pairs := by
  induction h with
  | nil => rfl
  | @cons m p _ _ hp _ ih =>
    obtain ⟨name, x⟩ := m
    obtain ⟨rfl, hx⟩ := hp
    rw [decodeMembers, hx, ih, ok_bind, ok_bind]

theorem standsFor_cons (ne : items ≠ []) (hitems : List.Forall₂ StandsFor items vs)
    (hlast : StandsFor last w) (hw : w.isCons = false) :
    StandsFor (.arr [.str "cons", .arr items, last]) (chain vs w) := by
  intro path
  cases hitems with
  | nil => exact absurd rfl ne
  | cons hx hxs =>
    rw [decodeAt, hx, decodeItems_eq hxs, hlast, ok_bind, ok_bind, ok_bind, hw]
    rfl

theorem standsFor_closure (hb : StandsFor body b) (he : Bound StandsFor members pairs) :
    StandsFor (.arr [.str "fun", namesJson params, body, .obj members])
      (function params b (Env.ofPairs pairs)) := by
  intro path
  rw [decodeAt, decodeParams_namesJson, hb, decodeScope, decodeMembers_eq he, ok_bind, ok_bind,
    ok_bind, ok_bind]

theorem standsFor_fix (name : String) (hb : StandsFor body b)
    (he : Bound StandsFor members pairs) :
    StandsFor (.arr [.str "fix", .str name, namesJson params, body, .obj members])
      (recursive name params b (Env.ofPairs pairs)) := by
  intro path
  rw [decodeAt, decodeParams_namesJson, hb, decodeScope, decodeMembers_eq he, ok_bind, ok_bind,
    ok_bind, ok_bind]

end

/-! ## Trees in another order -/

theorem reordered_namesJson {names : List String} {y : Json}
    (h : Reordered (namesJson names) y) : y = namesJson names :=
  h.of_leaves (List.forall_mem_map.2 fun name _ => ⟨by simp, by simp⟩)

/-- The parameters, the code and the environment of a function are reordered one by one. -/
theorem reordered_function {params : List String} {body : Json} {members : List (String × Json)}
    {others : List Json}
    (h : List.Forall₂ Reordered [namesJson params, body, .obj members] others) :
    ∃ body' members', others = [namesJson params, body', .obj members'] ∧
      Reordered body body' ∧ Reordered (.obj members) (.obj members') := by
  obtain ⟨names, _, hnames, hrest, rfl⟩ := List.forall₂_cons_left_iff.1 h
  obtain ⟨body', _, hbody, hlast, rfl⟩ := List.forall₂_cons_left_iff.1 hrest
  obtain ⟨env, _, henv, hnil, rfl⟩ := List.forall₂_cons_left_iff.1 hlast
  obtain rfl := List.forall₂_nil_left_iff.1 hnil
  obtain rfl := reordered_namesJson hnames
  obtain ⟨_, members', rfl, _⟩ := henv.of_obj
  exact ⟨body', members', rfl, hbody, henv⟩

/-- The items and the end of a chain are reordered one by one. -/
theorem reordered_chain {items others : List Json} {last : Json}
    (h : List.Forall₂ Reordered [.arr items, last] others) :
    ∃ items' last', others = [.arr items', last'] ∧ List.Forall₂ Reordered items items' ∧
      Reordered last last' := by
  obtain ⟨_, _, harr, hrest, rfl⟩ := List.forall₂_cons_left_iff.1 h
  obtain ⟨last', _, hlast, hnil, rfl⟩ := List.forall₂_cons_left_iff.1 hrest
  obtain rfl := List.forall₂_nil_left_iff.1 hnil
  obtain ⟨items', rfl, hitems⟩ := harr.of_arr
  exact ⟨items', last', rfl, hitems, hlast⟩

theorem Shape.isPair_reordered {x y : Json} (hx : Shape x) (h : Reordered x y) :
    isPair y = isPair x := by
  cases hx <;> obtain ⟨others, rfl, _⟩ := h.of_tagged <;> rfl

/-- Whether a tree stands for a value does not depend on the order of members. -/
theorem Shape.reordered {x y : Json} (hx : Shape x) (h : Reordered x y) : Shape y := by
  have members : ∀ {ms ns : List (String × Json)},
      (∀ p ∈ ms, ∀ {y : Json}, Reordered p.2 y → Shape y) → Reordered (.obj ms) (.obj ns) →
        ∀ q ∈ ns, Shape q.2 := by
    intro ms ns ih h q hq
    obtain ⟨moved, _, heq, hperm, hall⟩ := h.of_obj
    cases heq
    obtain ⟨p, hp, _, hpq⟩ := exists_of_forall₂_right hall q hq
    exact ih p (hperm.mem_iff.2 hp) hpq
  induction hx generalizing y with
  | num n =>
    obtain rfl := h.of_leaves (by simp)
    exact .num n
  | sym name =>
    obtain rfl := h.of_leaves (by simp)
    exact .sym name
  | str s =>
    obtain rfl := h.of_leaves (by simp)
    exact .str s
  | nil =>
    obtain rfl := h.of_leaves (by simp)
    exact .nil
  | cons ne hi hl single ihi ihl =>
    obtain ⟨_, rfl, hall⟩ := h.of_tagged
    obtain ⟨items', last', rfl, hitems, hlast⟩ := reordered_chain hall
    refine .cons ?_ (fun x hx => ?_) (ihl hlast) ((hl.isPair_reordered hlast).trans single)
    · rintro rfl
      exact ne (List.forall₂_nil_right_iff.1 hitems)
    · obtain ⟨a, ha, hax⟩ := exists_of_forall₂_right hitems x hx
      exact ihi a ha hax
  | closure params hb he ihb ihe =>
    obtain ⟨_, rfl, hall⟩ := h.of_tagged
    obtain ⟨body', members', rfl, hbody, henv⟩ := reordered_function hall
    exact .closure params (ihb hbody) (members ihe henv)
  | fix name params hb he ihb ihe =>
    obtain ⟨_, rfl, hall⟩ := h.of_tagged
    obtain ⟨_, _, hname, hrest, rfl⟩ := List.forall₂_cons_left_iff.1 hall
    obtain rfl := hname.of_leaf (by simp) (by simp)
    obtain ⟨body', members', rfl, hbody, henv⟩ := reordered_function hrest
    exact .fix name params (ihb hbody) (members ihe henv)

/-! ## Names in one normal form -/

/-- Members of one object whose names have one normal form stand for one value. -/
def Unambiguous (x : Json) : Prop :=
  ∀ members, (Json.obj members).Within x → ∀ p ∈ members, ∀ q ∈ members,
    Text.normalize p.1 = Text.normalize q.1 → ∀ v, StandsFor p.2 v → StandsFor q.2 v

theorem Unambiguous.item {items : List Json} {x : Json} (h : Unambiguous (.arr items))
    (hx : x ∈ items) : Unambiguous x :=
  fun members hm => h members (.item hx hm)

theorem Unambiguous.member {members : List (String × Json)} {p : String × Json}
    (h : Unambiguous (.obj members)) (hp : p ∈ members) : Unambiguous p.2 :=
  fun ms hm => h ms (.member hp hm)

/-- A tree stands for a value in any order of its members, if it is unambiguous. -/
structure Fixed (x : Json) (v : Value) : Prop where
  standsFor : StandsFor x v
  reordered : Unambiguous x → ∀ y, Reordered x y → StandsFor y v

/-- The members of an environment in another order make up the same environment. -/
theorem Bound.reordered {members others : List (String × Json)} {pairs : List (String × Value)}
    (hb : Bound Fixed members pairs) (hu : Unambiguous (.obj members))
    (h : Reordered (.obj members) (.obj others)) :
    ∃ moved, Bound StandsFor others moved ∧ Env.ofPairs moved = Env.ofPairs pairs := by
  obtain ⟨ms, _, heq, hperm, hall⟩ := h.of_obj
  cases heq
  obtain ⟨moved, hmoved, hpairs⟩ := List.perm_comp_forall₂ hperm.symm hb
  refine ⟨moved, ?_, (Env.ofPairs_perm hpairs.symm fun p hp q hq hpq => ?_).symm⟩
  · have hms : ∀ m ∈ ms, Unambiguous m.2 := fun m hm => hu.member (hperm.mem_iff.2 hm)
    have hfixed := (List.forall₂_and_left _ _).2 ⟨hms, hmoved⟩
    exact forall₂_comp (fun hxy hyz =>
      ⟨hxy.1.symm.trans hyz.2.1, hyz.2.2.reordered hyz.1 _ hxy.2⟩) hall.flip hfixed
  · obtain ⟨m, hm, hname, hfixed⟩ := exists_of_forall₂_right hb p hp
    obtain ⟨m', hm', hname', hfixed'⟩ := exists_of_forall₂_right hb q hq
    have hnames : Text.normalize m.1 = Text.normalize m'.1 := by rw [hname, hname', hpq]
    have hsame := hu members .self m hm m' hm' hnames p.2 hfixed.standsFor
    exact hsame.unique hfixed'.standsFor

theorem fixed_of_decodeAt {path : String} {x : Json} {v : Value} (h : decodeAt path x = .ok v) :
    Fixed x v := by
  have leaves : ∀ {items : List Json} {v : Value}, StandsFor (.arr items) v →
      (∀ x ∈ items, (∀ xs, x ≠ .arr xs) ∧ ∀ ms, x ≠ .obj ms) → Fixed (.arr items) v := by
    intro items v h hleaf
    refine ⟨h, fun _ y hy => ?_⟩
    rw [hy.of_leaves hleaf]
    exact h
  refine decodeAt_induction ?num ?sym ?str ?nil ?cons ?closure ?fix h
  case num => exact fun n => leaves (fun path => by rw [decodeAt]) (by simp)
  case sym => exact fun name => leaves (fun path => by rw [decodeAt]) (by simp)
  case str => exact fun s => leaves (fun path => by rw [decodeAt]) (by simp)
  case nil => exact leaves (fun path => by rw [decodeAt]) (by simp)
  case cons =>
    intro items vs last w ne hitems hlast hw
    refine ⟨standsFor_cons ne (hitems.imp fun _ _ hx => hx.standsFor) hlast.standsFor hw,
      fun hu y hy => ?_⟩
    obtain ⟨_, rfl, hall⟩ := hy.of_tagged
    obtain ⟨items', last', rfl, hitems', hlast'⟩ := reordered_chain hall
    have huarr : Unambiguous (.arr items) := hu.item (by simp)
    have hfixed := (List.forall₂_and_left _ _).2 ⟨fun x hx => huarr.item hx, hitems⟩
    refine standsFor_cons ?_ (forall₂_comp (fun hxy hyz => hyz.2.reordered hyz.1 _ hxy) hitems'.flip
      hfixed) (hlast.reordered (hu.item (by simp)) _ hlast') hw
    rintro rfl
    exact ne (List.forall₂_nil_right_iff.1 hitems')
  case closure =>
    intro params body b members pairs hb he
    refine ⟨standsFor_closure hb.standsFor (he.imp fun _ _ => Fixed.standsFor), fun hu y hy => ?_⟩
    obtain ⟨_, rfl, hall⟩ := hy.of_tagged
    obtain ⟨body', members', rfl, hbody, henv⟩ := reordered_function hall
    obtain ⟨moved, hmoved, hpairs⟩ := he.reordered (hu.item (by simp)) henv
    rw [← hpairs]
    exact standsFor_closure (hb.reordered (hu.item (by simp)) _ hbody) hmoved
  case fix =>
    intro name params body b members pairs hb he
    refine ⟨standsFor_fix name hb.standsFor (he.imp fun _ _ => Fixed.standsFor), fun hu y hy => ?_⟩
    obtain ⟨_, rfl, hall⟩ := hy.of_tagged
    obtain ⟨_, _, hname, hrest, rfl⟩ := List.forall₂_cons_left_iff.1 hall
    obtain rfl := hname.of_leaf (by simp) (by simp)
    obtain ⟨body', members', rfl, hbody, henv⟩ := reordered_function hrest
    obtain ⟨moved, hmoved, hpairs⟩ := he.reordered (hu.item (by simp)) henv
    rw [← hpairs]
    exact standsFor_fix name (hb.reordered (hu.item (by simp)) _ hbody) hmoved

/-! ## Names that are ambiguous -/

/-- Every order of the members stands for one value. -/
def Steady (x : Json) (v : Value) : Prop :=
  ∀ y w, Reordered x y → StandsFor y w → w = v

/-- A tree that stands for one value in any order of its members is unambiguous. -/
structure Settling (x : Json) (v : Value) : Prop where
  standsFor : StandsFor x v
  unambiguous : Steady x v → Unambiguous x

theorem chain_injective (vs : List Value) : Function.Injective (chain vs) := by
  induction vs with
  | nil => exact fun _ _ h => h
  | cons v vs ih => exact fun _ _ h => ih (Value.cons.inj h).2

theorem chain_append (vs ws : List Value) (w : Value) :
    chain (vs ++ ws) w = chain vs (chain ws w) :=
  List.foldr_append

/-- A list that is related to another one is cut where an item of the other one stands. -/
theorem exists_split {α β : Type} {R : α → β → Prop} {as : List α} {bs : List β} {a : α}
    (h : List.Forall₂ R as bs) (ha : a ∈ as) : ∃ before after front b back,
      as = before ++ a :: after ∧ bs = front ++ b :: back ∧ List.Forall₂ R before front ∧
        R a b ∧ List.Forall₂ R after back := by
  induction h with
  | nil => exact absurd ha List.not_mem_nil
  | @cons a' b' _ _ hab h ih =>
    rcases List.mem_cons.1 ha with rfl | ha
    · exact ⟨[], _, [], _, _, rfl, rfl, .nil, hab, h⟩
    · obtain ⟨before, after, front, b, back, rfl, rfl, hbefore, hb, hafter⟩ := ih ha
      exact ⟨a' :: before, after, b' :: front, b, back, rfl, rfl, .cons hab hbefore, hb, hafter⟩

section

variable {members : List (String × Json)} {pairs : List (String × Value)}

/-- Every order of the members makes up one environment. -/
def SteadyScope (members : List (String × Json)) (pairs : List (String × Value)) : Prop :=
  ∀ ms ps, Reordered (.obj members) (.obj ms) → Bound StandsFor ms ps →
    Env.ofPairs ps = Env.ofPairs pairs

/-- Any member can be put last, with its value in another order, and then it counts. -/
theorem Bound.find?_of_steady (hb : Bound Settling members pairs)
    (hsteady : SteadyScope members pairs) {p : String × Json} (hp : p ∈ members) {y : Json}
    {w : Value} (h : Reordered p.2 y) (hy : StandsFor y w) :
    Keyed.find? (Text.normalize p.1) (Env.ofPairs pairs) = some w := by
  obtain ⟨before, after, front, q, back, rfl, rfl, hbefore, hq, hafter⟩ := exists_split hb hp
  have hmember := Reordered.member before after p.1 h
  have hlast : (before ++ (p.1, y) :: after).Perm (before ++ after ++ [(p.1, y)]) :=
    List.perm_middle.trans (List.perm_append_singleton _ _).symm
  have plain : ∀ {ms : List (String × Json)} {ps : List (String × Value)},
      Bound Settling ms ps → Bound StandsFor ms ps := fun hb => hb.imp fun _ _ => Settling.standsFor
  have hbound : Bound StandsFor (before ++ after ++ [(p.1, y)]) (front ++ back ++ [(p.1, w)]) :=
    List.rel_append (List.rel_append (plain hbefore) (plain hafter)) (.cons ⟨rfl, hy⟩ .nil)
  rw [← hsteady _ _ (hmember.trans (.members hlast)) hbound]
  exact Env.find?_ofPairs_concat _ _ _

theorem Bound.unambiguous (hb : Bound Settling members pairs)
    (hsteady : SteadyScope members pairs) : Unambiguous (.obj members) := by
  intro ms hms p hp q hq hpq v hv
  rcases within_obj.1 hms with heq | ⟨m, hm, hms⟩
  · cases heq
    obtain ⟨r, _, _, hr⟩ := exists_of_forall₂_left hb q hq
    have hfind := hb.find?_of_steady hsteady hp (.refl _) hv
    rw [hpq, hb.find?_of_steady hsteady hq (.refl _) hr.standsFor] at hfind
    exact Option.some.inj hfind ▸ hr.standsFor
  · obtain ⟨r, _, _, hr⟩ := exists_of_forall₂_left hb m hm
    refine hr.unambiguous (fun y w hy hw => ?_) ms hms p hp q hq hpq v hv
    have hfind := hb.find?_of_steady hsteady hm hy hw
    rw [hb.find?_of_steady hsteady hm (.refl _) hr.standsFor] at hfind
    exact (Option.some.inj hfind).symm

end

theorem unambiguous_arr {items : List Json} (h : ∀ x ∈ items, Unambiguous x) :
    Unambiguous (.arr items) := by
  intro members hm
  rcases within_arr.1 hm with heq | ⟨x, hx, hm⟩
  · cases heq
  · exact h x hx members hm

theorem unambiguous_leaf {x : Json} (ha : ∀ items, x ≠ .arr items)
    (ho : ∀ members, x ≠ .obj members) : Unambiguous x := by
  intro members hm
  exact absurd ((within_iff_eq ha ho).1 hm).symm (ho members)

theorem unambiguous_namesJson (names : List String) : Unambiguous (namesJson names) :=
  unambiguous_arr (List.forall_mem_map.2 fun _ _ => unambiguous_leaf (by simp) (by simp))

theorem settling_of_decodeAt {path : String} {x : Json} {v : Value}
    (h : decodeAt path x = .ok v) : Settling x v := by
  have leaves : ∀ {items : List Json} {v : Value}, StandsFor (.arr items) v →
      (∀ x ∈ items, (∀ xs, x ≠ .arr xs) ∧ ∀ ms, x ≠ .obj ms) → Settling (.arr items) v :=
    fun h hleaf => ⟨h, fun _ => unambiguous_arr fun x hx =>
      unambiguous_leaf (hleaf x hx).1 (hleaf x hx).2⟩
  have tagged : ∀ {tag : String} {items : List Json}, (∀ x ∈ items, Unambiguous x) →
      Unambiguous (.arr (.str tag :: items)) := fun h =>
    unambiguous_arr (List.forall_mem_cons.2 ⟨unambiguous_leaf (by simp) (by simp), h⟩)
  refine decodeAt_induction ?num ?sym ?str ?nil ?cons ?closure ?fix h
  case num => exact fun n => leaves (fun path => by rw [decodeAt]) (by simp)
  case sym => exact fun name => leaves (fun path => by rw [decodeAt]) (by simp)
  case str => exact fun s => leaves (fun path => by rw [decodeAt]) (by simp)
  case nil => exact leaves (fun path => by rw [decodeAt]) (by simp)
  case cons =>
    intro items vs last w ne hitems hlast hw
    have hvs : List.Forall₂ StandsFor items vs := hitems.imp fun _ _ hx => hx.standsFor
    refine ⟨standsFor_cons ne hvs hlast.standsFor hw, fun hsteady => tagged ?_⟩
    refine List.forall_mem_cons.2 ⟨unambiguous_arr fun x hx => ?_, List.forall_mem_singleton.2 ?_⟩
    · obtain ⟨before, after, front, v, back, rfl, rfl, hbefore, hv, hafter⟩ :=
        exists_split hitems hx
      refine hv.unambiguous fun y u hy hu => ?_
      have hothers : List.Forall₂ StandsFor (before ++ y :: after) (front ++ u :: back) :=
        List.rel_append (hbefore.imp fun _ _ hx => hx.standsFor)
          (.cons hu (hafter.imp fun _ _ hx => hx.standsFor))
      have heq := hsteady _ _ (.item [.str "cons"] [last] (.item before after hy))
        (standsFor_cons (by simp) hothers hlast.standsFor hw)
      rw [chain_append, chain_append] at heq
      exact (Value.cons.inj (chain_injective front heq)).1
    · refine hlast.unambiguous fun y u hy hu => ?_
      obtain ⟨hshape, hpair⟩ := decoded "" last w (hlast.standsFor "")
      have hu' : u.isCons = false := by
        rw [(decoded "" y u (hu "")).2, hshape.isPair_reordered hy, ← hpair, hw]
      exact chain_injective vs (hsteady _ _ (.item [.str "cons", .arr items] [] hy)
        (standsFor_cons ne hvs hu hu'))
  case closure =>
    intro params body b members pairs hb he
    have hbound : Bound StandsFor members pairs := he.imp fun _ _ => Settling.standsFor
    refine ⟨standsFor_closure hb.standsFor hbound, fun hsteady => tagged ?_⟩
    refine List.forall_mem_cons.2 ⟨unambiguous_namesJson params, List.forall_mem_cons.2
      ⟨hb.unambiguous fun y u hy hu => ?_, List.forall_mem_singleton.2 ?_⟩⟩
    · have heq := hsteady _ _ (.item [.str "fun", namesJson params] [.obj members] hy)
        (standsFor_closure hu hbound)
      exact (Value.closure.inj heq).2.1
    · refine he.unambiguous fun ms ps hms hps => ?_
      have heq := hsteady _ _ (.item [.str "fun", namesJson params, body] [] hms)
        (standsFor_closure hb.standsFor hps)
      exact (Value.closure.inj heq).2.2
  case fix =>
    intro name params body b members pairs hb he
    have hbound : Bound StandsFor members pairs := he.imp fun _ _ => Settling.standsFor
    refine ⟨standsFor_fix name hb.standsFor hbound, fun hsteady => tagged ?_⟩
    refine List.forall_mem_cons.2 ⟨unambiguous_leaf (by simp) (by simp), List.forall_mem_cons.2
      ⟨unambiguous_namesJson params, List.forall_mem_cons.2
        ⟨hb.unambiguous fun y u hy hu => ?_, List.forall_mem_singleton.2 ?_⟩⟩⟩
    · have heq := hsteady _ _ (.item [.str "fix", .str name, namesJson params] [.obj members] hy)
        (standsFor_fix name hu hbound)
      exact (Value.fix.inj heq).2.2.1
    · refine he.unambiguous fun ms ps hms hps => ?_
      have heq := hsteady _ _ (.item [.str "fix", .str name, namesJson params, body] [] hms)
        (standsFor_fix name hb.standsFor hps)
      exact (Value.fix.inj heq).2.2.2

/-! ## The main result -/

/-- Decoding ends with an error of serialization. -/
def FailsToDecode (x : Json) : Prop :=
  ∃ e, orFail .serialization (decode x) = .error e ∧ e.kind = .engine .serialization

/-- Neither of two trees can be decoded, or both stand for one value. -/
def Alike (x y : Json) : Prop :=
  (FailsToDecode x ∧ FailsToDecode y) ∨ ∃ v, decode x = .ok v ∧ decode y = .ok v

theorem failsToDecode_iff {x : Json} : FailsToDecode x ↔ ¬∃ v, decode x = .ok v := by
  rw [FailsToDecode]
  cases decode x with
  | ok v => simp [orFail]
  | error fault => simp [orFail, Failure.kind, Failure.message?, Failure.statedKind]

theorem exists_decode_iff {x : Json} :
    (∃ v, decode x = .ok v) ↔ x.depth ≤ nestingLimit ∧ Shape x := by
  simp only [decode_eq_ok, exists_and_left, exists_decodeAt_iff]

theorem exists_decode_reordered {x y : Json} (h : Reordered x y) :
    (∃ v, decode x = .ok v) ↔ ∃ v, decode y = .ok v := by
  rw [exists_decode_iff, exists_decode_iff, h.depth_eq]
  exact and_congr_right fun _ => ⟨fun hx => hx.reordered h, fun hy => hy.reordered h.symm⟩

theorem alike_of_unambiguous {x y : Json} (hu : ∀ v, decode x = .ok v → Unambiguous x)
    (h : Reordered x y) : Alike x y := by
  by_cases hx : ∃ v, decode x = .ok v
  · obtain ⟨v, hv⟩ := hx
    obtain ⟨hdepth, hvalue⟩ := decode_eq_ok.1 hv
    have hy := (fixed_of_decodeAt hvalue).reordered (hu v hv) y h
    exact .inr ⟨v, hv, decode_eq_ok.2 ⟨h.depth_eq ▸ hdepth, hy "$"⟩⟩
  · have hy := mt (exists_decode_reordered h).2 hx
    exact .inl ⟨failsToDecode_iff.2 hx, failsToDecode_iff.2 hy⟩

theorem unambiguous_of_alike {x : Json} (h : ∀ y, Reordered x y → Alike x y) {v : Value}
    (hv : decode x = .ok v) : Unambiguous x := by
  obtain ⟨hdepth, hvalue⟩ := decode_eq_ok.1 hv
  refine (settling_of_decodeAt hvalue).unambiguous fun y w hy hw => ?_
  have hdecode : decode y = .ok w := decode_eq_ok.2 ⟨hy.depth_eq ▸ hdepth, hw "$"⟩
  obtain ⟨hfails, _⟩ | ⟨u, hxu, hyu⟩ := h y hy
  · exact absurd ⟨v, hv⟩ (failsToDecode_iff.1 hfails)
  · exact Except.ok.inj (hdecode.symm.trans (hyu.trans (hxu.symm.trans hv)))

/-- Trees that are alike are restored alike. -/
theorem Alike.restore_eq {x y : Json} (h : Alike x y) {ω : Type} (s : Payloads ω × ω) :
    Payloads.restore x s = Payloads.restore y s ∨ ∃ e f,
      Payloads.restore x s = (.error e, s) ∧ Payloads.restore y s = (.error f, s) ∧
        e.kind = .engine .serialization ∧ f.kind = .engine .serialization := by
  obtain ⟨⟨e, he, hekind⟩, f, hf, hfkind⟩ | ⟨v, hx, hy⟩ := h
  · refine .inr ⟨e, f, ?_, ?_, hekind, hfkind⟩
    · rw [Payloads.restore, he]
      rfl
    · rw [Payloads.restore, hf]
      rfl
  · exact .inl ((Payloads.restore_eq hx s).trans (Payloads.restore_eq hy s).symm)

/-- Whether a tree can be decoded does not depend on the order of members.  Every order is decoded
to the same value exactly if members whose names have one normal form stand for one value, and it is
then restored under the same commitment.  That is so if no two names of an object have one normal
form. -/
theorem decode_reordered_iff (x : Json) :
    (∀ y, Reordered x y → (FailsToDecode x ∧ FailsToDecode y) ∨
      ∃ v w, decode x = .ok v ∧ decode y = .ok w) ∧
    ((∀ y, Reordered x y → Alike x y) ↔ ∀ v, decode x = .ok v → Unambiguous x) ∧
    ((∀ v, decode x = .ok v → Unambiguous x) → ∀ y, Reordered x y →
      ∀ {ω : Type} (s : Payloads ω × ω), Payloads.restore x s = Payloads.restore y s ∨ ∃ e f,
        Payloads.restore x s = (.error e, s) ∧ Payloads.restore y s = (.error f, s) ∧
          e.kind = .engine .serialization ∧ f.kind = .engine .serialization) ∧
    ((∀ members, (Json.obj members).Within x →
      (members.map fun p => Text.normalize p.1).Nodup) → Unambiguous x) := by
  refine ⟨fun y h => ?_, ⟨fun h v hv => unambiguous_of_alike h hv,
    fun hu y h => alike_of_unambiguous hu h⟩, fun hu y h ω s => ?_, fun hnames => ?_⟩
  · by_cases hx : ∃ v, decode x = .ok v
    · obtain ⟨w, hw⟩ := (exists_decode_reordered h).1 hx
      obtain ⟨v, hv⟩ := hx
      exact .inr ⟨v, w, hv, hw⟩
    · have hy := mt (exists_decode_reordered h).2 hx
      exact .inl ⟨failsToDecode_iff.2 hx, failsToDecode_iff.2 hy⟩
  · exact (alike_of_unambiguous hu h).restore_eq s
  · intro members hm p hp q hq hpq v hv
    obtain rfl := List.inj_on_of_nodup_map (hnames members hm) hp hq hpq
    exact hv

/-- A function that looks a name up in an environment of these members. -/
def lookup (name : String) (members : List (String × Json)) : Json :=
  .arr [.str "fun", namesJson [], .arr [.str "sym", .str name], .obj members]

theorem decode_reordered_of_distinct :
    Unambiguous (lookup "x" [("x", .arr [.str "num", .int 1]), ("y", .arr [.str "nil"])]) ∧
    Alike (lookup "x" [("x", .arr [.str "num", .int 1]), ("y", .arr [.str "nil"])])
      (lookup "x" [("y", .arr [.str "nil"]), ("x", .arr [.str "num", .int 1])]) := by
  obtain ⟨_, hiff, _, hdistinct⟩ := decode_reordered_iff
    (lookup "x" [("x", .arr [.str "num", .int 1]), ("y", .arr [.str "nil"])])
  have hu := hdistinct fun members hm => by
    rcases within_arr.1 hm with heq | ⟨y, hy, hm⟩
    · cases heq
    · simp only [List.mem_cons, List.not_mem_nil, or_false] at hy
      rcases hy with rfl | rfl | rfl | rfl
      · cases hm
      · simp [within_arr, namesJson] at hm
      · simp [within_arr, within_iff_eq] at hm
      · simp [within_obj, within_arr, within_iff_eq] at hm
        subst hm
        decide
  exact ⟨hu, hiff.2 (fun v _ => hu) _ (.item [.str "fun", namesJson [],
    .arr [.str "sym", .str "x"]] [] (.members (.swap _ _ _)))⟩

/-- Two spellings of one name, with different values. -/
def spellings : List (String × Json) :=
  [("\u1100\u1161", .arr [.str "num", .int 1]), ("\uac00", .arr [.str "num", .int 2])]

theorem wellFormed_spellings : (lookup "\uac00" spellings).WellFormed := by
  have num : ∀ n : Int, (Json.arr [.str "num", .int n]).WellFormed := fun n => by
    refine .arr ?_
    simp only [List.forall_mem_cons, List.not_mem_nil, false_imp_iff, implies_true, and_true]
    exact ⟨.str _, .int n⟩
  refine .arr ?_
  simp only [List.forall_mem_cons, List.not_mem_nil, false_imp_iff, implies_true, and_true]
  refine ⟨.str _, .arr (by simp), .arr ?_, .obj (by decide) ?_⟩
  · simp only [List.forall_mem_cons, List.not_mem_nil, false_imp_iff, implies_true, and_true]
    exact ⟨.str _, .str _⟩
  · rw [spellings]
    simp only [List.forall_mem_cons, List.not_mem_nil, false_imp_iff, implies_true, and_true]
    exact ⟨num 1, num 2⟩

/-- The order of members shows in what such a tree is decoded to. -/
theorem not_decode_reordered :
    ¬∀ x y : Json, x.WellFormed → Reordered x y → Alike x y := by
  intro h
  have hshape : Shape (lookup "\uac00" spellings) := by
    refine .closure [] (.sym _) ?_
    rw [spellings]
    simp only [List.forall_mem_cons, List.not_mem_nil, false_imp_iff, implies_true, and_true]
    exact ⟨.num 1, .num 2⟩
  obtain ⟨v, hv⟩ := exists_decode_iff.2 ⟨by decide +kernel, hshape⟩
  have hu := unambiguous_of_alike (fun y => h _ y wellFormed_spellings) hv
  have hnames : Text.normalize "\u1100\u1161" = Text.normalize "\uac00" := by
    have hnormal := normalize_normalize "\u1100\u1161"
    rw [normalize_letters] at hnormal ⊢
    exact hnormal.symm
  have hone : StandsFor (.arr [.str "num", .int 1]) (.num 1) := fun path => by rw [decodeAt]
  have htwo : StandsFor (.arr [.str "num", .int 2]) (.num 2) := fun path => by rw [decodeAt]
  have hsame := hu spellings (.item (by simp) .self) (_, _) List.mem_cons_self (_, _)
    (List.mem_cons_of_mem _ List.mem_cons_self) hnames _ hone
  exact absurd (hsame.unique htwo) (by simp)

end Value

end CommitChain
