import CommitChain.Keyed
import Mathlib.Data.List.Induction
import Mathlib.Data.List.Nodup

/-!
# Sorted lists of pairs

A list whose keys ascend is determined by its look-ups (`eq_of_find?_eq`), so two ways to build one
are compared key by key.
-/

namespace CommitChain.Keyed

variable {α β : Type}

theorem find?_eq_none_of_not_mem {key : String} {pairs : List (String × α)}
    (h : key ∉ pairs.map Prod.fst) : find? key pairs = none := by
  induction pairs with
  | nil => rfl
  | cons p r ih =>
    rw [List.map_cons, List.mem_cons, not_or] at h
    rw [find?, if_neg (Ne.symm h.1), ih h.2]

theorem mem_of_find? {key : String} {value : α} {pairs : List (String × α)}
    (h : find? key pairs = some value) : (key, value) ∈ pairs := by
  induction pairs with
  | nil => exact absurd h (by simp [find?])
  | cons p r ih =>
    obtain ⟨k, v⟩ := p
    rw [find?] at h
    split at h
    next hk =>
      cases hk
      cases h
      exact List.mem_cons_self
    next hk => exact List.mem_cons_of_mem _ (ih h)

theorem find?_of_mem {key : String} {value : α} {pairs : List (String × α)}
    (hn : (pairs.map Prod.fst).Nodup) (h : (key, value) ∈ pairs) :
    find? key pairs = some value := by
  induction pairs with
  | nil => exact absurd h List.not_mem_nil
  | cons p r ih =>
    obtain ⟨hp, hr⟩ := List.nodup_cons.1 hn
    rw [find?]
    rcases List.mem_cons.1 h with rfl | h
    · rw [if_pos rfl]
    · have hk : p.1 ≠ key := fun he => hp (List.mem_map.2 ⟨_, h, he.symm⟩)
      rw [if_neg hk, ih hr h]

/-- Look-ups of different keys do not depend on the order. -/
theorem find?_perm {a b : List (String × α)} (h : a.Perm b) (hn : (a.map Prod.fst).Nodup)
    (key : String) : find? key a = find? key b := by
  have hn' : (b.map Prod.fst).Nodup := (h.map Prod.fst).nodup_iff.1 hn
  refine Option.ext fun value => ⟨fun hv => ?_, fun hv => ?_⟩
  · exact find?_of_mem hn' (h.mem_iff.1 (mem_of_find? hv))
  · exact find?_of_mem hn (h.mem_iff.2 (mem_of_find? hv))

theorem mem_insert {key : String} {value : α} {q : String × α} {pairs : List (String × α)}
    (h : q ∈ insert key value pairs) : q = (key, value) ∨ q ∈ pairs := by
  induction pairs with
  | nil => simpa [insert] using h
  | cons p r ih => grind [insert]

theorem mem_put {key : String} {value : α} {q : String × α} {pairs : List (String × α)}
    (h : q ∈ put key value pairs) : q = (key, value) ∨ q ∈ pairs := by
  induction pairs with
  | nil => simpa [put] using h
  | cons p r ih => grind [put]

theorem mem_ofPairs {q : String × α} {pairs : List (String × α)} (h : q ∈ ofPairs pairs) :
    q ∈ pairs := by
  suffices hfold : ∀ acc : List (String × α),
      q ∈ pairs.foldl (fun acc p => put p.1 p.2 acc) acc → q ∈ acc ∨ q ∈ pairs from
    (hfold [] h).resolve_left List.not_mem_nil
  clear h
  induction pairs with
  | nil => exact fun acc h => .inl h
  | cons p r ih =>
    intro acc h
    rcases ih _ h with h | h
    · rcases mem_put h with rfl | h
      · exact .inr List.mem_cons_self
      · exact .inl h
    · exact .inr (List.mem_cons_of_mem _ h)

theorem mem_keys_put {key other : String} {value : α} {pairs : List (String × α)}
    (h : other ∈ (put key value pairs).map Prod.fst) :
    other = key ∨ other ∈ pairs.map Prod.fst := by
  obtain ⟨q, hq, rfl⟩ := List.mem_map.1 h
  rcases mem_put hq with rfl | hq
  · exact .inl rfl
  · exact .inr (List.mem_map_of_mem hq)

theorem nodup_keys_put {key : String} {value : α} {pairs : List (String × α)}
    (h : (pairs.map Prod.fst).Nodup) : ((put key value pairs).map Prod.fst).Nodup := by
  induction pairs with
  | nil => exact List.pairwise_singleton _ _
  | cons p r ih =>
    obtain ⟨hp, hr⟩ := List.nodup_cons.1 h
    rw [put]
    split
    next => exact h
    next hk =>
      refine List.nodup_cons.2 ⟨fun hm => ?_, ih hr⟩
      rcases mem_keys_put hm with he | hm
      · exact hk he
      · exact hp hm

/-- Of pairs with repeated keys each key is kept once. -/
theorem nodup_keys_ofPairs (pairs : List (String × α)) : ((ofPairs pairs).map Prod.fst).Nodup := by
  suffices hfold : ∀ acc : List (String × α), (acc.map Prod.fst).Nodup →
      ((pairs.foldl (fun acc p => put p.1 p.2 acc) acc).map Prod.fst).Nodup from
    hfold [] List.nodup_nil
  induction pairs with
  | nil => exact fun acc h => h
  | cons p r ih => exact fun acc h => ih _ (nodup_keys_put h)

theorem IsSorted.tail {p : String × α} {pairs : List (String × α)} (h : IsSorted (p :: pairs)) :
    IsSorted pairs :=
  (List.pairwise_cons.1 h).2

theorem IsSorted.head_lt {p q : String × α} {pairs : List (String × α)}
    (h : IsSorted (p :: pairs)) (hq : q ∈ pairs) : p.1 < q.1 :=
  (List.pairwise_cons.1 h).1 _ (List.mem_map_of_mem hq)

theorem IsSorted.find?_head {p : String × α} {pairs : List (String × α)}
    (h : IsSorted (p :: pairs)) : find? p.1 pairs = none := by
  refine find?_eq_none_of_not_mem fun hm => ?_
  obtain ⟨q, hq, he⟩ := List.mem_map.1 hm
  exact String.lt_irrefl _ (he ▸ h.head_lt hq)

theorem IsSorted.nodup_keys {pairs : List (String × α)} (h : IsSorted pairs) :
    (pairs.map Prod.fst).Nodup :=
  List.Pairwise.imp (S := (· ≠ ·)) (fun hlt he => String.lt_irrefl _ (he ▸ hlt)) h

theorem IsSorted.filter {pairs : List (String × α)} (h : IsSorted pairs)
    (keep : String × α → Bool) : IsSorted (pairs.filter keep) :=
  List.Pairwise.sublist (List.filter_sublist.map Prod.fst) h

/-- A sorted list is determined by its look-ups. -/
theorem eq_of_find?_eq : ∀ {a b : List (String × α)}, IsSorted a → IsSorted b →
    (∀ key, find? key a = find? key b) → a = b := by
  intro a
  induction a with
  | nil =>
    intro b _ _ h
    cases b with
    | nil => rfl
    | cons q s => exact absurd (h q.1) (by simp [find?])
  | cons p r ih =>
    intro b ha hb h
    cases b with
    | nil => exact absurd (h p.1) (by simp [find?])
    | cons q s =>
      have hkey : p.1 = q.1 := by
        by_contra hne
        have hp : find? p.1 s = some p.2 := by simpa [find?, Ne.symm hne] using (h p.1).symm
        have hq : find? q.1 r = some q.2 := by simpa [find?, hne] using h q.1
        exact String.lt_irrefl _
          (String.lt_trans (hb.head_lt (mem_of_find? hp)) (ha.head_lt (mem_of_find? hq)))
      have hvalue : p.2 = q.2 := by simpa [find?, hkey] using h p.1
      have hrest : r = s := by
        refine ih ha.tail hb.tail fun key => ?_
        by_cases hk : p.1 = key
        · rw [← hk, ha.find?_head, hkey, hb.find?_head]
        · simpa [find?, hk, ← hkey] using h key
      rw [Prod.ext hkey hvalue, hrest]

/-! ## Sorting -/

theorem mem_sorted {q : String × α} {pairs : List (String × α)} (h : q ∈ sorted pairs) :
    q ∈ pairs := by
  suffices hfold : ∀ acc : List (String × α),
      q ∈ pairs.foldl (fun acc p => insert p.1 p.2 acc) acc → q ∈ acc ∨ q ∈ pairs from
    (hfold [] h).resolve_left List.not_mem_nil
  clear h
  induction pairs with
  | nil => exact fun acc h => .inl h
  | cons p r ih =>
    intro acc h
    rcases ih _ h with h | h
    · rcases mem_insert h with rfl | h
      · exact .inr List.mem_cons_self
      · exact .inl h
    · exact .inr (List.mem_cons_of_mem _ h)

/-- Sorting pairs with different keys changes no look-up. -/
theorem find?_sorted {pairs : List (String × α)} (h : (pairs.map Prod.fst).Nodup) (key : String) :
    find? key (sorted pairs) = find? key pairs := by
  suffices hfold : ∀ acc : List (String × α),
      find? key (pairs.foldl (fun acc p => insert p.1 p.2 acc) acc)
        = (find? key pairs).or (find? key acc) by
    exact (hfold []).trans (Option.or_none)
  induction pairs with
  | nil => exact fun acc => rfl
  | cons p r ih =>
    obtain ⟨hp, hr⟩ := List.nodup_cons.1 h
    intro acc
    rw [List.foldl_cons, ih hr, find?_insert, find?]
    by_cases hk : p.1 = key
    · have hn : find? key r = none := find?_eq_none_of_not_mem (hk ▸ hp)
      rw [if_pos hk, if_pos hk, hn]
      rfl
    · rw [if_neg hk, if_neg hk]

theorem sorted_concat (pairs : List (String × α)) (key : String) (value : α) :
    sorted (pairs ++ [(key, value)]) = insert key value (sorted pairs) := by
  rw [sorted, List.foldl_append]
  rfl

/-- A key that has one value only keeps it. -/
theorem find?_sorted_of_mem {key : String} {value : α} {pairs : List (String × α)}
    (h : (key, value) ∈ pairs) (hone : ∀ other, (key, other) ∈ pairs → other = value) :
    find? key (sorted pairs) = some value := by
  induction pairs using List.reverseRecOn with
  | nil => exact absurd h List.not_mem_nil
  | append_singleton pairs p ih =>
    obtain ⟨k, v⟩ := p
    rw [sorted_concat, find?_insert]
    split
    next hk =>
      subst hk
      exact congrArg some (hone v (by simp))
    next hk =>
      have hmem : (key, value) ∈ pairs := by simpa [Ne.symm hk] using h
      exact ih hmem fun other ho => hone other (List.mem_append_left _ ho)

/-- Where equal keys have equal values, the order of the pairs does not matter. -/
theorem sorted_eq_of_perm {a b : List (String × α)} (h : a.Perm b)
    (hone : ∀ p ∈ a, ∀ q ∈ a, p.1 = q.1 → p.2 = q.2) : sorted a = sorted b := by
  have hfind : ∀ {a b : List (String × α)}, a.Perm b →
      (∀ p ∈ a, ∀ q ∈ a, p.1 = q.1 → p.2 = q.2) → ∀ {key value},
      find? key (sorted a) = some value → find? key (sorted b) = some value := by
    intro a b h hone key value hv
    have hmem := mem_sorted (mem_of_find? hv)
    exact find?_sorted_of_mem (h.mem_iff.1 hmem) fun other ho =>
      hone _ (h.mem_iff.2 ho) _ hmem rfl
  have hone' : ∀ p ∈ b, ∀ q ∈ b, p.1 = q.1 → p.2 = q.2 := fun p hp q hq =>
    hone p (h.mem_iff.2 hp) q (h.mem_iff.2 hq)
  refine eq_of_find?_eq (isSorted_sorted a) (isSorted_sorted b) fun key => ?_
  exact Option.ext fun value => ⟨hfind h hone, hfind h.symm hone'⟩

/-- Lists with different keys and the same look-ups differ in their order only. -/
theorem perm_of_find? {a b : List (String × α)} (ha : (a.map Prod.fst).Nodup)
    (hb : (b.map Prod.fst).Nodup) (h : ∀ key, find? key a = find? key b) : a.Perm b := by
  refine (List.perm_ext_iff_of_nodup (List.Nodup.of_map _ ha) (List.Nodup.of_map _ hb)).2
    fun p => ⟨fun hp => ?_, fun hp => ?_⟩
  · exact mem_of_find? ((h p.1).symm.trans (find?_of_mem ha hp))
  · exact mem_of_find? ((h p.1).trans (find?_of_mem hb hp))

theorem sorted_perm {pairs : List (String × α)} (h : (pairs.map Prod.fst).Nodup) :
    (sorted pairs).Perm pairs :=
  perm_of_find? (isSorted_sorted pairs).nodup_keys h (find?_sorted h)

theorem IsSorted.sorted_eq {pairs : List (String × α)} (h : IsSorted pairs) :
    sorted pairs = pairs :=
  eq_of_find?_eq (isSorted_sorted pairs) h (find?_sorted h.nodup_keys)

end CommitChain.Keyed
