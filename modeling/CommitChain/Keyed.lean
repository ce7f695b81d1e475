/-!
# Lists of pairs with a text as key

Two ways to keep such a list without repeated keys.  `put` keeps the order in which keys came first,
and a key that comes again takes its new value where it stands.  `insert` keeps the keys in the
order of their code points.
-/

namespace CommitChain.Keyed

variable {α : Type}

/-- The value of a key. -/
def find? (key : String) : List (String × α) → Option α
  | [] => none
  | (k, v) :: r => if k = key then some v else find? key r

/-- The value of a key is replaced where it stands; a new key goes behind the others. -/
def put (key : String) (value : α) : List (String × α) → List (String × α)
  | [] => [(key, value)]
  | (k, v) :: r => if k = key then (k, value) :: r else (k, v) :: put key value r

/-- Each key once, in the order of first occurrence and with its last value. -/
def ofPairs (pairs : List (String × α)) : List (String × α) :=
  pairs.foldl (fun acc p => put p.1 p.2 acc) []

/-- Adds a key to a sorted list or replaces its value. -/
def insert (key : String) (value : α) : List (String × α) → List (String × α)
  | [] => [(key, value)]
  | (k, v) :: r =>
    if key = k then (key, value) :: r
    else if key < k then (key, value) :: (k, v) :: r
    else (k, v) :: insert key value r

/-- Each key once, in ascending order and with its last value. -/
def sorted (pairs : List (String × α)) : List (String × α) :=
  pairs.foldl (fun acc p => insert p.1 p.2 acc) []

/-- Keys in strictly ascending order. -/
def IsSorted (pairs : List (String × α)) : Prop :=
  (pairs.map Prod.fst).Pairwise (· < ·)

theorem find?_put (key other : String) (value : α) (pairs : List (String × α)) :
    find? other (put key value pairs) = if key = other then some value else find? other pairs := by
  induction pairs with
  | nil => simp [put, find?]
  | cons p r ih => by_cases h : p.1 = key <;> grind [put, find?]

theorem find?_insert (key other : String) (value : α) (pairs : List (String × α)) :
    find? other (insert key value pairs)
      = if key = other then some value else find? other pairs := by
  induction pairs with
  | nil => simp [insert, find?]
  | cons p r ih => grind [insert, find?]

theorem mem_keys_insert {key other : String} {value : α} {pairs : List (String × α)}
    (h : other ∈ (insert key value pairs).map Prod.fst) :
    other = key ∨ other ∈ pairs.map Prod.fst := by
  induction pairs with
  | nil => simpa [insert] using h
  | cons p r ih => grind [insert]

theorem isSorted_insert (key : String) (value : α) {pairs : List (String × α)}
    (h : IsSorted pairs) : IsSorted (insert key value pairs) := by
  induction pairs with
  | nil => simp [insert, IsSorted]
  | cons p r ih =>
    obtain ⟨k, v⟩ := p
    obtain ⟨hk, hr⟩ := List.pairwise_cons.1 h
    unfold insert
    split
    next e => exact e ▸ h
    next hne =>
      split
      next hlt =>
        refine List.pairwise_cons.2 ⟨fun other ho => ?_, h⟩
        rcases List.mem_cons.1 ho with rfl | ho
        · exact hlt
        · exact String.lt_trans hlt (hk other ho)
      next hge =>
        have hle : k ≤ key := String.not_lt.1 hge
        have hlt : k < key :=
          Decidable.not_not.1 fun hn => hne (String.le_antisymm (String.not_lt.1 hn) hle)
        refine List.pairwise_cons.2 ⟨fun other ho => ?_, ih hr⟩
        rcases mem_keys_insert ho with rfl | ho
        · exact hlt
        · exact hk other ho

theorem isSorted_sorted (pairs : List (String × α)) : IsSorted (sorted pairs) := by
  suffices h : ∀ acc : List (String × α), IsSorted acc →
      IsSorted (pairs.foldl (fun acc p => insert p.1 p.2 acc) acc) from h [] .nil
  induction pairs with
  | nil => exact fun acc h => h
  | cons p r ih => exact fun acc h => ih _ (isSorted_insert p.1 p.2 h)

end CommitChain.Keyed
