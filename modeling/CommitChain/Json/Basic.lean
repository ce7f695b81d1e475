import CommitChain.Keyed
import CommitChain.Number.Binary64

/-!
# JSON trees

A number without point and exponent is an integer of any size, every other number a `Binary64`; the
numbers `NaN`, `Infinity` and `-Infinity` exist too.  The members of an object keep their order and
have different names.
-/

namespace CommitChain

inductive Json where
  | null
  | bool (b : Bool)
  | int (n : Int)
  | float (x : Binary64)
  | str (s : String)
  | arr (items : List Json)
  | obj (members : List (String × Json))

namespace Json

instance : Inhabited Json := ⟨null⟩

/-- An object from pairs in which a name may come more than once; its last value counts. -/
def object (pairs : List (String × Json)) : Json :=
  obj (Keyed.ofPairs pairs)

/-- The member of an object. -/
def member? (name : String) : Json → Option Json
  | obj members => Keyed.find? name members
  | _ => none

/-- An optional text, with `null` for none. -/
def ofText? : Option String → Json
  | none => null
  | some s => str s

/-- Arrays and objects may be nested this deep in the tree of a value. -/
def nestingLimit : Nat := 1000

/-- Arrays and objects may be nested this deep in a text, which leaves room for what stands around
the trees of values. -/
def textNestingLimit : Nat := 2000

mutual

/-- The number of arrays and objects around the innermost part. -/
def depth : Json → Nat
  | arr items => depthItems items + 1
  | obj members => depthMembers members + 1
  | _ => 0

def depthItems : List Json → Nat
  | [] => 0
  | x :: xs => max (depth x) (depthItems xs)

def depthMembers : List (String × Json) → Nat
  | [] => 0
  | (_, x) :: xs => max (depth x) (depthMembers xs)

end

/-- The integer that a number is; truth values count as one and zero. -/
def number? : Json → Option (Int ⊕ Binary64)
  | bool b => some (.inl (if b then 1 else 0))
  | int n => some (.inl n)
  | float x => some (match x.toInt? with | some n => .inl n | none => .inr x)
  | _ => none

/-- Equality of two numbers by value. -/
def sameNumber : Int ⊕ Binary64 → Int ⊕ Binary64 → Bool
  | .inl m, .inl n => m == n
  | .inr x, .inr y => x.same y
  | _, _ => false

mutual

/-- Equality by value: numbers are equal as numbers, and the order of members does not count. -/
def same : Json → Json → Bool
  | arr xs, arr ys => sameItems xs ys
  | obj ms, obj ns => ms.length == ns.length && sameMembers ms ns
  | null, null => true
  | str s, str t => s == t
  | x, y =>
    match number? x, number? y with
    | some m, some n => sameNumber m n
    | _, _ => false

def sameItems : List Json → List Json → Bool
  | [], [] => true
  | x :: xs, y :: ys => same x y && sameItems xs ys
  | _, _ => false

/-- Whether each member has an equal in the other object. -/
def sameMembers : List (String × Json) → List (String × Json) → Bool
  | [], _ => true
  | (k, x) :: xs, ns =>
    (match Keyed.find? k ns with
      | some y => same x y
      | none => false)
    && sameMembers xs ns

end

end Json

end CommitChain
