import CommitChain.Action

/-!
# Append-only stores

A store holds entries in the order in which they came.  An entry is never replaced: other content
under a key that is taken is a conflict, and the same content changes nothing.  Listeners hear of
each new entry after it is in; they act on a world of their own, and one that fails makes the
insertion fail without taking the entry out again.
-/

namespace CommitChain

structure Store (ω κ ν : Type) where
  entries : List (κ × ν)
  listeners : List (κ → ν → Action ω Unit)

namespace Store

variable {ω κ ν : Type} [DecidableEq κ]

def empty : Store ω κ ν := ⟨[], []⟩

/-- The value of a key in a list of entries. -/
def findEntry? (key : κ) : List (κ × ν) → Option ν
  | [] => none
  | (k, v) :: r => if k = key then some v else findEntry? key r

def find? (s : Store ω κ ν) (key : κ) : Option ν :=
  findEntry? key s.entries

def contains (s : Store ω κ ν) (key : κ) : Bool :=
  (s.find? key).isSome

def size (s : Store ω κ ν) : Nat :=
  s.entries.length

def keys (s : Store ω κ ν) : List κ :=
  s.entries.map Prod.fst

def subscribe (s : Store ω κ ν) (listener : κ → ν → Action ω Unit) : Store ω κ ν :=
  { s with listeners := s.listeners ++ [listener] }

/-- Lets the listeners hear of an entry. -/
def announce (s : Store ω κ ν) (key : κ) (value : ν) : Action ω Unit :=
  Action.all (s.listeners.map fun listener => listener key value)

/-- Offers an entry and tells whether it is new.  `same` compares two values, and `describe` names
the key in a conflict. -/
def put (describe : κ → String) (same : ν → ν → Except Failure Bool) (key : κ) (value : ν) :
    Action (Store ω κ ν × ω) Bool := fun (s, world) =>
  match s.find? key with
  | some existing =>
    match same existing value with
    | .error e => (.error e, s, world)
    | .ok true => (.ok false, s, world)
    | .ok false => (.error (.storeConflict (describe key)), s, world)
  | none =>
    let (r, world) := s.announce key value world
    (r.map fun _ => true, { s with entries := s.entries ++ [(key, value)] }, world)

/-- Puts an entry in the place of another or behind all. -/
def replaceEntry (key : κ) (value : ν) : List (κ × ν) → List (κ × ν)
  | [] => [(key, value)]
  | (k, v) :: r => if k = key then (k, value) :: r else (k, v) :: replaceEntry key value r

/-- What damage to the memory can do: an entry holds something else. -/
def overwrite (s : Store ω κ ν) (key : κ) (value : ν) : Store ω κ ν :=
  { s with entries := replaceEntry key value s.entries }

/-- What damage to the memory can do: an entry is gone. -/
def forget (s : Store ω κ ν) (key : κ) : Store ω κ ν :=
  { s with entries := s.entries.filter fun p => p.1 ≠ key }

end Store

end CommitChain
