import CommitChain.Failure

/-!
# Actions

An action works on a state and succeeds or fails; what it did to the state before it failed stays
done.
-/

namespace CommitChain

/-- From a state to an outcome and the next state. -/
def Action (σ α : Type) : Type :=
  σ → Except Failure α × σ

namespace Action

variable {σ τ α β : Type}

def done (a : α) : Action σ α := fun s => (.ok a, s)

def andThen (x : Action σ α) (f : α → Action σ β) : Action σ β := fun s =>
  match x s with
  | (.ok a, s) => f a s
  | (.error e, s) => (.error e, s)

instance : Monad (Action σ) where
  pure := done
  bind := andThen

def fail (e : Failure) : Action σ α := fun s => (.error e, s)

/-- An outcome that does not touch the state. -/
def of (r : Except Failure α) : Action σ α := fun s => (r, s)

def state : Action σ σ := fun s => (.ok s, s)

def update (f : σ → σ) : Action σ Unit := fun s => (.ok (), f s)

/-- An action on a part of the state. -/
def on (part : σ → τ) (replace : σ → τ → σ) (x : Action τ α) : Action σ α := fun s =>
  let (r, t) := x (part s)
  (r, replace s t)

/-- Runs actions one after the other, up to the first that fails. -/
def all : List (Action σ Unit) → Action σ Unit
  | [] => done ()
  | x :: xs => x.andThen fun _ => all xs

end Action

end CommitChain
