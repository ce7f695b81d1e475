import CommitChain.Proofs.Language.FreeVariables
import CommitChain.Proofs.Reader
import CommitChain.Proofs.Text.Letters
import CommitChain.Proofs.Value.Pruned

/-!
# Source code

What is read from a text is *source*: it is made of atoms and pairs alone, and the name `nil` stands
in it for the value `nil` and never for a symbol (`Value.isSource_of_read`).  Functions and
suspended computations come about only when code is run.
-/

namespace CommitChain

open CommitChain.Text

namespace Value

/-- Code as it is read. -/
def IsSource : Value → Prop
  | num _ | str _ | nil => True
  | sym name => name ≠ "nil"
  | cons a b => IsSource a ∧ IsSource b
  | closure .. | fix .. | thunk .. => False

theorem isSource_ofList {xs : List Value} : (ofList xs).IsSource ↔ ∀ x ∈ xs, x.IsSource := by
  induction xs with
  | nil => exact iff_of_true trivial fun x hx => absurd hx List.not_mem_nil
  | cons x xs ih => exact (and_congr_right fun _ => ih).trans List.forall_mem_cons.symm

theorem isSource_bindingList {pairs : List (String × Value)} (h : (bindingList pairs).IsSource) :
    ∀ p ∈ pairs, p.2.IsSource := by
  intro p hp
  have hpair := isSource_ofList.1 h _ (List.mem_map_of_mem hp)
  exact isSource_ofList.1 hpair p.2 (by simp)

/-- There is nothing to drop in source code. -/
theorem IsSource.prune_eq : ∀ {v : Value}, v.IsSource → v.prune = v
  | num _, _ | sym _, _ | str _, _ | nil, _ => rfl
  | cons _ _, h => by rw [prune, h.1.prune_eq, h.2.prune_eq]

end Value

namespace Reader

/-- The name `nil` has one spelling, which the reader takes for the value. -/
theorem isSource_of_atomValue {lexeme : List Char} {offset : Nat} {v : Value}
    (h : atomValue lexeme offset = .ok v) : v.IsSource := by
  unfold atomValue at h
  split at h
  · dsimp only at h
    split at h
    · exact absurd h (by simp)
    · cases h
      exact trivial
  · split at h
    · cases h
      exact trivial
    next hnil =>
      cases h
      intro hname
      have hsmall : ∀ c ∈ "nil".toList, Normal.isSmall c.toNat = true :=
        List.all_eq_true.1 (by decide : ("nil".toList.all fun c => Normal.isSmall c.toNat) = true)
      rw [← hname] at hsmall
      have hlexeme := (eq_of_normalize_small hsmall).symm.trans hname
      exact hnil (String.toList_ofList.symm.trans (congrArg String.toList hlexeme))

theorem inherited_isSource : Inherited Value.IsSource where
  nil := trivial
  cons := And.intro
  quote := (by decide : "quote" ≠ "nil")
  string := by
    intro lexeme offset v h
    unfold stringValue at h
    split at h
    · cases h
      exact trivial
    · exact absurd h (by simp)
  atom := isSource_of_atomValue

end Reader

theorem Value.isSource_of_read {text : String} {v : Value} (h : read text = .ok v) : v.IsSource :=
  Reader.inherited_isSource.of_read h

end CommitChain
