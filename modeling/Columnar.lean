import Columnar.Column.Render
import Columnar.Proofs.Bits.Edit
import Columnar.Proofs.Builder.Atomic
import Columnar.Proofs.Builder.Finish
import Columnar.Proofs.Builder.Overflow
import Columnar.Proofs.Builder.Scalars
import Columnar.Proofs.Column.Inner
import Columnar.Proofs.Column.Lengths
import Columnar.Proofs.Select.Answer
import Columnar.Proofs.Select.Laws
import Columnar.Proofs.Select.Precedence
import Columnar.Proofs.Select.Reservation
import Columnar.Proofs.Select.Rows
import Columnar.Proofs.Select.Slice
import Columnar.Proofs.View
