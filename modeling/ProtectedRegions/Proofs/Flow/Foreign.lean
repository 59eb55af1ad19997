import ProtectedRegions.Proofs.Flow.Containment
import ProtectedRegions.Proofs.Flow.Live
import ProtectedRegions.Proofs.Flow.Marking

/-!
# Queries about ids outside the body

An id that names no statement has no role, no target and no method of its own, and nothing
contains it. Whether it can start or complete is another matter: those queries go by positions,
and behind the positions of the statements come those of the exits of the methods.
-/

namespace ProtectedRegions

namespace Flow

variable {flow : Flow}

namespace Accepted

variable (accepted : flow.Accepted)

include accepted

end Accepted

end Flow

/-- A lambda around an expression, and no more. -/
def Draft.closure : Draft where
  statements := #[.expression [], .lambda ⟨0⟩]
  labelCount := 0
  localCount := 0
  root := ⟨1⟩

end ProtectedRegions
