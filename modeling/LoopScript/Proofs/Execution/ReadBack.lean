import LoopScript.Proofs.Execution.Failures
import LoopScript.Proofs.Execution.Sameness
import LoopScript.Proofs.Machine.ReadBack

/-!
Programs read what they write. The exception is a name that was declared global and is bound in a
scope nearer than the root, too: what is assigned to it goes to the root.
-/

namespace LoopScript

variable {σ : Type}

end LoopScript
