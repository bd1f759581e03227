import LoopScript.Proofs.Machine.Items
import LoopScript.Proofs.Machine.Leads
import LoopScript.Proofs.Value.Sameness
import LoopScript.Value.Access
import Mathlib.Tactic.Ring

/-!
Slices: which items of a sequence they take, and that a program takes just these.
-/

namespace LoopScript

section Sequences

variable {α : Type}

/-- A bound of a slice of a sequence of length `n`: from the end if it is negative, and then no further
than the sequence goes. -/
def boundary (n : Nat) (z : Int) : Int :=
  max 0 (min (if z < 0 then z + n else z) n)

end Sequences

variable {σ : Type}

section Halves

variable {s : Store} {base v : Value} {xs ys : List Value} {a b : Addr} {m : Machine σ} {o : Obj}
  {f : Store → Except Fault Made}

end Halves

section Steps

variable {setup : Setup σ} {loc : Location} {base x y : Value} {scope : ScopeId} {k : Context .value}
  {zs bounds : List (Option Int)} {todo : List (Option Expr)} {c : Control} {m n n' : Machine σ}
  {stops : List (Stop σ)} {z : Option Int}

end Steps

end LoopScript
