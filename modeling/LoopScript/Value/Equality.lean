import LoopScript.Fault
import LoopScript.Value
import LoopScript.Value.Number

/-!
Equality of values. Atoms are equal by value, lists and dictionaries by content, and all other
objects only to themselves.
-/

namespace LoopScript

namespace Value

/-- Equality of keys, and of all values that are no containers. -/
def sameKey : Value → Value → Bool
  | .atom a, .atom b => a.same b
  | .ref a, .ref b => a == b
  | _, _ => false

instance : BEq Value := ⟨sameKey⟩

end Value

/-- Whether every pair satisfies the test, up to the first that does not. -/
def allPairs {α β : Type} (test : α → β → Except Fault Bool) : List α → List β → Except Fault Bool
  | a :: as, b :: bs => do if ← test a b then allPairs test as bs else .ok false
  | _, _ => .ok true

namespace Store

/-- Equality of two values. `met` holds the pairs of containers on the way to them: one that is met
again would be compared for ever. -/
def equalWithin (s : Store) : Nat → List (Addr × Addr) → Value → Value → Except Fault Bool
  | 0, _, _, _ => .error .endless
  | n + 1, met, v, w =>
    match v, w with
    | .ref a, .ref b =>
      if a == b then .ok true
      else match s.read a, s.read b with
        | .list xs, .list ys =>
          if xs.length ≠ ys.length then .ok false
          else if (a, b) ∈ met then .error .endless
          else allPairs (s.equalWithin n ((a, b) :: met)) xs ys
        | .dict es, .dict fs =>
          if es.length ≠ fs.length then .ok false
          else if (a, b) ∈ met then .error .endless
          else es.foldlM (fun same (k, x) =>
            if same then
              match fs.get? k with
              | none => .ok false
              | some y => s.equalWithin n ((a, b) :: met) x y
            else .ok false) true
        | _, _ => .ok false
    | v, w => .ok (v == w)

def pairLimit (s : Store) : Nat :=
  (s.objects.size + 1) * (s.objects.size + 1) + 1

def equal (s : Store) (v w : Value) : Except Fault Bool :=
  s.equalWithin s.pairLimit [] v w

/-- Identity: atoms other than numbers of different kinds are told apart by kind. -/
def identical (v w : Value) : Bool :=
  match v, w with
  | .none, .none => true
  | .bool a, .bool b => a == b
  | .bool _, _ => false
  | _, .bool _ => false
  | v, w => v == w

end Store

end LoopScript
