import LoopScript.Value.Equality

/-!
The order of values: numbers by size, strings by their characters, lists by their first difference.
Other pairs have no order.
-/

namespace LoopScript

def compareChars : List Char → List Char → Ordering
  | [], [] => .eq
  | [], _ :: _ => .lt
  | _ :: _, [] => .gt
  | a :: as, b :: bs => (compare a.val b.val).then (compareChars as bs)

/-- The first pair that differs decides, then the length. -/
def lexicographic {α : Type} (compare : α → α → Except Fault Ordering) :
    List α → List α → Except Fault Ordering
  | [], [] => .ok .eq
  | [], _ :: _ => .ok .lt
  | _ :: _, [] => .ok .gt
  | a :: as, b :: bs => do
    match ← compare a b with
    | .eq => lexicographic compare as bs
    | o => .ok o

/-- Neither atom is a container; two numbers or two strings have an order. -/
def Atom.compare? (a b : Atom) : Option Ordering :=
  match a.extended?, b.extended? with
  | some x, some y => some (x.compare y)
  | _, _ =>
    match a, b with
    | .str s, .str t => some (compareChars s.toList t.toList)
    | _, _ => Option.none

namespace Store

def compareWithin (s : Store) : Nat → List (Addr × Addr) → Value → Value → Except Fault Ordering
  | 0, _, _, _ => .error .endless
  | n + 1, met, v, w =>
    let refuse := .error (.of (.incomparable (s.typeName v) (s.typeName w)))
    match v, w with
    | .atom a, .atom b =>
      match a.compare? b with
      | some o => .ok o
      | none => refuse
    | .ref a, .ref b =>
      match s.read a, s.read b with
      | .list xs, .list ys =>
        if (a, b) ∈ met then .error .endless
        else lexicographic (s.compareWithin n ((a, b) :: met)) xs ys
      | _, _ => refuse
    | _, _ => refuse

theorem compareWithin_succ (s : Store) (n : Nat) (met : List (Addr × Addr)) (v w : Value) :
    s.compareWithin (n + 1) met v w =
      let refuse := .error (.of (.incomparable (s.typeName v) (s.typeName w)))
      match v, w with
      | .atom a, .atom b =>
        match a.compare? b with
        | some o => .ok o
        | none => refuse
      | .ref a, .ref b =>
        match s.read a, s.read b with
        | .list xs, .list ys =>
          if (a, b) ∈ met then .error .endless
          else lexicographic (s.compareWithin n ((a, b) :: met)) xs ys
        | _, _ => refuse
      | _, _ => refuse :=
  rfl

def compare (s : Store) (v w : Value) : Except Fault Ordering :=
  s.compareWithin s.pairLimit [] v w

end Store

end LoopScript
