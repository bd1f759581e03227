import LoopScript.Value.Bits
import LoopScript.Value.Convert
import LoopScript.Value.Order

/-!
What operators do with values.
-/

namespace LoopScript

namespace Arithmetic

/-- The quotient without its fraction. -/
def divide (a b : Float) : Except Fault Float :=
  if b == 0 then .error (.of .divisionByZero)
  else
    let q := a / b
    if Decimal.classOf q = .finite then floatOfInt (Decimal.truncate (Decimal.exact q)) else .ok q

/-- A power of finite numbers must be finite. -/
def power (a b : Float) : Except Fault Float :=
  let r := a ^ b
  if Decimal.classOf a ≠ .finite ∨ Decimal.classOf b ≠ .finite then .ok r
  else match Decimal.classOf r with
    | .finite => .ok r
    | .nan => .error (.of (.invalidPower (Decimal.display a) (Decimal.display b)))
    | .infinite =>
      if a == 0 then .error (.of (.invalidPower (Decimal.display a) (Decimal.display b)))
      else .error (.of (.overflow "**"))

/-- The remainder has the sign of the dividend, also when it is zero. -/
def remainder (a b : Int) : Except Fault Float :=
  if b = 0 then .error (.of .moduloByZero)
  else if a < 0 ∧ a.tmod b = 0 then .ok (-0.0)
  else floatOfInt (a.tmod b)

def shift (op : BinaryOp) (a b : Int) : Except Fault Float :=
  if b < 0 then .error (.of (.negativeShift op.text))
  else
    let shifted :=
      if op = .shiftLeft then Bits.shiftLeft? a b.toNat else some (Bits.shiftRight a b.toNat)
    match shifted.bind Decimal.ofInt? with
    | some x => .ok x
    | none => .error (.of (.overflow op.text))

end Arithmetic

def occursIn (needle : List Char) : List Char → Bool
  | [] => needle.isEmpty
  | c :: cs => needle.isPrefixOf (c :: cs) || occursIn needle cs

namespace Store

def refuseOperands (s : Store) {α : Type} (op : BinaryOp) (v w : Value) : Except Fault α :=
  .error (.of (.operands op.text (s.typeName v) (s.typeName w)))

/-- Applies a function to two numbers, as floats. -/
def onFloats (s : Store) (op : BinaryOp) (f : Float → Float → Except Fault Float) (v w : Value) :
    Except Fault Value :=
  match float? v, float? w with
  | some a, some b => do
    let a ← a
    let b ← b
    .ok (.num (← f a b))
  | _, _ => s.refuseOperands op v w

/-- Applies a function to the whole parts of two numbers. -/
def onInts (s : Store) (op : BinaryOp) (f : Int → Int → Except Fault Float) (v w : Value) :
    Except Fault Value :=
  if isNumber v && isNumber w then do
    let a ← s.toInt v op.text
    let b ← s.toInt w op.text
    .ok (.num (← f a b))
  else s.refuseOperands op v w

/-- Whether a container holds a value: a list one of its items, a dictionary one of its keys, a
string a part of itself. -/
def holds (s : Store) (container item : Value) : Except Fault Bool :=
  match container, s.object? container with
  | _, some (.list xs) =>
    xs.foldlM (fun found x => if found then .ok true else s.equal x item) false
  | _, some (.dict es) => do
    s.requireKey item
    .ok (es.has item)
  | .str t, _ =>
    match item with
    | .str u => .ok (occursIn u.toList t.toList)
    | item => .error (.of (.notInString (s.typeName item)))
  | container, _ => .error (.of (.notContainer (s.typeName container)))

/-- The sum of two numbers, or the concatenation of two strings or lists. -/
def plus (s : Store) (v w : Value) : Except Fault Made :=
  match v, w with
  | .str t, .str u => .ok (.value (.str (t ++ u)))
  | v, w =>
    match s.object? v, s.object? w with
    | some (.list xs), some (.list ys) => .ok (.object (.list (xs ++ ys)))
    | _, _ => .value <$> s.onFloats .add (fun a b => .ok (a + b)) v w

def operate (s : Store) (op : BinaryOp) (v w : Value) : Except Fault Value :=
  match op with
  | .sub => s.onFloats op (fun a b => .ok (a - b)) v w
  | .mul => s.onFloats op (fun a b => .ok (a * b)) v w
  | .div => s.onFloats op Arithmetic.divide v w
  | .pow => s.onFloats op Arithmetic.power v w
  | .mod => s.onInts op Arithmetic.remainder v w
  | .bitAnd => s.onInts op (fun a b => floatOfInt (Bits.and a b)) v w
  | .bitOr => s.onInts op (fun a b => floatOfInt (Bits.or a b)) v w
  | .bitXor => s.onInts op (fun a b => floatOfInt (Bits.xor a b)) v w
  | .shiftLeft | .shiftRight => s.onInts op (Arithmetic.shift op) v w
  | .eq => return .bool (← s.equal v w)
  | .ne => return .bool !(← s.equal v w)
  | .lt => return .bool ((← s.compare v w) == .lt)
  | .gt => return .bool ((← s.compare v w) == .gt)
  | .le => return .bool ((← s.compare v w) != .gt)
  | .ge => return .bool ((← s.compare v w) != .lt)
  | .mem => return .bool (← s.holds w v)
  | .same => .ok (.bool (identical v w))
  | op => .error (.of (.unknownOperator op.text))

def binary (s : Store) (op : BinaryOp) (v w : Value) : Except Fault Made :=
  match op with
  | .add => s.plus v w
  | op => .value <$> s.operate op v w

def unary (s : Store) (op : UnaryOp) (v : Value) : Except Fault Value :=
  match op, float? v with
  | .not_, _ => .ok (.bool !(s.truthy v))
  | op, none => .error (.of (.operand op.text (s.typeName v)))
  | .neg, some x => return .num (-(← x))
  | .pos, some x => return .num (← x)
  | .invert, some _ => do
    let i ← s.toInt v UnaryOp.invert.text
    .ok (.num (← floatOfInt (-i - 1)))
  | .other t, some _ => .error (.of (.unknownOperator t))

end Store

end LoopScript
