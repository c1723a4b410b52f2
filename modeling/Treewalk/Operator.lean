/-
# Operators

The binary operators on values. Arithmetic wraps around in 32 bits; an
operand nil makes the result nil, and so does a division by zero. Comparisons
never fail: values that cannot be compared are neither equal nor unequal, and
stand in no order.

Key definitions: `Value.apply`, `Value.negate`.
-/
import Treewalk.Tree
import Treewalk.Value

namespace Treewalk

/-- A number as an operand. Integers and runes count alike. -/
inductive Operand where
  | int (n : Int32)
  | float (x : Float32)

namespace Operand

def toFloat : Operand → Float32
  | int n => Binary32.ofInt n.toInt
  | float x => x

def isZero : Operand → Bool
  | int n => n == 0
  | float x => x == 0

/-- How two numbers compare, exactly; `none` when one of them is no number. -/
def compare? : Operand → Operand → Option Ordering
  | int a, int b => some (compare a.toInt b.toInt)
  | float x, float y => Binary32.compare? x y
  | float x, int b => Binary32.compareInt x b.toInt
  | int a, float y => (Binary32.compareInt y a.toInt).map Ordering.swap

end Operand

namespace Value

def operand? : Value → Option Operand
  | int n | rune n => some (.int n)
  | float x => some (.float x)
  | _ => none

/-- A text written `n` times. -/
def repeated (s : String) (n : Nat) : String :=
  if s.isEmpty then s else Nat.repeat (· ++ s) n ""

def invalid (op : BinaryOp) (lhs rhs : Value) : ValueFault :=
  .invalidOperation op.symbol lhs.kind rhs.kind

/-- The bytes of a text. -/
def utf8 (s : String) : List UInt8 := s.toByteArray.data.toList

/-- How two values compare: numbers with numbers, texts with texts byte by byte. -/
def order? : Value → Value → Option Ordering
  | str a, str b => some (compare (utf8 a) (utf8 b))
  | v, w => do (← v.operand?).compare? (← w.operand?)

/-- Whether two values are equal; `none` when they cannot be compared. -/
def equal? : Value → Value → Option Bool
  | str a, str b => some (a == b)
  | bool a, bool b => some (a == b)
  | v, w => do return (← v.operand?).compare? (← w.operand?) == some .eq

/-- Integer arithmetic, which wraps around. Division goes toward zero. -/
def intArith (op : BinaryOp) (a b : Int32) : Int32 :=
  match op with
  | .add => a + b
  | .sub => a - b
  | .mul => a * b
  | _ => a / b

def floatArith (op : BinaryOp) (x y : Float32) : Float32 :=
  match op with
  | .add => x + y
  | .sub => x - y
  | .mul => x * y
  | _ => x / y

/-- Arithmetic on numbers: on integers if both are, else on floats. -/
def numberArith (op : BinaryOp) (a b : Operand) : Value :=
  if op = .div ∧ b.isZero then nil
  else
    match a, b with
    | .int a, .int b => int (intArith op a b)
    | a, b => float (floatArith op a.toFloat b.toFloat)

/-- A text times a count. -/
def times (s : String) (n : Int32) : Except ValueFault Value :=
  if n.toInt < 0 then .error (.negativeRepeat n) else .ok (str (repeated s n.toInt.toNat))

/-- Sums, differences, products and quotients. Texts are joined by a sum and repeated by a product
with a count; a rune mixes with an integer only. -/
def arith (op : BinaryOp) (lhs rhs : Value) : Except ValueFault Value :=
  match op, lhs, rhs with
  | .add, str a, str b => .ok (str (a ++ b))
  | .mul, str s, int n => times s n
  | .mul, int n, str s => times s n
  | op, rune a, rune b => .error (invalid op (rune a) (rune b))
  | op, rune a, float y => .error (invalid op (rune a) (float y))
  | op, float x, rune b => .error (invalid op (float x) (rune b))
  | op, lhs, rhs =>
    match lhs.operand?, rhs.operand? with
    | some a, some b => .ok (numberArith op a b)
    | _, _ => .error (invalid op lhs rhs)

/-- Remainders, of integers and runes only. They have the sign of the dividend. -/
def remainder (lhs rhs : Value) : Except ValueFault Value :=
  match lhs.operand?, rhs.operand? with
  | some (.int a), some (.int b) => .ok (if b = 0 then nil else int (a % b))
  | _, _ => .error (invalid .mod lhs rhs)

/-- A binary operator applied to two values. -/
def apply (op : BinaryOp) (lhs rhs : Value) : Except ValueFault Value :=
  match op with
  | .eq => .ok (bool (lhs.equal? rhs == some true))
  | .ne => .ok (bool (lhs.equal? rhs == some false))
  | .lt => .ok (bool ((lhs.order? rhs).any Ordering.isLT))
  | .le => .ok (bool ((lhs.order? rhs).any Ordering.isLE))
  | .gt => .ok (bool ((lhs.order? rhs).any Ordering.isGT))
  | .ge => .ok (bool ((lhs.order? rhs).any Ordering.isGE))
  | .mod => if lhs.isNil || rhs.isNil then .ok nil else remainder lhs rhs
  | op => if lhs.isNil || rhs.isNil then .ok nil else arith op lhs rhs

/-- A minus sign. What has no opposite gives nil. -/
def negate : Value → Value
  | int n => int (-n)
  | float x => float (-x)
  | _ => nil

end Value

end Treewalk
