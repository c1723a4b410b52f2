/-
# Built-in functions

Printing adds a line to the output. Lengths and parts of texts count code
points. The time of day is given to a run from outside, as text.

Key definitions: `Builtin`, `Builtin.named?`, `Builtin.run`.
-/
import Treewalk.Heap

namespace Treewalk

/-- What can be wrong with the arguments of a built-in function. -/
inductive BuiltinFault where
  | arity (function : String) (expected found : Nat)
  | argument (function : String) (position : Nat) (expected : String) (found : Kind)
  deriving DecidableEq, Repr

def BuiltinFault.message : BuiltinFault → String
  | arity function expected found =>
    s!"function {function}: expected {expected} arguments, found {found}"
  | argument function position expected found =>
    s!"function {function}: argument {position} should be of type {expected}, found '{found.label}'"

inductive Builtin where
  | print
  | len
  | substr
  | now
  | typeOf
  deriving DecidableEq, Repr

namespace Builtin

/-- The built-in function of a name. -/
def named? : String → Option Builtin
  | "fmt.Println" | "fmt.Print" | "println" | "print" => some print
  | "len" => some len
  | "substr" => some substr
  | "now" => some now
  | "typeOf" => some typeOf
  | _ => none

/-- A count as an integer; those too large are cut to the largest. -/
def clamp (n : Nat) : Int32 := Int32.ofNat (Nat.min n Int32.maxValue.toInt.toNat)

/-- A count that is an integer is not cut. -/
theorem toInt_clamp {n : Nat} (h : n ≤ Int32.maxValue.toInt.toNat) : (clamp n).toInt = n := by
  have hmax : Int32.maxValue.toInt.toNat = 2147483647 := rfl
  have hmin : Nat.min n Int32.maxValue.toInt.toNat = n := Nat.min_eq_left h
  rw [clamp, hmin]
  exact Int32.toInt_ofNat_of_lt (by omega)

/-- The length of a text, or the declared size of an array. -/
def lenOf (h : Heap) : Value → Value
  | .str s => .int (clamp s.length)
  | .array id => .int (clamp (h.get id).size)
  | _ => .nil

/-- The part of a text from `start` on, of the given length; nil if it does not lie inside. -/
def part (s : String) (start length : Int) : Value :=
  if start < 0 ∨ length < 0 ∨ (s.length : Int) < start + length then .nil
  else .str (String.ofList ((s.toList.drop start.toNat).take length.toNat))

/-- The kind of a value; of an array, that of its elements behind brackets. -/
def kindText (h : Heap) : Value → String
  | .array id => "[]" ++ (h.get id).elem.kind.label
  | v => v.kind.label

/-- The arguments of `substr`, each checked in turn. -/
def substrOf : List Value → Except BuiltinFault Value
  | [.str s, .int start, .int length] => .ok (part s start.toInt length.toInt)
  | [.str _, .int _, v] => .error (.argument "substr" 3 "int32" v.kind)
  | [.str _, v, _] => .error (.argument "substr" 2 "int32" v.kind)
  | [v, _, _] => .error (.argument "substr" 1 "string" v.kind)
  | args => .error (.arity "substr" 3 args.length)

/-- Runs a built-in function on its arguments. `time` is the present time of day. Lines printed
are added to the output. -/
def run (b : Builtin) (time : String) (h : Heap) (args : List Value) (output : Array String) :
    Except BuiltinFault (Value × Array String) :=
  match b, args with
  | print, args => .ok (.nil, output.push (" ".intercalate (args.map h.text)))
  | len, [v] => .ok (lenOf h v, output)
  | len, args => .error (.arity "len" 1 args.length)
  | substr, args => (substrOf args).map (·, output)
  | now, [] => .ok (.str time, output)
  | now, args => .error (.arity "now" 0 args.length)
  | typeOf, [v] => .ok (.str (kindText h v), output)
  | typeOf, args => .error (.arity "typeOf" 1 args.length)

end Builtin

end Treewalk
