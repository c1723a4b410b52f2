/-
# Values

What variables and array elements hold. Arrays are references to storages
and pointers designate a variable by its frame and its name, so copying a
value copies neither. A multi value carries the results of a call with
several of them to the place of the call.

Key definitions: `Value`, `Value.truthy`, `Ty.accepts`, `Ty.convert`,
`ValueFault`.
-/
import Treewalk.Number.Binary32
import Treewalk.Number.Decimal
import Treewalk.Ty

namespace Treewalk

/-- The number of a storage. -/
abbrev StorageId := Nat

/-- The number of a frame. -/
abbrev FrameId := Nat

inductive Value where
  | nil
  | int (n : Int32)
  | float (x : Float32)
  | bool (b : Bool)
  | str (s : String)
  /-- A code point, or any other integer that arithmetic gave. -/
  | rune (n : Int32)
  | array (storage : StorageId)
  | pointer (frame : FrameId) (name : String)
  | multi (values : List Value)
  deriving Inhabited

/-- What can be wrong with an operation on values. -/
inductive ValueFault where
  | invalidOperation (op : String) (lhs rhs : Kind)
  | negativeRepeat (count : Int32)
  | outOfRange (index : Int) (length : Nat)
  | indexKind (found : Kind)
  | sizeKind (found : Kind)
  | negativeSize (size : Int32)
  | tooManyElements (size found : Nat)
  | notIndexable (found : Kind)
  deriving DecidableEq, Repr

def ValueFault.message : ValueFault → String
  | invalidOperation op lhs rhs =>
    s!"invalid operation: cannot apply '{op}' to '{lhs.label}' and '{rhs.label}'"
  | negativeRepeat count => s!"string repeat count must not be negative, found: {count.toInt}"
  | outOfRange index length => s!"index out of range: index {index} with length {length}"
  | indexKind found => s!"array index must be of type int32 or rune, found '{found.label}'"
  | sizeKind found => s!"array size must be of type int32, found '{found.label}'"
  | negativeSize size => s!"array size must not be negative, found: {size.toInt}"
  | tooManyElements size found =>
    s!"too many elements in array literal: expected at most {size}, found {found}"
  | notIndexable found => s!"cannot index a value of type '{found.label}'"

/-- The character of a code point; the replacement character for any other integer. -/
def runeChar (n : Int32) : Char :=
  if 0 ≤ n.toInt ∧ n.toInt.toNat.isValidChar then Char.ofNat n.toInt.toNat else '�'

namespace Value

def kind : Value → Kind
  | nil => .nil
  | int _ => .int32
  | float _ => .float32
  | bool _ => .bool
  | str _ => .string
  | rune _ => .rune
  | array _ => .array
  | pointer .. => .pointer
  | multi _ => .multi

def isNil : Value → Bool
  | nil => true
  | _ => false

def isMulti : Value → Bool
  | multi _ => true
  | _ => false

/-- What counts as true in a condition: all but nil, false, zero numbers and the empty text. -/
def truthy : Value → Bool
  | nil => false
  | bool b => b
  | int n => n != 0
  | float x => !(x == 0)
  | str s => !s.isEmpty
  | _ => true

/-- A value as an array index. -/
def index : Value → Except ValueFault Int
  | int n | rune n => .ok n.toInt
  | v => .error (.indexKind v.kind)

mutual

/-- The text of a value, given the text of storages. -/
def textWith (storageText : StorageId → String) : Value → String
  | nil => "nil"
  | int n => toString n.toInt
  | float x => float32Text x
  | bool b => if b then "true" else "false"
  | str s => s
  | rune n => String.singleton (runeChar n)
  | array id => storageText id
  | pointer _ name => "&" ++ name
  | multi values => " ".intercalate (textsWith storageText values)

/-- The texts of several values. -/
def textsWith (storageText : StorageId → String) : List Value → List String
  | [] => []
  | v :: vs => textWith storageText v :: textsWith storageText vs

end

mutual

/-- Whether two values are the same, given the sameness of storages. Kinds are never mixed, and
what is no number is not the same as itself. -/
def sameWith (storages : StorageId → StorageId → Bool) : Value → Value → Bool
  | nil, nil => true
  | int a, int b => a == b
  | float a, float b => a == b
  | bool a, bool b => a == b
  | str a, str b => a == b
  | rune a, rune b => a == b
  | array a, array b => storages a b
  | pointer f x, pointer g y => f == g && x == y
  | multi as, multi bs => allSameWith storages as bs
  | _, _ => false

/-- Whether two lists hold the same values. -/
def allSameWith (storages : StorageId → StorageId → Bool) : List Value → List Value → Bool
  | [], [] => true
  | a :: as, b :: bs => sameWith storages a b && allSameWith storages as bs
  | _, _ => false

end

end Value

namespace Ty

/-- Whether a variable of the type may hold the value. Only the kind counts: neither the size nor
the element type of an array. A pointer may be nil. -/
def accepts (t : Ty) (v : Value) : Bool :=
  match t, v with
  | .pointer _, .nil => true
  | t, v => t.kind == v.kind

/-- An integer becomes a float or a rune where one is declared. -/
def convert (t : Ty) (v : Value) : Value :=
  match t, v with
  | .float32, .int n => .float (Binary32.ofInt n.toInt)
  | .rune, .int n => .rune n
  | _, v => v

end Ty

end Treewalk
