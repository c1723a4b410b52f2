/-
# Kinds and types

A kind is what a value can be told to be without looking inside it. A type is
a declared type once its array sizes are known.

Key definitions: `Kind`, `Ty`, `Ty.label`, `Ty.kind`.
-/

namespace Treewalk

inductive Kind where
  | nil
  | int32
  | float32
  | bool
  | string
  | rune
  | array
  | pointer
  | multi
  deriving DecidableEq, Repr, Inhabited

def Kind.label : Kind → String
  | nil => "nil"
  | int32 => "int32"
  | float32 => "float32"
  | bool => "bool"
  | string => "string"
  | rune => "rune"
  | array => "array"
  | pointer => "pointer"
  | multi => "multi"

def Kind.all : List Kind := [nil, int32, float32, bool, string, rune, array, pointer, multi]

inductive Ty where
  | int32
  | float32
  | bool
  | string
  | rune
  | array (size : Nat) (elem : Ty)
  | pointer (target : Ty)
  deriving DecidableEq, Repr, Inhabited

namespace Ty

def kind : Ty → Kind
  | int32 => .int32
  | float32 => .float32
  | bool => .bool
  | string => .string
  | rune => .rune
  | array .. => .array
  | pointer _ => .pointer

/-- The text of a type, as it is written. -/
def label : Ty → String
  | int32 => "int32"
  | float32 => "float32"
  | bool => "bool"
  | string => "string"
  | rune => "rune"
  | array size elem => "[" ++ toString size ++ "]" ++ elem.label
  | pointer target => "*" ++ target.label

end Ty

end Treewalk
