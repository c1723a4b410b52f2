/-
# Faults

What can go wrong while a program runs. A fault ends the statement or the
expression it arises in, which reports it, and the run goes on. An abort ends
the run.

Key definitions: `Fault`, `Fault.message`, `Abort`, `Abort.message`.
-/
import Treewalk.Builtin
import Treewalk.Frame
import Treewalk.Tree

namespace Treewalk

inductive Fault where
  | value (fault : ValueFault)
  | name (fault : NameFault)
  | builtin (fault : BuiltinFault)
  | redeclared (name : String)
  | nothingNew
  | shortAtGlobal
  | countMismatch (names values : Nat)
  | typeMismatch (name expected found : String)
  | multipleValues
  | intRange (text : String)
  | floatText (text : String)
  | elementType (expected found : String)
  | elementList
  | arrayInsideItself (name : String)
  | stepKind (op : StepOp) (found : Kind)
  | addressOfConstant (name : String)
  | notPointer (label : String) (found : Kind)
  | nilPointer
  | misplacedBreak
  | misplacedContinue
  | misplacedReturn
  | conditionKind (found : Kind)
  | undefinedFunction (name : String)
  | functionRedeclared (name : String)
  | argumentCount (function : String) (expected found : Nat)
  deriving DecidableEq, Repr

def Fault.message : Fault → String
  | value f => f.message
  | name f => f.message
  | builtin f => f.message
  | redeclared x => s!"'{x}' redeclared in this block"
  | nothingNew => "no new variables on left side of :="
  | shortAtGlobal => "short variable declaration is not allowed at global scope"
  | countMismatch names values =>
    s!"assignment mismatch: {names} variables but {values} values"
  | typeMismatch x expected found =>
    s!"cannot use value of type '{found}' as '{expected}' for '{x}'"
  | multipleValues => "multiple-value call used in single-value context"
  | intRange text => s!"integer literal out of int32 range: {text}"
  | floatText text => s!"invalid float literal: {text}"
  | elementType expected found =>
    s!"element of type '{found}' in array literal of '{expected}'"
  | elementList => "unexpected element list, only arrays of arrays take nested '\x7b...\x7d'"
  | arrayInsideItself x => s!"cannot store array '{x}' inside itself"
  | stepKind op found =>
    s!"invalid operation: {op.symbol} requires an int32 or rune variable, found '{found.label}'"
  | addressOfConstant x => s!"cannot take the address of constant '{x}'"
  | notPointer label found => s!"invalid indirect of '{label}' of type '{found.label}'"
  | nilPointer => "cannot dereference a nil pointer"
  | misplacedBreak => "break is not in a loop or switch"
  | misplacedContinue => "continue is not in a loop"
  | misplacedReturn => "return is not in a function"
  | conditionKind found => s!"condition must be a single value, found '{found.label}'"
  | undefinedFunction x => s!"undefined function: '{x}'"
  | functionRedeclared x => s!"function '{x}' redeclared"
  | argumentCount function expected found =>
    s!"function '{function}': expected {expected} arguments but found {found}"

instance : Coe ValueFault Fault := ⟨.value⟩

instance : Coe NameFault Fault := ⟨.name⟩

instance : Coe BuiltinFault Fault := ⟨.builtin⟩

inductive Abort where
  | callDepth (limit : Nat)
  | stepBudget (limit : Nat)
  | danglingPointer (name : String)
  deriving DecidableEq, Repr

def Abort.message : Abort → String
  | callDepth limit => s!"maximum call depth of {limit} exceeded"
  | stepBudget limit => s!"step budget of {limit} exceeded"
  | danglingPointer name => s!"pointer to '{name}' outlived its scope"

end Treewalk
