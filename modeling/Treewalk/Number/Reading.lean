/-
# Reading numbers

Integers are an optional sign and digits, and have to fit 32 bits. Other
numbers are an optional sign and then digits with an optional point and an
optional exponent, or one of the names `inf`, `infinity`, `nan` in any case;
they are rounded once, to the nearest binary number.

Key definitions: `readInt32?`, `readFloat32?`.
-/
import Treewalk.Number.Decimal

namespace Treewalk

namespace Reading

/-- An optional sign: whether it is a minus, and what follows. -/
def sign : List Char → Bool × List Char
  | '-' :: rest => (true, rest)
  | '+' :: rest => (false, rest)
  | rest => (false, rest)

/-- The value of a row of digits. -/
def value (digits : List Char) : Nat := digits.foldl (fun n c => 10 * n + (c.toNat - 48)) 0

/-- The value of a text of one digit or more, and nothing else. -/
def nat? (text : List Char) : Option Nat :=
  if text ≠ [] ∧ text.all Char.isDigit then some (value text) else none

/-- A signed integer, and nothing else. -/
def int? (text : List Char) : Option Int :=
  let (negative, digits) := sign text
  (nat? digits).map fun n => if negative then -(n : Int) else n

/-- An optional exponent that ends the text. -/
def exponent? : List Char → Option Int
  | [] => some 0
  | c :: rest => if c = 'e' ∨ c = 'E' then int? rest else none

/-- Digits with an optional point, and an optional exponent. -/
def decimal? (text : List Char) : Option Decimal :=
  let whole := text.takeWhile Char.isDigit
  let rest := text.dropWhile Char.isDigit
  let (places, rest) := match rest with
    | '.' :: more => (more.takeWhile Char.isDigit, more.dropWhile Char.isDigit)
    | _ => ([], rest)
  let digits := whole ++ places
  if digits = [] then none
  else (exponent? rest).map fun e => ⟨value digits, e - places.length⟩

/-- The bits nearest to a decimal. Far outside the range of the format the exact fraction is not
needed. -/
def bitsOf (d : Decimal) : Nat :=
  let top := (Nat.toDigits 10 d.digits).length + d.exponent
  if d.digits = 0 ∨ top < -60 then 0
  else if 60 < top then Binary32.infinityBits
  else Binary32.nearest d.fraction

def lower (text : List Char) : List Char := text.map Char.toLower

end Reading

/-- The 32-bit integer a text stands for. -/
def readInt32? (text : String) : Option Int32 :=
  match Reading.int? text.toList with
  | some n =>
    if Int32.minValue.toInt ≤ n ∧ n ≤ Int32.maxValue.toInt then some (Int32.ofInt n) else none
  | none => none

/-- The binary number a text stands for. -/
def readFloat32? (text : String) : Option Float32 :=
  let (negative, body) := Reading.sign text.toList
  let name := String.ofList (Reading.lower body)
  if name = "inf" ∨ name = "infinity" then some (Binary32.signed negative Binary32.infinityBits)
  else if name = "nan" then some (Binary32.signed negative Binary32.nanBits)
  else (Reading.decimal? body).map fun d => Binary32.signed negative (Reading.bitsOf d)

end Treewalk
