/-
# Decimal text of binary numbers

A binary number is written with the fewest decimal digits that read back to
it, the nearest such digits if there is a choice and the larger ones at a
tie, always positionally: no exponent, and no point in a whole number.

Key definitions: `Decimal`, `Decimal.shortest`, `Decimal.text`, `float32Text`.
-/
import Treewalk.Number.Binary32

namespace Treewalk

/-- The number `digits · 10 ^ exponent`. -/
structure Decimal where
  digits : Nat
  exponent : Int
  deriving DecidableEq, Repr

namespace Decimal

open Binary32

def fraction (d : Decimal) : Fraction := (Fraction.mk d.digits 1).scale 10 d.exponent

/-- The zeros between the point and the first digit of a fraction below 1, which are fewer than 60
in this format. -/
def leadingZeros (f : Fraction) : Nat :=
  (List.range 60).findIdx fun j => f.den ≤ f.num * Nat.pow 10 (j + 1)

/-- The least `k` such that a fraction is below `10 ^ k`. -/
def scaleOf (f : Fraction) : Int :=
  if f.den ≤ f.num then ((Nat.toDigits 10 (f.num / f.den)).length : Int)
  else -(leadingZeros f : Int)

/-- Whether a decimal is nearer to the magnitude `bits` than to any other. -/
def readsBack (bits : Nat) (d : Decimal) : Bool := nearest d.fraction == bits

/-- A decimal of the grid `10 ^ e` that reads back to `bits`, of the two around its value. -/
def onGrid? (bits : Nat) (e : Int) : Option Decimal :=
  let f := (Binary32.fraction bits).scale 10 (-e)
  let below : Decimal := ⟨f.num / f.den, e⟩
  let above : Decimal := ⟨f.num / f.den + 1, e⟩
  match readsBack bits below, readsBack bits above with
  | true, true => some (if 2 * (f.num % f.den) < f.den then below else above)
  | true, false => some below
  | false, true => some above
  | false, false => none

/-- The shortest decimal of a finite magnitude that is not zero. Nine digits tell all of them
apart. -/
def shortest (bits : Nat) : Decimal :=
  let k := scaleOf (Binary32.fraction bits)
  ((List.range 9).findSome? fun (n : Nat) => onGrid? bits (k - (n + 1))).getD ⟨0, 0⟩

/-- Trailing zeros behind the point are not written. -/
def dropZeros (characters : List Char) : List Char :=
  (characters.reverse.dropWhile (· == '0')).reverse

/-- Positional text: zeros up to the point, and a point only before a digit. -/
def text (d : Decimal) : String :=
  let ds := Nat.toDigits 10 d.digits
  if 0 ≤ d.exponent then String.ofList (ds ++ List.replicate d.exponent.toNat '0')
  else
    let places := (-d.exponent).toNat
    let padded := List.replicate (places + 1 - ds.length) '0' ++ ds
    let whole := padded.take (padded.length - places)
    match dropZeros (padded.drop (padded.length - places)) with
    | [] => String.ofList whole
    | behind => String.ofList (whole ++ '.' :: behind)

end Decimal

/-- The text of a number: its sign, then its shortest decimal or the name of what has none. -/
def float32Text (x : Float32) : String :=
  let bits := Binary32.magnitude x
  let sign := if Binary32.isNegative x then "-" else ""
  if Binary32.infinityBits < bits then "NaN"
  else if bits = Binary32.infinityBits then sign ++ "inf"
  else if bits = 0 then sign ++ "0"
  else sign ++ (Decimal.shortest bits).text

end Treewalk
