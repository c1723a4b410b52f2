/-
# Binary numbers of 32 bits

The magnitudes of the 32-bit binary format as exact fractions. A finite one
is `m · 2^q` with `m < 2^24` and `-149 ≤ q`, and its bits are
`(q + 149) · 2^23 + m`, so magnitudes are ordered as their bits are.
`nearest` gives the bits of the magnitude nearest to a fraction, ties going
to the even one, and `ofInt` the number nearest to an integer.

Key definitions: `roundDiv`, `nearest`, `fraction`, `ofInt`, `compareInt`.
-/

namespace Treewalk.Binary32

/-- A fraction of natural numbers. -/
structure Fraction where
  num : Nat
  den : Nat
  deriving DecidableEq, Repr

/-- `base ^ e` times a fraction, for an exponent of either sign. -/
def Fraction.scale (f : Fraction) (base : Nat) (e : Int) : Fraction :=
  if 0 ≤ e then ⟨f.num * Nat.pow base e.toNat, f.den⟩
  else ⟨f.num, f.den * Nat.pow base (-e).toNat⟩

/-- The quotient rounded to the nearest natural number, a half going to the even neighbour. -/
def roundDiv (n d : Nat) : Nat :=
  let q := n / d
  let r := n % d
  if d < 2 * r ∨ (2 * r = d ∧ q % 2 = 1) then q + 1 else q

/-- The bit that normal numbers have in common, which is not written: `2^23`. -/
def hiddenBit : Nat := 0x800000

/-- The bit of the sign: `2^31`. -/
def signBit : Nat := 0x80000000

/-- The bits of the infinite magnitude; those above are no numbers. -/
def infinityBits : Nat := 0x7f800000

/-- The bits of the result that is no number. -/
def nanBits : Nat := 0x7fc00000

/-- The exponent of the leading binary digit. -/
def leading (f : Fraction) : Int :=
  let e : Int := (f.num.log2 : Int) - (f.den.log2 : Int)
  let power := (Fraction.mk 1 1).scale 2 e
  if f.num * power.den < power.num * f.den then e - 1 else e

/-- The bits of the magnitude nearest to a fraction. -/
def nearest (f : Fraction) : Nat :=
  if f.num = 0 then 0
  else
    let q := max (leading f - 23) (-149)
    let scaled := f.scale 2 (-q)
    min infinityBits ((q + 149).toNat * hiddenBit + roundDiv scaled.num scaled.den)

/-- The exact value of finite bits. -/
def fraction (bits : Nat) : Fraction :=
  let field : Nat := bits / hiddenBit
  if field = 0 then (Fraction.mk bits 1).scale 2 (-149)
  else (Fraction.mk (bits % hiddenBit + hiddenBit) 1).scale 2 ((field : Int) - 150)

/-- A sign and the bits of a magnitude as a number. -/
def signed (negative : Bool) (bits : Nat) : Float32 :=
  Float32.ofBits (UInt32.ofNat (if negative then bits + signBit else bits))

def isNegative (x : Float32) : Bool := signBit ≤ x.toBits.toNat

/-- The bits without the sign. -/
def magnitude (x : Float32) : Nat := x.toBits.toNat % signBit

/-- The number nearest to an integer. -/
def ofInt (n : Int) : Float32 := signed (n < 0) (nearest ⟨n.natAbs, 1⟩)

/-- How a number compares with an integer, exactly; `none` when it is no number. -/
def compareInt (x : Float32) (n : Int) : Option Ordering :=
  let bits := magnitude x
  if infinityBits < bits then none
  else if bits = infinityBits then some (if isNegative x then .lt else .gt)
  else
    let f := fraction bits
    let signedNum : Int := if isNegative x then -(f.num : Int) else f.num
    some (compare signedNum (n * f.den))

/-- How two numbers compare; `none` when one of them is no number. -/
def compare? (x y : Float32) : Option Ordering :=
  if x < y then some .lt else if x == y then some .eq else if y < x then some .gt else none

end Treewalk.Binary32
