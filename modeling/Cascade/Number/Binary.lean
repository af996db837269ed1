/-!
# Binary floating-point numbers as integers

A finite float is `± mantissa · 2 ^ exponent` with a natural mantissa.  Through
this form a float is widened, narrowed, rounded to an integer or written in
decimal by exact arithmetic on naturals.

## Main definitions

* `BinaryNumber` — a sign, a mantissa and an exponent of two.
* `BinaryFormat` — the parameters of a float format; `binary32` and `binary64`.
* `BinaryFormat.decode?`, `BinaryFormat.encode` — from and to bit patterns.
* `BinaryNumber.toFloat32`, `BinaryNumber.toFloat` — the nearest float.
* `BinaryNumber.nearestInt` — the nearest integer, halves away from zero.
* `narrow`, `widen` — between the two formats.
-/

namespace Cascade

/-- The number `± mantissa · 2 ^ exponent`. -/
structure BinaryNumber where
  /-- The sign; zero has one too. -/
  negative : Bool
  /-- The magnitude before scaling. -/
  mantissa : Nat
  /-- The power of two that scales the mantissa. -/
  exponent : Int
  deriving DecidableEq, Inhabited

/-- A power of two. -/
def twoTo (n : Nat) : Nat := Nat.pow 2 n

/-- `num / den` rounded to the nearest natural, halves to the even one. -/
def roundHalfEven (num den : Nat) : Nat :=
  let q := num / den
  let twice := 2 * (num % den)
  if twice < den then q else if den < twice then q + 1 else q + q % 2

/-- `num / den` rounded to the nearest natural, halves upwards. -/
def roundHalfUp (num den : Nat) : Nat := (2 * num + den) / (2 * den)

/-- The layout of a float: a sign bit, an exponent field, and a fraction field of
`digits - 1` bits.  The least exponent field is for the subnormal numbers, the
greatest for the infinities and for what is no number. -/
structure BinaryFormat where
  /-- The bits of a full mantissa. -/
  digits : Nat
  /-- The exponent of the least positive number. -/
  leastExponent : Int
  /-- The bit pattern of positive infinity. -/
  infinity : Nat

/-- The 32-bit format. -/
def binary32 : BinaryFormat := ⟨24, -149, 0x7F800000⟩

/-- The 64-bit format. -/
def binary64 : BinaryFormat := ⟨53, -1074, 0x7FF0000000000000⟩

namespace BinaryFormat

/-- The number behind a sign and the bits below it; none if these bits are those
of an infinity or of no number. -/
def decode? (f : BinaryFormat) (negative : Bool) (bits : Nat) : Option BinaryNumber :=
  let field := bits / twoTo (f.digits - 1)
  let fraction := bits % twoTo (f.digits - 1)
  if f.infinity ≤ bits then none
  else if field = 0 then some ⟨negative, fraction, f.leastExponent⟩
  else some ⟨negative, twoTo (f.digits - 1) + fraction, f.leastExponent + (field - 1 : Nat)⟩

/-- The bits below the sign of the nearest float to `mantissa · 2 ^ exponent`, halves
to the even mantissa.  The unit of the last place follows from the number of bits
of the mantissa; a mantissa that rounds up to the next power of two carries into
the exponent field, and what is too great becomes infinite. -/
def encode (f : BinaryFormat) (mantissa : Nat) (exponent : Int) : Nat :=
  if mantissa = 0 then 0
  else
    let unit := max (exponent + (Nat.log2 mantissa + 1 : Nat) - f.digits) f.leastExponent
    let kept := roundHalfEven (mantissa * twoTo (exponent - unit).toNat) (twoTo (unit - exponent).toNat)
    min ((unit - f.leastExponent).toNat * twoTo (f.digits - 1) + kept) f.infinity

end BinaryFormat

namespace BinaryNumber

/-- The nearest 32-bit float. -/
def toFloat32 (x : BinaryNumber) : Float32 :=
  .ofBits (.ofNat (binary32.encode x.mantissa x.exponent + if x.negative then 0x80000000 else 0))

/-- The nearest 64-bit float. -/
def toFloat (x : BinaryNumber) : Float :=
  .ofBits (.ofNat (binary64.encode x.mantissa x.exponent + if x.negative then 0x8000000000000000 else 0))

/-- The number of a finite 32-bit float. -/
def ofFloat32? (x : Float32) : Option BinaryNumber :=
  let bits := x.toBits.toNat
  binary32.decode? (decide (0x80000000 ≤ bits)) (bits % 0x80000000)

/-- The number of a finite 64-bit float. -/
def ofFloat? (x : Float) : Option BinaryNumber :=
  let bits := x.toBits.toNat
  binary64.decode? (decide (0x8000000000000000 ≤ bits)) (bits % 0x8000000000000000)

/-- An integer as such a number. -/
def ofInt (n : Int) : BinaryNumber := ⟨decide (n < 0), n.natAbs, 0⟩

/-- The nearest integer; a half goes away from zero. -/
def nearestInt (x : BinaryNumber) : Int :=
  let magnitude := roundHalfUp (x.mantissa * twoTo x.exponent.toNat) (twoTo (-x.exponent).toNat)
  if x.negative then -(magnitude : Int) else magnitude

end BinaryNumber

/-- The nearest 32-bit float to a 64-bit float. -/
def narrow (x : Float) : Float32 :=
  match BinaryNumber.ofFloat? x with
  | some n => n.toFloat32
  | none => if x.isNaN then .ofBits 0x7FC00000 else if x < 0 then .ofBits 0xFF800000 else .ofBits 0x7F800000

/-- A 32-bit float as a 64-bit float of the same value. -/
def widen (x : Float32) : Float :=
  match BinaryNumber.ofFloat32? x with
  | some n => n.toFloat
  | none =>
    if x.isNaN then .ofBits 0x7FF8000000000000
    else if x < 0 then .ofBits 0xFFF0000000000000
    else .ofBits 0x7FF0000000000000

end Cascade
