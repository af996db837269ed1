import Cascade.Number.Decimal

/-!
# Floats as plain text

In messages and displayed values a float is written without an exponent: the
digits of its shortest decimal, padded with zeros up to the point.
-/

namespace Cascade

/-- The digits before and after the point.  There is at least one digit before it. -/
def DecimalNumber.positional (d : DecimalNumber) : List Digit × List Digit :=
  let ds := digitsOf d.coefficient
  let places := (-d.exponent).toNat
  if 0 ≤ d.exponent then (ds ++ List.replicate d.exponent.toNat .zero, [])
  else if places < ds.length then (ds.take (ds.length - places), ds.drop (ds.length - places))
  else ([.zero], List.replicate (places - ds.length) .zero ++ ds)

/-- The decimal point and what follows it; an integer has none. -/
def fractionText (ds : List Digit) : List Char :=
  if ds.isEmpty then [] else '.' :: ds.map Digit.char

/-- A float in plain text: no exponent, no point in an integer, a sign also on
zero; halves between two shortest decimals go up. -/
def floatText (x : Float32) : String :=
  match BinaryNumber.ofFloat32? x with
  | none => if x.isNaN then "NaN" else if x < 0 then "-inf" else "inf"
  | some n =>
    let sign := if n.negative then ['-'] else []
    if n.mantissa = 0 then String.ofList (sign ++ ['0'])
    else
      let (whole, fraction) := (shortest .up n.mantissa n.exponent).positional
      String.ofList (sign ++ whole.map Digit.char ++ fractionText fraction)

end Cascade
