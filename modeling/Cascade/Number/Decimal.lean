import Cascade.Number.Binary

/-!
# Decimal texts of floats

The shortest decimal of a float is the one on the coarsest grid of a power of
ten that still reads back to that float; of two such neighbours it is the nearer.
The reals that read back to `m · 2 ^ q` reach half a unit to either side, or a
quarter of a unit downwards if `m` is the least full mantissa, and the ends
belong to them if `m` is even.

## Main definitions

* `digitsOf`, `ofDigits` — decimal digits and their value.
* `shortest` — the shortest decimal of a positive 32-bit float.
-/

namespace Cascade

/-- A power of ten. -/
def tenTo (n : Nat) : Nat := Nat.pow 10 n

/-! ### Digits -/

/-- A decimal digit. -/
abbrev Digit := Fin 10

/-- The digit 0. -/
def Digit.zero : Digit := ⟨0, by decide⟩

/-- The character of a digit. -/
def Digit.char (d : Digit) : Char := Char.ofNat (48 + d.val)

/-- The digit of a character. -/
def Digit.ofChar? (c : Char) : Option Digit :=
  if h : 48 ≤ c.toNat ∧ c.toNat < 58 then some ⟨c.toNat - 48, by omega⟩ else none

/-- The decimal digits of a natural, most significant first. -/
def digitsOf (n : Nat) : List Digit :=
  if h : n < 10 then [⟨n, h⟩] else digitsOf (n / 10) ++ [⟨n % 10, Nat.mod_lt n (by decide)⟩]

/-- The number with the given digits. -/
def ofDigits (ds : List Digit) : Nat := ds.foldl (fun n d => 10 * n + d.val) 0

theorem ofDigits_concat (ds : List Digit) (d : Digit) :
    ofDigits (ds ++ [d]) = 10 * ofDigits ds + d.val := by
  simp [ofDigits]

/-- Digits written are digits read. -/
theorem ofDigits_digitsOf (n : Nat) : ofDigits (digitsOf n) = n := by
  induction n using Nat.strongRecOn with
  | _ n ih =>
    rw [digitsOf]
    split
    · simp [ofDigits]
    · rw [ofDigits_concat, ih (n / 10) (by omega)]
      simp only
      omega

/-! ### Shortest decimals -/

/-- The number `coefficient · 10 ^ exponent`. -/
structure DecimalNumber where
  /-- The digits, as a number. -/
  coefficient : Nat
  /-- The power of ten that scales them. -/
  exponent : Int
  deriving DecidableEq

/-- Which of two equally near decimals is taken. -/
inductive Tie where
  /-- The one with an even last digit. -/
  | toEven
  /-- The greater one. -/
  | up
  deriving DecidableEq

/-- The nearest multiple of `10 ^ k` that reads back to `m · 2 ^ q`, if one of the two
neighbours on that grid does.  All quantities are multiples of one common unit:
`value` the float, `step` the width of the grid, `above` and `below` how far the
reals that read back reach. -/
def onGrid? (tie : Tie) (m : Nat) (q k : Int) : Option Nat :=
  let scale := twoTo q.toNat * tenTo (-k).toNat
  let value := 4 * m * scale
  let step := 4 * tenTo k.toNat * twoTo (-q).toNat
  let above := 2 * scale
  let below := if m = 0x800000 ∧ binary32.leastExponent < q then scale else above
  let low := value / step
  let lowReads :=
    if m % 2 = 0 then decide (value ≤ low * step + below) else decide (value < low * step + below)
  let highReads :=
    if m % 2 = 0 then decide ((low + 1) * step ≤ value + above)
    else decide ((low + 1) * step < value + above)
  match lowReads, highReads with
  | false, false => none
  | true, false => some low
  | false, true => some (low + 1)
  | true, true =>
    let doubled := 2 * value
    let middle := (2 * low + 1) * step
    if doubled < middle then some low
    else if middle < doubled then some (low + 1)
    else
      match tie with
      | .toEven => some (low + low % 2)
      | .up => some (low + 1)

/-- The exponents of the grids to try, coarsest first.  No 32-bit float reaches
`10 ^ 39`, and nine digits tell any two of them apart, so that a grid between
these bounds always serves. -/
def gridExponents : List Int := (List.range 94).map fun (i : Nat) => 39 - (i : Int)

/-- The shortest decimal that reads back to the 32-bit float `m · 2 ^ q`, where `m` is positive. -/
def shortest (tie : Tie) (m : Nat) (q : Int) : DecimalNumber :=
  (gridExponents.findSome? fun k => (onGrid? tie m q k).map (⟨·, k⟩)).getD ⟨0, 0⟩

end Cascade
