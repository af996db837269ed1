import Cascade.Number.Decimal

/-!
# JSON values

A JSON text is first read as a value of the type below, which keeps what
different readers of the value still need to tell apart: an integer from a
number with a point, the order and repetition of members, and text that is no
sequence of characters because an escape in it names half a surrogate pair.

## Main definitions

* `Numeral` — a number as it is written.
* `Json` — a value.
* `Json.depth`, `Json.isProper` — what readers that keep a whole value ask of it.
-/

namespace Cascade

/-- A number as it is written. -/
structure Numeral where
  /-- Whether a minus sign is in front. -/
  negative : Bool
  /-- The digits before the point. -/
  whole : List Digit
  /-- The digits after the point; none if there is no point. -/
  fraction : List Digit
  /-- The power of ten after the mark `e`. -/
  exponent : Option Int
  deriving DecidableEq, Inhabited

/-- A JSON value.  A text or member name is `none` if it holds an unpaired surrogate. -/
inductive Json where
  | null
  | bool (b : Bool)
  | number (n : Numeral)
  | string (text : Option String)
  | array (items : List Json)
  | object (members : List (Option String × Json))
  deriving Inhabited

namespace Numeral

/-- The digits in front that make a number of 64 bits after `n`, as part of that
number, and the digits left over. -/
def absorb (n : Nat) : List Digit → Nat × List Digit
  | [] => (n, [])
  | d :: ds => if 10 * n + d.val < 0x10000000000000000 then absorb (10 * n + d.val) ds else (n, d :: ds)

/-- The 64-bit float nearest to a power of ten. -/
def tenPower (n : Nat) : Float := .ofScientific 1 false n

/-- A float times a power of ten, rounded after every step, or none if it is out
of range.  A float has no power of ten beyond 308 to offer, so a smaller scale
takes two divisions; of a 64-bit number nothing is left below `10 ^ -616`. -/
def scale? (x : Float) (e : Int) : Option Float :=
  let n := e.natAbs
  if 0 ≤ e then
    if n ≤ 308 then
      let y := x * tenPower n
      if y.isInf then none else some y
    else if x == 0 then some x else none
  else if n ≤ 308 then some (x / tenPower n)
  else if n ≤ 616 then some (x / tenPower 308 / tenPower (n - 308))
  else some 0

/-- The integer that a numeral without point and exponent stands for, if it is
one of 64 bits.  Minus zero is no integer. -/
def integer? (n : Numeral) : Option Int :=
  let magnitude := ofDigits n.whole
  if n.fraction ≠ [] ∨ n.exponent ≠ none then none
  else if n.negative then
    if 0 < magnitude ∧ magnitude ≤ 0x8000000000000000 then some (-(magnitude : Int)) else none
  else if magnitude < 0x10000000000000000 then some magnitude
  else none

/-- The 64-bit float that a numeral stands for, or none if it is out of range.
As many digits as fit into 64 bits count; a digit left over before the point
counts as a factor of ten, one after the point not at all. -/
def float? (n : Numeral) : Option Float :=
  let (head, overflow) := absorb 0 n.whole
  let (significand, rest) := absorb head n.fraction
  let places := n.fraction.length - rest.length
  let e : Int := overflow.length - places + n.exponent.getD 0
  (scale? (UInt64.ofNat significand).toFloat e).map fun x => if n.negative then -x else x

/-- The 32-bit float that a numeral stands for: an integer of 64 bits is rounded
once, any other numeral by way of a 64-bit float. -/
def float32? (n : Numeral) : Option Float32 :=
  match n.integer? with
  | some i => some (BinaryNumber.ofInt i).toFloat32
  | none => n.float?.map narrow

/-- Whether the numeral stands for a number in range. -/
def inRange (n : Numeral) : Bool := n.integer?.isSome || n.float?.isSome

end Numeral

namespace Json

mutual

/-- The greatest number of brackets that are open at once in the written value. -/
def depth : Json → Nat
  | .array items => 1 + itemsDepth items
  | .object members => 1 + membersDepth members
  | .null => 0
  | .bool _ => 0
  | .number _ => 0
  | .string _ => 0

/-- The greatest depth of several values. -/
def itemsDepth : List Json → Nat
  | [] => 0
  | x :: xs => max (depth x) (itemsDepth xs)

/-- The greatest depth of several members. -/
def membersDepth : List (Option String × Json) → Nat
  | [] => 0
  | m :: ms => max (memberDepth m) (membersDepth ms)

/-- The depth of a member's value. -/
def memberDepth : Option String × Json → Nat
  | (_, x) => depth x

end

mutual

/-- Whether every text is a sequence of characters and every number is in range. -/
def isProper : Json → Bool
  | .array items => areProper items
  | .object members => membersProper members
  | .null => true
  | .bool _ => true
  | .number n => n.inRange
  | .string text => text.isSome

/-- Whether several values are proper. -/
def areProper : List Json → Bool
  | [] => true
  | x :: xs => isProper x && areProper xs

/-- Whether several members are proper. -/
def membersProper : List (Option String × Json) → Bool
  | [] => true
  | m :: ms => memberProper m && membersProper ms

/-- Whether a member's name and value are proper. -/
def memberProper : Option String × Json → Bool
  | (name, x) => name.isSome && isProper x

end

end Json

end Cascade
