import Cascade.Json.Basic
import Cascade.Number.Text

/-!
# Writing JSON

Values are written in one of two layouts: without any blank, or with every item
on a line of its own, two spaces further in than the bracket around it.

Floats are written as the shortest decimal that reads back to them.  Leading
digits from `10 ^ -6` to `10 ^ 12` are written with a point and at least one
digit after it, all others with an exponent, always signed.  Floats that are no
numbers are written `null`.

## Main definitions

* `Json.ofFloat32`, `Json.ofInt`, `Json.ofString` — values from the types they carry.
* `Json.render` — the text of a value.
-/

namespace Cascade

namespace Numeral

/-- The numeral of an integer. -/
def ofInt (n : Int) : Numeral := ⟨decide (n < 0), digitsOf n.natAbs, [], none⟩

/-- The numeral of a decimal: with a point where the leading digit allows it, else
with an exponent. -/
def ofDecimal (negative : Bool) (d : DecimalNumber) : Numeral :=
  let ds := digitsOf d.coefficient
  let leading : Int := d.exponent + (ds.length - 1 : Nat)
  if -6 ≤ leading ∧ leading ≤ 12 then
    match d.positional with
    | (whole, []) => ⟨negative, whole, [.zero], none⟩
    | (whole, fraction) => ⟨negative, whole, fraction, none⟩
  else ⟨negative, ds.take 1, ds.drop 1, some leading⟩

/-- The numeral of a float, if it is a number. -/
def ofFloat32? (x : Float32) : Option Numeral :=
  (BinaryNumber.ofFloat32? x).map fun n =>
    if n.mantissa = 0 then ⟨n.negative, [.zero], [.zero], none⟩
    else ofDecimal n.negative (shortest .toEven n.mantissa n.exponent)

/-- The characters of an exponent. -/
def exponentText : Option Int → List Char
  | none => []
  | some e => 'e' :: (if e < 0 then '-' else '+') :: (digitsOf e.natAbs).map Digit.char

/-- The characters of a numeral. -/
def text (n : Numeral) : List Char :=
  (if n.negative then ['-'] else []) ++ n.whole.map Digit.char ++ fractionText n.fraction ++
    exponentText n.exponent

end Numeral

namespace Json

/-- A float; what is no number becomes `null`. -/
def ofFloat32 (x : Float32) : Json :=
  match Numeral.ofFloat32? x with
  | some n => .number n
  | none => .null

/-- An integer. -/
def ofInt (n : Int) : Json := .number (.ofInt n)

/-- A text. -/
def ofString (s : String) : Json := .string (some s)

/-- An object with the given members. -/
def ofMembers (ms : List (String × Json)) : Json := .object (ms.map fun (k, x) => (some k, x))

/-! ### Texts -/

/-- A hexadecimal digit in lower case. -/
def hexChar (n : Nat) : Char := Char.ofNat (if n < 10 then 48 + n else 87 + n)

/-- The characters that stand for `c` between quotes. -/
def escape (c : Char) : List Char :=
  if c = '"' then ['\\', '"']
  else if c = '\\' then ['\\', '\\']
  else if c = '\x08' then ['\\', 'b']
  else if c = '\t' then ['\\', 't']
  else if c = '\n' then ['\\', 'n']
  else if c = '\x0c' then ['\\', 'f']
  else if c = '\r' then ['\\', 'r']
  else if c.toNat < 0x20 then ['\\', 'u', '0', '0', hexChar (c.toNat / 16), hexChar (c.toNat % 16)]
  else [c]

/-- A text between quotes.  One that is no sequence of characters has no written
form and is left empty. -/
def quote (text : Option String) : List Char :=
  '"' :: ((text.getD "").toList.flatMap escape ++ ['"'])

/-! ### Values -/

/-- Where blanks go. -/
inductive Layout where
  /-- Nowhere. -/
  | compact
  /-- Items on lines of their own, and a space after each colon. -/
  | indented
  deriving DecidableEq

/-- What separates an item at the given depth from what precedes it. -/
def Layout.lineBreak : Layout → Nat → List Char
  | .compact, _ => []
  | .indented, depth => '\n' :: List.replicate (2 * depth) ' '

/-- What separates a member's name from its value. -/
def Layout.colon : Layout → List Char
  | .compact => [':']
  | .indented => [':', ' ']

mutual

/-- The characters of a value inside `depth` brackets. -/
def write (l : Layout) (depth : Nat) : Json → List Char
  | .null => ['n', 'u', 'l', 'l']
  | .bool true => ['t', 'r', 'u', 'e']
  | .bool false => ['f', 'a', 'l', 's', 'e']
  | .number n => n.text
  | .string text => quote text
  | .array [] => ['[', ']']
  | .array (x :: xs) =>
    '[' :: (l.lineBreak (depth + 1) ++ write l (depth + 1) x ++ writeItems l (depth + 1) xs ++
      l.lineBreak depth ++ [']'])
  | .object [] => ['\x7b', '\x7d']
  | .object (m :: ms) =>
    '\x7b' :: (l.lineBreak (depth + 1) ++ writeMember l (depth + 1) m ++
      writeMembers l (depth + 1) ms ++ l.lineBreak depth ++ ['\x7d'])

/-- The characters of the items after a first one. -/
def writeItems (l : Layout) (depth : Nat) : List Json → List Char
  | [] => []
  | x :: xs => ',' :: (l.lineBreak depth ++ write l depth x ++ writeItems l depth xs)

/-- The characters of the members after a first one. -/
def writeMembers (l : Layout) (depth : Nat) : List (Option String × Json) → List Char
  | [] => []
  | m :: ms => ',' :: (l.lineBreak depth ++ writeMember l depth m ++ writeMembers l depth ms)

/-- The characters of a member. -/
def writeMember (l : Layout) (depth : Nat) : Option String × Json → List Char
  | (name, x) => quote name ++ l.colon ++ write l depth x

end

/-- The text of a value. -/
def render (l : Layout) (j : Json) : String := String.ofList (write l 0 j)

end Json

end Cascade
