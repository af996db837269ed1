import Cascade.Number.Binary

/-!
# Property values

A property holds one of nine kinds of values.  The kind of a value is decided by
its constructor alone, so a check of kinds never looks inside.

Two relations compare values.  `=` is identity, to the last bit.  `Value.agrees`
compares floats as numbers: zeros of either sign agree, and what is no number
agrees with nothing, not even with itself.

## Main definitions

* `Color`, `Vector2` — the composite values.
* `Kind`, `Value`, `Value.kind`.
* `Value.agrees` — equality as numbers.
-/

namespace Cascade

/-- A color with four channels; the range from 0 to 1 is usual but not enforced. -/
structure Color where
  /-- Red. -/
  r : Float32
  /-- Green. -/
  g : Float32
  /-- Blue. -/
  b : Float32
  /-- Opacity. -/
  a : Float32
  deriving DecidableEq, Inhabited

/-- A vector in the plane. -/
structure Vector2 where
  /-- The horizontal component. -/
  x : Float32
  /-- The vertical component. -/
  y : Float32
  deriving DecidableEq, Inhabited

/-- The kinds of values. -/
inductive Kind where
  | color
  | float
  | int
  | vector2
  | bool
  /-- A keyword out of a closed set. -/
  | keyword
  /-- The path of a picture. -/
  | sprite
  /-- The name of a font. -/
  | font
  | text
  deriving DecidableEq, Inhabited

namespace Kind

/-- Whether values of the kind blend gradually.  The other kinds switch. -/
def isGradual : Kind → Bool
  | .color | .float | .int | .vector2 => true
  | .bool | .keyword | .sprite | .font | .text => false

/-- The name of a kind. -/
def name : Kind → String
  | .color => "color"
  | .float => "float"
  | .int => "int"
  | .vector2 => "vector2"
  | .bool => "bool"
  | .keyword => "enum"
  | .sprite => "sprite"
  | .font => "font"
  | .text => "text"

/-- All kinds. -/
def every : List Kind :=
  [.color, .float, .int, .vector2, .bool, .keyword, .sprite, .font, .text]

/-- The kind of a name. -/
def ofName? (s : String) : Option Kind := every.find? fun k => k.name == s

end Kind

/-- A value of a property. -/
inductive Value where
  | color (c : Color)
  | float (x : Float32)
  | int (n : Int32)
  | vector2 (v : Vector2)
  | bool (b : Bool)
  | keyword (s : String)
  | sprite (path : String)
  | font (name : String)
  | text (s : String)
  deriving DecidableEq, Inhabited

namespace Color

/-- The color of four bytes, each a fraction of 255. -/
def ofBytes (r g b a : UInt8) : Color :=
  ⟨.ofNat r.toNat / 255, .ofNat g.toNat / 255, .ofNat b.toNat / 255, .ofNat a.toNat / 255⟩

/-- Equality as numbers, channel by channel. -/
def agrees (c d : Color) : Bool := c.r == d.r && c.g == d.g && c.b == d.b && c.a == d.a

end Color

/-- Equality as numbers, component by component. -/
def Vector2.agrees (v w : Vector2) : Bool := v.x == w.x && v.y == w.y

namespace Value

/-- The kind of a value. -/
def kind : Value → Kind
  | .color _ => .color
  | .float _ => .float
  | .int _ => .int
  | .vector2 _ => .vector2
  | .bool _ => .bool
  | .keyword _ => .keyword
  | .sprite _ => .sprite
  | .font _ => .font
  | .text _ => .text

/-- Equality of values in which floats compare as numbers. -/
def agrees : Value → Value → Bool
  | .color c, .color d => c.agrees d
  | .float x, .float y => x == y
  | .int m, .int n => m == n
  | .vector2 v, .vector2 w => v.agrees w
  | .bool a, .bool b => a == b
  | .keyword s, .keyword t => s == t
  | .sprite s, .sprite t => s == t
  | .font s, .font t => s == t
  | .text s, .text t => s == t
  | _, _ => false

/-- The number, if the value is a float or an integer. -/
def number? : Value → Option Float32
  | .float x => some x
  | .int n => some (BinaryNumber.ofInt n.toInt).toFloat32
  | _ => none

/-- The color, if the value is one. -/
def color? : Value → Option Color
  | .color c => some c
  | _ => none

/-- The characters, if the value is made of them. -/
def string? : Value → Option String
  | .keyword s | .sprite s | .font s | .text s => some s
  | _ => none

/-- The floats inside a value. -/
def floats : Value → List Float32
  | .color c => [c.r, c.g, c.b, c.a]
  | .float x => [x]
  | .vector2 v => [v.x, v.y]
  | .int _ | .bool _ | .keyword _ | .sprite _ | .font _ | .text _ => []

end Value

end Cascade
