import Cascade.Json.Decode
import Cascade.Json.Writer
import Cascade.Value.Basic

/-!
# Values in JSON

A value is an object with one member: the name of its kind and its content.
Colors and vectors are records; an opacity left out is 1.
-/

namespace Cascade

/-- A kind is its bare name. -/
def Kind.ofJson? (j : Json) : Option Kind := j.bareCase?.bind Kind.ofName?

/-- A kind as JSON. -/
def Kind.toJson (k : Kind) : Json := .ofString k.name

/-- A color is a record of its channels. -/
def Color.ofJson? (j : Json) : Option Color := do
  match ← j.fields? ["r", "g", "b", "a"] with
  | [some r, some g, some b, a] =>
    return ⟨← r.float32?, ← g.float32?, ← b.float32?, ← Json.orElse Json.float32? 1 a⟩
  | _ => none

/-- A color as JSON. -/
def Color.toJson (c : Color) : Json :=
  .ofMembers [("r", .ofFloat32 c.r), ("g", .ofFloat32 c.g), ("b", .ofFloat32 c.b), ("a", .ofFloat32 c.a)]

/-- A vector is a record of its components. -/
def Vector2.ofJson? (j : Json) : Option Vector2 := do
  match ← j.fields? ["x", "y"] with
  | [some x, some y] => return ⟨← x.float32?, ← y.float32?⟩
  | _ => none

/-- A vector as JSON. -/
def Vector2.toJson (v : Vector2) : Json := .ofMembers [("x", .ofFloat32 v.x), ("y", .ofFloat32 v.y)]

namespace Value

/-- The content of a value of a given kind. -/
def ofContent? (k : Kind) (j : Json) : Option Value :=
  match k with
  | .color => (Color.ofJson? j).map .color
  | .float => j.float32?.map .float
  | .int => j.int32?.map .int
  | .vector2 => (Vector2.ofJson? j).map .vector2
  | .bool => j.bool?.map .bool
  | .keyword => j.string?.map .keyword
  | .sprite => j.string?.map .sprite
  | .font => j.string?.map .font
  | .text => j.string?.map .text

/-- The content of a value as JSON. -/
def content : Value → Json
  | .color c => c.toJson
  | .float x => .ofFloat32 x
  | .int n => .ofInt n.toInt
  | .vector2 v => v.toJson
  | .bool b => .bool b
  | .keyword s | .sprite s | .font s | .text s => .ofString s

/-- Reads a value. -/
def ofJson? (j : Json) : Option Value := do
  let (name, content) ← j.case?
  ofContent? (← Kind.ofName? name) content

/-- A value as JSON. -/
def toJson (v : Value) : Json := .ofMembers [(v.kind.name, v.content)]

end Value

end Cascade
