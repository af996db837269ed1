import Cascade.Value.Basic

/-!
# Blending values

Between two values of one gradual kind there is a straight line; between any
other two values there is a switch at a threshold.  The ends of the line are the
two values themselves, bit for bit, whatever the arithmetic in between does.

## Main definitions

* `mix` — the point between two floats, and `Color.mix`, `Vector2.mix`, `mixInt`.
* `Value.mix?` — the point between two values of one gradual kind.
* `Value.blend` — the same, or a switch.
* `clampBlend` — blend factors from 0 to 1.
-/

namespace Cascade

/-- The point at `t` on the way from `a` to `b`. -/
def mix (a b t : Float32) : Float32 := a * (1 - t) + b * t

/-- The point between two colors, channel by channel. -/
def Color.mix (c d : Color) (t : Float32) : Color :=
  ⟨Cascade.mix c.r d.r t, Cascade.mix c.g d.g t, Cascade.mix c.b d.b t, Cascade.mix c.a d.a t⟩

/-- The point between two vectors, component by component. -/
def Vector2.mix (v w : Vector2) (t : Float32) : Vector2 :=
  ⟨Cascade.mix v.x w.x t, Cascade.mix v.y w.y t⟩

/-- An integer as one of 32 bits, or the nearest bound if it is out of range. -/
def clampInt32 (n : Int) : Int32 := Int32.ofInt (max (-0x80000000) (min n 0x7FFFFFFF))

/-- The integer nearest to the point between two integers, computed with 64-bit
floats, which hold every integer of 32 bits; a half goes away from zero. -/
def mixInt (m n : Int32) (t : Float32) : Int32 :=
  let t := widen t
  let x := (BinaryNumber.ofInt m.toInt).toFloat * (1 - t) + (BinaryNumber.ofInt n.toInt).toFloat * t
  match BinaryNumber.ofFloat? x with
  | some x => clampInt32 x.nearestInt
  | none => 0

namespace Value

/-- The point at `t` on the way from `a` to `b`, if both are of one gradual kind.
Before the start and where `t` is no number it is `a`, from the end on `b`. -/
def mix? (a b : Value) (t : Float32) : Option Value :=
  if a.kind ≠ b.kind ∨ a.kind.isGradual = false then none
  else if t.isNaN ∨ t ≤ 0 then some a
  else if 1 ≤ t then some b
  else
    match a, b with
    | .color c, .color d => some (.color (c.mix d t))
    | .float x, .float y => some (.float (Cascade.mix x y t))
    | .int m, .int n => some (.int (mixInt m n t))
    | .vector2 v, .vector2 w => some (.vector2 (v.mix w t))
    | _, _ => none

/-- The blend of `top` onto `base`: gradual where that is possible, else `top` from
the threshold on. -/
def blend (base top : Value) (t threshold : Float32) : Value :=
  (base.mix? top t).getD (if threshold ≤ t then top else base)

end Value

/-- A blend factor brought into the range from 0 to 1; what is not finite becomes 0. -/
def clampBlend (t : Float32) : Float32 :=
  if t.isFinite then (if t < 0 then 0 else if 1 < t then 1 else t) else 0

end Cascade
