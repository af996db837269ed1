import Cascade.Resolution
import Cascade.Scene
import Cascade.Value.Blend

/-!
# Overlays

An overlay is named after a pseudo-class.  It holds the values that the element
would take if the pseudo-class were active on it, of those properties whose value
then comes from a rule that asks for the pseudo-class.  Enabled overlays with a
positive blend factor are blended over the element's own values, one after the
other in the order of registration.

## Main definitions

* `Overlay`, `Overlay.isActive`.
* `combinedValue`, `combine` — values with the active overlays blended in.
* `Overlay.recompute` — the overlay's values from the scene.
-/

namespace Cascade

/-- What an element looks like while a pseudo-class is active, to the degree `blend`. -/
structure Overlay where
  /-- The pseudo-class. -/
  name : String
  /-- Whether the overlay takes part. -/
  enabled : Bool := false
  /-- How far the overlay is faded in, from 0 to 1. -/
  blend : Float32 := 0
  /-- The values. -/
  values : Values := {}
  deriving Inhabited

namespace Overlay

/-- Whether the overlay contributes. -/
def isActive (o : Overlay) : Bool := o.enabled && decide (0 < o.blend)

/-- The overlay with other settings. -/
def set (o : Overlay) (enabled : Bool) (blend : Float32) : Overlay :=
  { o with enabled, blend := clampBlend blend }

/-- A value of an overlay blended onto the value below, or alone if there is none. -/
def onto (o : Overlay) (threshold : Float32) (base : Option Value) (v : Value) : Value :=
  match base with
  | some b => b.blend v o.blend threshold
  | none => v

end Overlay

/-- One value with the active overlays blended over it. -/
def combinedValue (base : Option Value) (overlays : List Overlay) (key : String)
    (threshold : Float32) : Option Value :=
  (overlays.filter (·.isActive)).foldl
    (fun current o =>
      match o.values.get? key with
      | none => current
      | some v => some (o.onto threshold current v))
    base

/-- All values with the active overlays blended over them. -/
def combine (base : Values) (overlays : List Overlay) (threshold : Float32) : Values :=
  (overlays.filter (·.isActive)).foldl
    (fun current o =>
      o.values.entries.foldl
        (fun current (key, v) => current.insert key (o.onto threshold (current.get? key) v))
        current)
    base

/-- Whether a rule behind an origin asks for a pseudo-class on its subject. -/
def Scene.isDeclaredFor (s : Scene) (pseudo : String) : Origin → Bool
  | .inline => false
  | .rule sheet index _ =>
    ((s.catalogue.get? sheet).bind (·.rules[index]?)).any fun r => r.selector.selector.asksFor pseudo

/-- The scene in which a pseudo-class counts as active on the element. -/
def Scene.force (s : Scene) (pseudo : String) : Scene :=
  { s with context := s.context.force s.element pseudo }

/-- The overlay with its values computed anew, and the reports that arose. -/
def Overlay.recompute (o : Overlay) (s : Scene) (snapshot : Values) : Overlay × List Diagnostic :=
  let ranking := (s.force o.name).ranking
  let declared := s.registry.properties.filter fun p =>
    (ranking.winner p).any fun c => s.isDeclaredFor o.name c.origin
  let (values, diagnostics) := Sources.resolveEach ⟨s.element, s.registry, ranking, snapshot⟩ declared
  ({ o with values }, diagnostics)

end Cascade
