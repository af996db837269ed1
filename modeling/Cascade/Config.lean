import Cascade.Json.Decode
import Cascade.Json.Writer
import Cascade.Number.Text
import Cascade.Selector.Matching

/-!
# Engine settings

What a host may choose: how many ancestors a descendant relation looks at, where
values that do not blend gradually switch, and whether results of matching are
kept.
-/

namespace Cascade

/-- The settings of an engine. -/
structure Config where
  /-- How many ancestors a descendant relation looks at. -/
  maxAncestorDepth : Nat := defaultAncestorDepth
  /-- The blend factor from which a value that does not blend gradually is the overlay's. -/
  switchThreshold : Float32 := 0.5
  /-- Whether results of matching are kept. -/
  memoize : Bool := true
  deriving DecidableEq, Inhabited

namespace Config

/-- Why settings are refused. -/
inductive Fault where
  /-- The text does not describe settings. -/
  | malformed
  /-- No ancestor would be looked at. -/
  | zeroDepth
  /-- The threshold is no blend factor. -/
  | thresholdOutOfRange (threshold : Float32)

/-- The wording of a refusal. -/
def Fault.message : Fault → String
  | .malformed => "JSON error"
  | .zeroDepth => "Invalid configuration: maxAncestorDepth must be at least 1"
  | .thresholdOutOfRange x =>
    "Invalid configuration: discreteBlendThreshold " ++ floatText x ++ " outside [0, 1]"

/-- The settings themselves, if the depth is positive and the threshold between 0 and 1. -/
def validate (c : Config) : Except Fault Config :=
  if c.maxAncestorDepth = 0 then .error .zeroDepth
  else if 0 ≤ c.switchThreshold ∧ c.switchThreshold ≤ 1 then .ok c
  else .error (.thresholdOutOfRange c.switchThreshold)

/-- Settings are a record in which every field has a default. -/
def ofJson? (j : Json) : Option Config := do
  match ← j.fields? ["maxAncestorDepth", "discreteBlendThreshold", "memoizeMatches"] with
  | [depth, threshold, memoize] =>
    return ⟨← Json.orElse Json.word64? ({} : Config).maxAncestorDepth depth,
      ← Json.orElse Json.float32? ({} : Config).switchThreshold threshold,
      ← Json.orElse Json.bool? ({} : Config).memoize memoize⟩
  | _ => none

/-- Settings as JSON. -/
def toJson (c : Config) : Json :=
  .ofMembers [("maxAncestorDepth", .ofInt c.maxAncestorDepth),
    ("discreteBlendThreshold", .ofFloat32 c.switchThreshold), ("memoizeMatches", .bool c.memoize)]

/-- Reads and checks the text of settings. -/
def ofJsonText (text : String) : Except Fault Config :=
  match (Json.parse? text).bind ofJson? with
  | some c => c.validate
  | none => .error .malformed

end Config

end Cascade
