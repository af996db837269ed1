import Cascade.Number.Text
import Cascade.Value.Basic

/-!
# Values as displayed text

Each kind shows in its own brackets, so that most values can be told apart at a
glance; keywords show bare.
-/

namespace Cascade

/-- The displayed text of a value. -/
def Value.display : Value → String
  | .color c =>
    "rgba(" ++ floatText c.r ++ ", " ++ floatText c.g ++ ", " ++ floatText c.b ++ ", " ++
      floatText c.a ++ ")"
  | .float x => floatText x
  | .int n => toString n.toInt
  | .vector2 v => "(" ++ floatText v.x ++ ", " ++ floatText v.y ++ ")"
  | .bool b => if b then "true" else "false"
  | .keyword s => s
  | .sprite path => "sprite(" ++ path ++ ")"
  | .font name => "font(" ++ name ++ ")"
  | .text s => "\"" ++ s ++ "\""

end Cascade
