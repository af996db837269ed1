import Cascade.Forest.Walk
import Cascade.Selector.Basic

/-!
# Matching selectors

Whether a selector applies to an element depends on the element's own data, on
the chain of its ancestors as far as the depth limit allows, and on the
pseudo-class that is treated as active on one element, if any.

## Main definitions

* `MatchContext` — what a match is relative to.
* `Selector.holds` — the selector applies to the element itself.
* `Selector.holdsAbove` — it applies to some ancestor.
-/

namespace Cascade

/-- How many ancestors are looked at if nothing else is said. -/
def defaultAncestorDepth : Nat := 100

/-- What a match is relative to. -/
structure MatchContext where
  /-- The elements. -/
  forest : Forest
  /-- How many ancestors a descendant relation looks at. -/
  maxDepth : Nat := defaultAncestorDepth
  /-- A pseudo-class that counts as active on one element. -/
  forced : Option (Handle × String) := none

namespace MatchContext

/-- The ancestors that a descendant relation looks at, nearest first. -/
def ancestors (ctx : MatchContext) (h : Handle) : List Handle :=
  (ctx.forest.ancestors h).take ctx.maxDepth

/-- The context in which `pseudo` also counts as active on `h`. -/
def force (ctx : MatchContext) (h : Handle) (pseudo : String) : MatchContext :=
  { ctx with forced := some (h, pseudo) }

end MatchContext

namespace Selector

mutual

/-- Whether the selector applies to `h`.  Nothing applies to a handle that is not live. -/
def holds (ctx : MatchContext) (h : Handle) : Selector → Bool
  | .universal => ctx.forest.contains h
  | .ofType name => (ctx.forest.get? h).any fun e => e.typeName == name
  | .ofId name => (ctx.forest.get? h).any fun e => e.id == some name
  | .ofClass name => (ctx.forest.get? h).any fun e => e.classes.contains name
  | .ofPseudo name =>
    (ctx.forest.get? h).any fun e =>
      e.pseudoClasses.contains name || ctx.forced == some (h, name)
  | .all terms => ctx.forest.contains h && holdsAll ctx h terms
  | .within base ancestor direct =>
    ctx.forest.contains h && holds ctx h base &&
      if direct then (ctx.forest.parent? h).any fun p => holds ctx p ancestor
      else (ctx.ancestors h).any fun a => holds ctx a ancestor
  | .oneOf options => ctx.forest.contains h && holdsAny ctx h options
  | .invalid => false

/-- Whether every selector of a list applies to `h`. -/
def holdsAll (ctx : MatchContext) (h : Handle) : List Selector → Bool
  | [] => true
  | s :: ss => holds ctx h s && holdsAll ctx h ss

/-- Whether some selector of a list applies to `h`. -/
def holdsAny (ctx : MatchContext) (h : Handle) : List Selector → Bool
  | [] => false
  | s :: ss => holds ctx h s || holdsAny ctx h ss

end

@[simp] theorem holdsAll_eq (ctx : MatchContext) (h : Handle) (ss : List Selector) :
    holdsAll ctx h ss = ss.all (holds ctx h) := by
  induction ss with
  | nil => rfl
  | cons s ss ih => simp [holdsAll, ih]

@[simp] theorem holdsAny_eq (ctx : MatchContext) (h : Handle) (ss : List Selector) :
    holdsAny ctx h ss = ss.any (holds ctx h) := by
  induction ss with
  | nil => rfl
  | cons s ss ih => simp [holdsAny, ih]

/-- Whether the selector applies to one of the ancestors that are looked at. -/
def holdsAbove (ctx : MatchContext) (h : Handle) (s : Selector) : Bool :=
  (ctx.ancestors h).any fun a => s.holds ctx a

end Selector
end Cascade
