import Cascade.Forest.Basic

/-!
# Walks through a forest

Upwards along parents and downwards along children.  A parent chain without
repetition is no longer than the number of slots, and a downward walk without
repetition takes no more steps than that either, so the number of slots bounds
every walk.

## Main definitions

* `Forest.ancestors` — the parent, its parent, and so on.
* `Forest.subtree` — an element and its descendants, parents before children.
* `Forest.roots`, `Forest.pathFromRoot`, `Forest.depth`.
-/

namespace Cascade
namespace Forest

/-- The parent link of `h`. -/
def parent? (t : Forest) (h : Handle) : Option Handle := (t.get? h).bind (·.parent)

/-- At most `n` steps up, starting at `next`. -/
def climb (t : Forest) : Nat → Option Handle → List Handle
  | 0, _ => []
  | _ + 1, none => []
  | n + 1, some h => h :: t.climb n (t.parent? h)

/-- The ancestors of `h`, nearest first. -/
def ancestors (t : Forest) (h : Handle) : List Handle := t.climb t.slots.size (t.parent? h)

/-- At most `n` steps down, where the handles on the stack are still to be visited.
A visited element puts its children in front; a handle that is not live is passed over. -/
def descend (t : Forest) : Nat → List Handle → List Handle
  | 0, _ => []
  | _ + 1, [] => []
  | n + 1, h :: stack =>
    match t.get? h with
    | none => t.descend n stack
    | some e => h :: t.descend n (e.children ++ stack)

/-- `h` and its descendants: each element before its children, children in order. -/
def subtree (t : Forest) (h : Handle) : List Handle := t.descend (t.slots.size + 1) [h]

/-- The elements without a parent, in slot order. -/
def roots (t : Forest) : List Handle := t.handles.filter fun h => (t.parent? h).isNone

/-- The way down to `h`: a root first, `h` last.  Nothing leads to a handle that is not live. -/
def pathFromRoot (t : Forest) (h : Handle) : List Handle :=
  if t.contains h then (t.ancestors h).reverse ++ [h] else []

/-- The number of ancestors. -/
def depth (t : Forest) (h : Handle) : Nat := (t.ancestors h).length

end Forest
end Cascade
