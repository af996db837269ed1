import Cascade.Forest.Walk

/-!
# Changing the links of a forest

An element is attached under another, detached from its parent, or destroyed
together with its descendants.  Each operation checks its handles first; it gives
the forest beside its result or its refusal, so that what a refusal leaves behind
is a matter of proof.
-/

namespace Cascade

/-- Why a forest refuses to change. -/
inductive ForestError where
  /-- The handle names no element. -/
  | staleHandle (h : Handle)
  /-- The child is an ancestor of the parent it should go under. -/
  | wouldCreateCycle (child parent : Handle)
  /-- An element should go under itself. -/
  | selfParent (h : Handle)
  deriving DecidableEq

/-- The wording of a refusal. -/
def ForestError.message : ForestError → String
  | .staleHandle h => "Stale or unknown element handle: " ++ h.text
  | .wouldCreateCycle child parent =>
    "Attaching " ++ child.text ++ " under " ++ parent.text ++ " would create a cycle"
  | .selfParent h => "Element " ++ h.text ++ " cannot be its own parent"

namespace Forest

/-- The result of an operation or the refusal, and the forest afterwards. -/
abbrev Outcome (α : Type) : Type := Except ForestError α × Forest

/-- The element behind `h`, or the complaint that there is none. -/
def require (t : Forest) (h : Handle) : Except ForestError Element :=
  match t.get? h with
  | some e => .ok e
  | none => .error (.staleHandle h)

/-- Makes `child` a root, and tells what its parent was. -/
def detach (t : Forest) (child : Handle) : Outcome (Option Handle) :=
  match t.require child with
  | .error e => (.error e, t)
  | .ok element =>
    match element.parent with
    | none => (.ok none, t)
    | some parent =>
      (.ok (some parent),
        (t.update parent fun e =>
            { e with children := e.children.filter fun c => decide (c ≠ child) }).update
          child fun e => { e with parent := none })

/-- Makes `child` the last child of `parent`.  The child is checked before the
parent, and both before their relation. -/
def attach (t : Forest) (child parent : Handle) : Outcome Unit :=
  match t.require child, t.require parent with
  | .error e, _ => (.error e, t)
  | _, .error e => (.error e, t)
  | .ok _, .ok _ =>
    if child = parent then (.error (.selfParent child), t)
    else if child ∈ t.ancestors parent then (.error (.wouldCreateCycle child parent), t)
    else
      match t.detach child with
      | (.error e, t) => (.error e, t)
      | (.ok _, t) =>
        (.ok (), (t.update child fun e => { e with parent := some parent }).update
          parent fun e => { e with children := e.children ++ [child] })

/-- Removes `h` and its descendants, and lists them, each before its children. -/
def destroy (t : Forest) (h : Handle) : Outcome (List Handle) :=
  match t.detach h with
  | (.error e, t) => (.error e, t)
  | (.ok _, t) =>
    let removed := t.subtree h
    (.ok removed, removed.foldl release t)

end Forest
end Cascade
