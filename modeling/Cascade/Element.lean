import Cascade.NameSet

/-!
# Elements and their handles

An element is one node of a user interface: a type name, an optional id, a set
of classes, a set of active pseudo-classes, and its links to a parent and to
children.  Elements live in the slots of a forest (`Cascade.Forest`) and are
named by handles, never held directly, so a handle may outlive its element.

## Main definitions

* `Handle` — a slot number and the generation of the slot.
* `Element` — what a slot holds.
* `Element.Edit`, `Element.edit` — the changes a host makes to element data.
-/

namespace Cascade

/-- The name of an element: a slot, and how often that slot had been emptied
when the element moved in.  A later tenant of the slot has another generation,
so an old handle never names it. -/
structure Handle where
  /-- The slot. -/
  index : UInt32
  /-- The slot's generation at insertion. -/
  generation : UInt32
  deriving DecidableEq, Inhabited

namespace Handle

/-- The text of a handle, such as `e3v1`. -/
def text (h : Handle) : String :=
  "e" ++ toString h.index.toNat ++ "v" ++ toString h.generation.toNat

/-- Handles are ordered by slot, then by generation. -/
def le (h k : Handle) : Bool :=
  decide (h.index < k.index) || (h.index == k.index && decide (h.generation ≤ k.generation))

end Handle

/-- A node of the user interface, as selectors see it, with its links. -/
structure Element where
  /-- What a type selector compares. -/
  typeName : String
  /-- What an id selector compares. -/
  id : Option String := none
  /-- The classes. -/
  classes : NameSet := {}
  /-- The active pseudo-classes, such as `hover`. -/
  pseudoClasses : NameSet := {}
  /-- The parent; a root has none. -/
  parent : Option Handle := none
  /-- The children in order. -/
  children : List Handle := []
  deriving DecidableEq, Inhabited

namespace Element

/-- A change of element data.  Links are changed by the forest only. -/
inductive Edit where
  /-- Sets or clears the id. -/
  | setId (id : Option String)
  | addClass (name : String)
  | removeClass (name : String)
  /-- Switches a pseudo-class on. -/
  | activate (pseudo : String)
  /-- Switches a pseudo-class off. -/
  | deactivate (pseudo : String)
  deriving DecidableEq

/-- The element after an edit. -/
def edit (e : Element) : Edit → Element
  | .setId id => { e with id }
  | .addClass c => { e with classes := e.classes.insert c }
  | .removeClass c => { e with classes := e.classes.erase c }
  | .activate p => { e with pseudoClasses := e.pseudoClasses.insert p }
  | .deactivate p => { e with pseudoClasses := e.pseudoClasses.erase p }

/-- Whether an edit really changes the element, said without carrying it out. -/
def changes (e : Element) : Edit → Bool
  | .setId id => decide (e.id ≠ id)
  | .addClass c => !e.classes.contains c
  | .removeClass c => e.classes.contains c
  | .activate p => !e.pseudoClasses.contains p
  | .deactivate p => e.pseudoClasses.contains p

/-- The element without its links. -/
def unlinked (e : Element) : Element := { e with parent := none, children := [] }

/-- Edits leave the links alone. -/
@[simp] theorem parent_edit (e : Element) (c : Edit) : (e.edit c).parent = e.parent := by
  cases c <;> rfl

@[simp] theorem children_edit (e : Element) (c : Edit) : (e.edit c).children = e.children := by
  cases c <;> rfl

end Element

end Cascade
