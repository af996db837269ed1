import Cascade.Value.Basic

/-!
# Registered properties

Only registered properties take part in styling.  Registration fixes the kind of
a property's values, its initial value, and whether children take it over from
their parents; it is never undone.

## Main definitions

* `Property`, `Registry`.
* `Registry.register`, `Registry.lookup`.
-/

namespace Cascade

/-- What is fixed about a property. -/
structure Property where
  /-- The name under which sheets refer to the property. -/
  key : String
  /-- The kind of its values. -/
  kind : Kind
  /-- Whether an element without a value of its own takes over its parent's. -/
  inheritable : Bool
  /-- The value where nothing provides another. -/
  initial : Value
  deriving DecidableEq, Inhabited

/-- The place of a property in the order of registration. -/
structure PropertyId where
  /-- The number of properties registered before it. -/
  number : UInt32
  deriving DecidableEq, Inhabited

/-- The registered properties. -/
structure Registry where
  /-- The properties in the order of registration. -/
  properties : List Property := []
  /-- No key is registered twice. -/
  nodup : (properties.map (·.key)).Nodup := by exact List.nodup_nil
  deriving DecidableEq

instance : Inhabited Registry := ⟨{}⟩

namespace Registry

/-- The property under a key. -/
def lookup (r : Registry) (key : String) : Option Property :=
  r.properties.find? fun p => p.key == key

/-- Whether a key is registered. -/
def contains (r : Registry) (key : String) : Bool := (r.lookup key).isSome

/-- Whether a key is registered as inheritable. -/
def isInheritable (r : Registry) (key : String) : Bool := (r.lookup key).any (·.inheritable)

/-- The property with a number. -/
def get? (r : Registry) (id : PropertyId) : Option Property := r.properties[id.number.toNat]?

/-- The number of properties. -/
def size (r : Registry) : Nat := r.properties.length

/-- Whether nothing is registered. -/
def isEmpty (r : Registry) : Bool := r.properties.isEmpty

/-- A key is registered exactly if some property has it. -/
theorem contains_iff {r : Registry} {key : String} :
    r.contains key = true ↔ key ∈ r.properties.map (·.key) := by
  simp [contains, lookup]

theorem nodup_append {r : Registry} {p : Property} (h : ¬ r.contains p.key = true) :
    ((r.properties ++ [p]).map (·.key)).Nodup := by
  rw [contains_iff] at h
  rw [List.map_append, List.nodup_append]
  refine ⟨r.nodup, by simp, fun a ha b hb => ?_⟩
  rw [List.map_singleton, List.mem_singleton] at hb
  subst hb
  exact fun hab => h (hab ▸ ha)

/-- Registers a property, whose kind is that of its initial value; none if the key is taken. -/
def register? (r : Registry) (key : String) (initial : Value) (inheritable : Bool) :
    Option (PropertyId × Registry) :=
  let p : Property := { key, kind := initial.kind, inheritable, initial }
  if h : r.contains p.key = true then none
  else some (⟨UInt32.ofNat r.size⟩, ⟨r.properties ++ [p], nodup_append h⟩)

end Registry

end Cascade
