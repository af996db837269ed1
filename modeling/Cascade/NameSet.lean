/-!
# Sets of names

The classes of an element, and likewise its pseudo-classes, form a set of names.
It is kept as a list in ascending order without repetition, so that equal sets
are equal lists and a listing needs no sorting.  Names are compared code point
by code point, which is also the order of their UTF-8 bytes.
-/

namespace Cascade

/-- A finite set of names. -/
structure NameSet where
  /-- The members. -/
  names : List String := []
  /-- They stand in ascending order, none twice. -/
  ascending : names.Pairwise (· < ·) := by exact List.Pairwise.nil
  deriving DecidableEq

instance : Inhabited NameSet := ⟨{}⟩

namespace NameSet

/-- Puts `x` where the order wants it, unless it is there. -/
def place (x : String) : List String → List String
  | [] => [x]
  | y :: ys => if x < y then x :: y :: ys else if x = y then y :: ys else y :: place x ys

theorem mem_place {x y : String} {ys : List String} : y ∈ place x ys ↔ y = x ∨ y ∈ ys := by
  induction ys with
  | nil => simp [place]
  | cons z zs ih => grind [place]

/-- Placing a name keeps the order: it goes in front of the first greater one. -/
theorem ascending_place {ys : List String} (h : ys.Pairwise (· < ·)) (x : String) :
    (place x ys).Pairwise (· < ·) := by
  induction ys with
  | nil => exact List.pairwise_singleton _ _
  | cons y ys ih =>
    have hy := List.pairwise_cons.1 h
    rw [place]
    split
    · next hxy =>
      refine List.pairwise_cons.2 ⟨fun z hz => ?_, h⟩
      rcases List.mem_cons.1 hz with rfl | hz
      · exact hxy
      · exact String.lt_trans hxy (hy.1 z hz)
    · next hxy =>
      split
      · exact h
      · next hne =>
        have hyx : y < x :=
          Decidable.byContradiction fun hn =>
            hne (String.le_antisymm (String.not_lt.1 hn) (String.not_lt.1 hxy))
        refine List.pairwise_cons.2 ⟨fun z hz => ?_, ih hy.2⟩
        rcases mem_place.1 hz with rfl | hz
        · exact hyx
        · exact hy.1 z hz

/-- Whether `x` is a member. -/
def contains (s : NameSet) (x : String) : Bool := s.names.contains x

/-- Adds `x`. -/
def insert (s : NameSet) (x : String) : NameSet := ⟨place x s.names, ascending_place s.ascending x⟩

/-- Removes `x`. -/
def erase (s : NameSet) (x : String) : NameSet :=
  ⟨s.names.filter fun y => decide (y ≠ x), s.ascending.filter _⟩

/-- The set of the names in a list. -/
def ofList (xs : List String) : NameSet := xs.foldl insert {}

/-- After adding `x` the members are those before and `x`. -/
@[simp] theorem contains_insert (s : NameSet) (x y : String) :
    (s.insert x).contains y = (decide (y = x) || s.contains y) := by
  rw [Bool.eq_iff_iff]
  simp [contains, insert, mem_place]

/-- After removing `x` the members are those before without `x`. -/
@[simp] theorem contains_erase (s : NameSet) (x y : String) :
    (s.erase x).contains y = (s.contains y && decide (y ≠ x)) := by
  rw [Bool.eq_iff_iff]
  simp [contains, erase]

end NameSet

end Cascade
