/-!
# Specificity

The rank of a selector is the number of ids, of classes and pseudo-classes, and
of types that it tests.  Ranks compare lexicographically, so one id outranks
any number of classes.  The three counts stop at 2³² − 1 rather than wrap, so
that a longer selector never ranks below a shorter one.
-/

namespace Cascade

/-- The rank of a selector. -/
structure Specificity where
  /-- Id tests. -/
  ids : UInt32
  /-- Class and pseudo-class tests. -/
  classes : UInt32
  /-- Type tests. -/
  types : UInt32
  deriving DecidableEq, Inhabited

namespace Specificity

/-- The rank of a selector that tests nothing. -/
def zero : Specificity := ⟨0, 0, 0⟩

/-- The rank of one id test. -/
def oneId : Specificity := ⟨1, 0, 0⟩

/-- The rank of one class or pseudo-class test. -/
def oneClass : Specificity := ⟨0, 1, 0⟩

/-- The rank of one type test. -/
def oneType : Specificity := ⟨0, 0, 1⟩

/-- The sum of two counts, or the greatest count if the sum is out of range. -/
def addCount (a b : UInt32) : UInt32 := UInt32.ofNat (min (a.toNat + b.toNat) 0xFFFFFFFF)

@[simp] theorem toNat_addCount (a b : UInt32) :
    (addCount a b).toNat = min (a.toNat + b.toNat) 0xFFFFFFFF := by
  simp only [addCount, UInt32.toNat_ofNat']
  omega

/-- Ranks add up count by count. -/
instance : Add Specificity where
  add v w := ⟨addCount v.ids w.ids, addCount v.classes w.classes, addCount v.types w.types⟩

/-- The rank of several parts together. -/
def sum (ws : List Specificity) : Specificity := ws.foldl (· + ·) zero

/-- The order of ranks: ids decide, then classes, then types. -/
instance : Ord Specificity where
  compare v w :=
    (compare v.ids w.ids).then ((compare v.classes w.classes).then (compare v.types w.types))

/-- Whether `v` ranks strictly below `w`. -/
def below (v w : Specificity) : Bool := compare v w == .lt

/-- Ranks in ascending order. -/
def sorted (ws : List Specificity) : List Specificity := ws.mergeSort fun v w => !w.below v

end Specificity

end Cascade
