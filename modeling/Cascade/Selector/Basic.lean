import Cascade.Specificity

/-!
# Selectors

A selector says which elements a rule applies to.  A compound such as
`Button.primary:hover` is a conjunction of tests on one element; `a b` and
`a > b` relate an element to an ancestor; a comma separates alternatives.

## Main definitions

* `Selector` — the terms.
* `Selector.specificity` — the rank of a selector.
* `Selector.asksFor` — whether a selector asks for a pseudo-class on its subject.
* `Selector.text` — the written form.
-/

namespace Cascade

/-- A condition on an element in its forest. -/
inductive Selector where
  /-- `*`: every element. -/
  | universal
  /-- `Button`: the type name. -/
  | ofType (name : String)
  /-- `#ok`: the id. -/
  | ofId (name : String)
  /-- `.primary`: a class. -/
  | ofClass (name : String)
  /-- `:hover`: an active pseudo-class. -/
  | ofPseudo (name : String)
  /-- Every term holds. -/
  | all (terms : List Selector)
  /-- `base` holds of the element and `ancestor` of its parent (`direct`) or of some ancestor. -/
  | within (base ancestor : Selector) (direct : Bool)
  /-- Some option holds. -/
  | oneOf (options : List Selector)
  /-- What malformed text means: no element. -/
  | invalid
  deriving Inhabited

namespace Selector

/-! ### Equality -/

mutual

/-- Whether two selectors are the same term. -/
def same : Selector → Selector → Bool
  | .universal, .universal => true
  | .ofType a, .ofType b => a == b
  | .ofId a, .ofId b => a == b
  | .ofClass a, .ofClass b => a == b
  | .ofPseudo a, .ofPseudo b => a == b
  | .all as, .all bs => sameAll as bs
  | .within a c d, .within a' c' d' => same a a' && same c c' && d == d'
  | .oneOf as, .oneOf bs => sameAll as bs
  | .invalid, .invalid => true
  | _, _ => false

/-- Whether two lists of selectors are the same term by term. -/
def sameAll : List Selector → List Selector → Bool
  | [], [] => true
  | a :: as, b :: bs => same a b && sameAll as bs
  | _, _ => false

end

mutual

theorem same_iff : ∀ s t : Selector, same s t = true ↔ s = t
  | .all as, t => by cases t <;> simp [same, sameAll_iff as]
  | .oneOf as, t => by cases t <;> simp [same, sameAll_iff as]
  | .within a c d, t => by cases t <;> simp [same, same_iff a, same_iff c, and_assoc]
  | .universal, t => by cases t <;> simp [same]
  | .ofType _, t => by cases t <;> simp [same]
  | .ofId _, t => by cases t <;> simp [same]
  | .ofClass _, t => by cases t <;> simp [same]
  | .ofPseudo _, t => by cases t <;> simp [same]
  | .invalid, t => by cases t <;> simp [same]

theorem sameAll_iff : ∀ ss ts : List Selector, sameAll ss ts = true ↔ ss = ts
  | [], ts => by cases ts <;> simp [sameAll]
  | s :: ss, ts => by cases ts <;> simp [sameAll, same_iff s, sameAll_iff ss]

end

instance : DecidableEq Selector := fun s t => decidable_of_iff (same s t = true) (same_iff s t)

/-- Whether the selector is what malformed text means. -/
def isInvalid : Selector → Bool
  | .invalid => true
  | _ => false

/-! ### Rank -/

mutual

/-- The rank of a selector.  Conjunctions, relations and alternatives alike add
up their parts. -/
def specificity : Selector → Specificity
  | .universal => .zero
  | .ofType _ => .oneType
  | .ofId _ => .oneId
  | .ofClass _ => .oneClass
  | .ofPseudo _ => .oneClass
  | .all terms => .sum (specificities terms)
  | .within base ancestor _ => base.specificity + ancestor.specificity
  | .oneOf options => .sum (specificities options)
  | .invalid => .zero

/-- The ranks of several selectors. -/
def specificities : List Selector → List Specificity
  | [] => []
  | s :: ss => s.specificity :: specificities ss

end

@[simp] theorem specificities_eq (ss : List Selector) : specificities ss = ss.map specificity := by
  induction ss with
  | nil => rfl
  | cons s ss ih => simp [specificities, ih]

/-! ### Pseudo-classes of the subject -/

mutual

/-- Whether the selector names `:pseudo` among the tests on its subject.  A
pseudo-class in the ancestor part of a relation does not count, and among
alternatives one suffices. -/
def asksFor (pseudo : String) : Selector → Bool
  | .ofPseudo p => p == pseudo
  | .all terms => anyAsksFor pseudo terms
  | .within base _ _ => base.asksFor pseudo
  | .oneOf options => anyAsksFor pseudo options
  | .universal => false
  | .ofType _ => false
  | .ofId _ => false
  | .ofClass _ => false
  | .invalid => false

/-- Whether one of several selectors names `:pseudo`. -/
def anyAsksFor (pseudo : String) : List Selector → Bool
  | [] => false
  | s :: ss => s.asksFor pseudo || anyAsksFor pseudo ss

end

@[simp] theorem anyAsksFor_eq (pseudo : String) (ss : List Selector) :
    anyAsksFor pseudo ss = ss.any (asksFor pseudo) := by
  induction ss with
  | nil => rfl
  | cons s ss ih => simp [anyAsksFor, ih]

/-! ### Written form -/

mutual

/-- The written form: tests of a compound without a gap, an ancestor in front of
what it contains, alternatives between commas. -/
def text : Selector → String
  | .universal => "*"
  | .ofType name => name
  | .ofId name => "#" ++ name
  | .ofClass name => "." ++ name
  | .ofPseudo name => ":" ++ name
  | .all terms => gapless terms
  | .within base ancestor direct => ancestor.text ++ (if direct then " > " else " ") ++ base.text
  | .oneOf [] => ""
  | .oneOf (s :: ss) => s.text ++ afterCommas ss
  | .invalid => "<invalid>"

/-- The written forms of several selectors, one right after the other. -/
def gapless : List Selector → String
  | [] => ""
  | s :: ss => s.text ++ gapless ss

/-- The written forms of several selectors, a comma before each. -/
def afterCommas : List Selector → String
  | [] => ""
  | s :: ss => ", " ++ s.text ++ afterCommas ss

end

end Selector

end Cascade
