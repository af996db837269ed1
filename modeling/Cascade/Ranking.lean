import Cascade.Property
import Cascade.Sheet.Catalogue

/-!
# Ranked candidates

Every declaration that reaches an element is a candidate for its property.  The
candidates of one property stand in three groups: inline declarations first, then
rules that apply to the element itself, then rules that apply to an ancestor only.
Within a group the greater specificity stands in front, and of equal ones the one
that came last.

## Main definitions

* `Candidate` — a declaration with what its rank depends on.
* `Ranking` — the candidates of all properties; `Ranking.add`, `Ranking.clear`,
  `Ranking.candidates`.
* `Ranking.winner` — the first candidate that provides a value.
-/

namespace Cascade

/-- Where a declaration stands. -/
inductive Origin where
  /-- On the element. -/
  | inline
  /-- In a rule of a sheet: the sheet, the position of the rule, and its selector. -/
  | rule (sheet : SheetId) (index : Nat) (selector : SelectorId)
  deriving DecidableEq, Inhabited

/-- A declaration that reaches an element. -/
structure Candidate where
  /-- The property. -/
  key : String
  /-- Where the declaration stands. -/
  origin : Origin
  /-- The declaration. -/
  declaration : Declaration
  /-- The rank of its selector. -/
  specificity : Specificity
  /-- Whether the selector applies to the element itself. -/
  exact : Bool
  deriving DecidableEq, Inhabited

/-- The candidates of one property. -/
structure Standing where
  /-- Declarations on the element. -/
  inline : List Candidate := []
  /-- Declarations of rules that apply to the element. -/
  matched : List Candidate := []
  /-- Declarations of rules that apply to an ancestor only. -/
  inherited : List Candidate := []
  deriving DecidableEq, Inhabited

/-- The candidates of one property, the foremost first. -/
def Standing.candidates (s : Standing) : List Candidate := s.inline ++ s.matched ++ s.inherited

namespace Standing

/-- The list with `c` put behind all candidates of greater specificity, and so in
front of those of equal specificity. -/
def place (c : Candidate) : List Candidate → List Candidate
  | [] => [c]
  | x :: xs => if c.specificity.below x.specificity then x :: place c xs else c :: x :: xs

/-- Placing a candidate loses none and adds it alone. -/
theorem place_perm (c : Candidate) (xs : List Candidate) : (place c xs).Perm (c :: xs) := by
  induction xs with
  | nil => exact List.Perm.refl _
  | cons x xs ih =>
    rw [place]
    split
    · exact (ih.cons x).trans (List.Perm.swap c x xs)
    · exact List.Perm.refl _

/-- Puts a candidate into its group. -/
def add (s : Standing) (c : Candidate) : Standing :=
  match c.origin, c.exact with
  | .inline, _ => { s with inline := place c s.inline }
  | .rule .., true => { s with matched := place c s.matched }
  | .rule .., false => { s with inherited := place c s.inherited }

end Standing

/-- The candidates of all properties that have some. -/
structure Ranking where
  /-- The candidates by property. -/
  standings : Table String Standing := {}
  deriving Inhabited

namespace Ranking

/-- Adds a candidate for its property. -/
def add (r : Ranking) (c : Candidate) : Ranking :=
  ⟨r.standings.insert c.key (((r.standings.get? c.key).getD {}).add c)⟩

/-- Drops all candidates. -/
def clear (r : Ranking) : Ranking := ⟨r.standings.filter fun _ _ => false⟩

@[simp] theorem clear_eq (r : Ranking) : r.clear = {} := by
  simp [clear, Table.filter]

/-- The ranking of candidates added one after the other. -/
def ofCandidates (cs : List Candidate) : Ranking := cs.foldl add {}

/-- The candidates of a property, the foremost first. -/
def candidates (r : Ranking) (key : String) : List Candidate :=
  ((r.standings.get? key).getD {}).candidates

/-- Adding a candidate concerns its property alone. -/
@[simp] theorem candidates_add (r : Ranking) (c : Candidate) (key : String) :
    (r.add c).candidates key =
      if c.key = key then (((r.standings.get? c.key).getD {}).add c).candidates
      else r.candidates key := by
  by_cases h : c.key = key <;> simp [add, candidates, h]

/-- The properties that have candidates. -/
def keys (r : Ranking) : List String := r.standings.keys

/-- Whether there is no candidate. -/
def isEmpty (r : Ranking) : Bool := r.standings.isEmpty

end Ranking

/-- Whether a declaration provides a value for a property.  A literal of another
kind does not; a variable does, whatever comes of it. -/
def Declaration.provides (d : Declaration) (p : Property) : Bool :=
  match d.mode, d.payload with
  | .inherited, _ => false
  | .initial, _ => true
  | .given, some (.variable _) => true
  | .given, some (.literal v) => v.kind == p.kind
  | .given, none => false

/-- The foremost candidate that provides a value for a property. -/
def Ranking.winner (r : Ranking) (p : Property) : Option Candidate :=
  (r.candidates p.key).find? fun c => c.declaration.provides p

end Cascade
