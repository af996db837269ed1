import Cascade.Ranking
import Cascade.Selector.Matching
import Cascade.Selector.Memo

/-!
# One pass of the cascade

A scene is all that decides which declarations reach one element: the forest
around it, the sheets, its inline declarations and the registered properties.
The rules of the global sheets come first, then those of local sheets from the
root down, then the inline declarations; each registered property of a rule that
applies becomes a candidate, but only an inheritable one if the rule applies to
an ancestor alone.

## Main definitions

* `Scene`, `Scene.rules` — the rules in the order in which they are looked at.
* `Scene.reach`, `Scene.reachMemo` — how a rule applies, worked out or remembered.
* `Scene.ranking`, `Scene.rankingMemo` — the ranked candidates.
* `Scene.recalculate` — filling a ranking anew.
-/

namespace Cascade

/-- All that decides which declarations reach an element. -/
structure Scene where
  /-- The element. -/
  element : Handle
  /-- What selectors are matched against. -/
  context : MatchContext
  /-- The sheets in use. -/
  catalogue : Catalogue
  /-- The local sheets on the way from the root to the element. -/
  localSheets : List SheetId
  /-- The declarations on the element. -/
  inline : List Declaration
  /-- The registered properties. -/
  registry : Registry

/-- A rule with its place. -/
structure PlacedRule where
  /-- The sheet. -/
  sheet : SheetId
  /-- The position in the sheet. -/
  index : Nat
  /-- The rule. -/
  rule : CompiledRule
  deriving DecidableEq, Inhabited

namespace Scene

/-- The rules of a sheet; a number without a sheet has none. -/
def rulesOf (s : Scene) (id : SheetId) : List PlacedRule :=
  match s.catalogue.get? id with
  | none => []
  | some sheet => sheet.rules.zipIdx.map fun (rule, index) => ⟨id, index, rule⟩

/-- The rules in the order in which they are looked at. -/
def rules (s : Scene) : List PlacedRule :=
  (s.catalogue.globalOrder ++ s.localSheets).flatMap s.rulesOf

/-! ### How rules apply -/

/-- The answer to a question about a selector. -/
def answer (s : Scene) (selector : Selector) : Question → Bool
  | .itself => selector.holds s.context s.element
  | .above => selector.holdsAbove s.context s.element

/-- How a selector applies: the first question with the answer yes, if any. -/
def reach (s : Scene) (selector : Selector) : Option Question :=
  if selector.isInvalid then none
  else if s.answer selector .itself then some .itself
  else if s.answer selector .above then some .above
  else none

/-- The same by way of the memo.  A malformed selector is not asked about. -/
def reachMemo (s : Scene) (m : Memo) (i : IndexedSelector) : Option Question × Memo :=
  if i.selector.isInvalid then (none, m)
  else
    match m.ask ⟨i.id, s.element, .itself⟩ fun _ => s.answer i.selector .itself with
    | (true, m) => (some .itself, m)
    | (false, m) =>
      match m.ask ⟨i.id, s.element, .above⟩ fun _ => s.answer i.selector .above with
      | (true, m) => (some .above, m)
      | (false, m) => (none, m)

/-- The rules that apply, and how. -/
def applying (s : Scene) : List (PlacedRule × Question) :=
  s.rules.filterMap fun r => (s.reach r.rule.selector.selector).map (r, ·)

/-- The rules among `rs` that apply, and how, by way of the memo. -/
def applyingMemo (s : Scene) (m : Memo) : List PlacedRule → List (PlacedRule × Question) × Memo
  | [] => ([], m)
  | r :: rs =>
    match s.reachMemo m r.rule.selector with
    | (none, m) => s.applyingMemo m rs
    | (some q, m) =>
      let (rest, m) := s.applyingMemo m rs
      ((r, q) :: rest, m)

/-! ### Candidates -/

/-- The candidate of a declaration in a rule that applies. -/
def candidate? (s : Scene) (r : PlacedRule) (q : Question) (d : Declaration) : Option Candidate :=
  match s.registry.lookup d.key with
  | none => none
  | some p =>
    if q = .above ∧ p.inheritable = false then none
    else
      some
        { key := d.key
          origin := .rule r.sheet r.index r.rule.selector.id
          declaration := d
          specificity := r.rule.selector.selector.specificity
          exact := decide (q = .itself) }

/-- The candidate of an inline declaration. -/
def inlineCandidate? (s : Scene) (d : Declaration) : Option Candidate :=
  if s.registry.contains d.key then
    some { key := d.key, origin := .inline, declaration := d, specificity := .zero, exact := true }
  else none

/-- All candidates, in the order in which they are looked at. -/
def candidates (s : Scene) (applying : List (PlacedRule × Question)) : List Candidate :=
  (applying.flatMap fun (r, q) => r.rule.declarations.filterMap (s.candidate? r q)) ++
    s.inline.filterMap s.inlineCandidate?

/-- The ranked candidates. -/
def ranking (s : Scene) : Ranking := .ofCandidates (s.candidates s.applying)

/-- Fills a ranking anew: whatever it holds goes, and the candidates of the scene are added. -/
def recalculate (s : Scene) (before : Ranking) : Ranking :=
  (s.candidates s.applying).foldl .add before.clear

/-- What a ranking held before makes no difference. -/
theorem recalculate_eq (s : Scene) (before : Ranking) : s.recalculate before = s.ranking := by
  rw [recalculate, Ranking.clear_eq]
  rfl

/-- The ranked candidates by way of the memo. -/
def rankingMemo (s : Scene) (m : Memo) : Ranking × Memo :=
  let (applying, m) := s.applyingMemo m s.rules
  (.ofCandidates (s.candidates applying), m)

end Scene

end Cascade
