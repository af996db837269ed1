import Cascade.Config
import Cascade.Forest.Link
import Cascade.Overlay

/-!
# The styling engine

The engine owns a forest of elements, the registered properties, the sheets, and
for every element its style.  Operations of the host change it; each of them
leaves all styles up to date.  It is a plain value: an operation takes an engine
and gives the engine after it, and its result beside it, so that what a failed
operation leaves behind can be looked at as well.

## Main definitions

* `Styling` — the style of one element.
* `Engine` — the whole state.
* `StyleError` — why an operation fails; `Outcome` — a result with the engine after it.
-/

namespace Cascade

/-- Whether a style is up to date. -/
inductive Freshness where
  /-- Up to date. -/
  | clean
  /-- To be computed anew. -/
  | dirty
  deriving DecidableEq, Inhabited

/-- The style of one element. -/
structure Styling where
  /-- Whether the rest is up to date. -/
  freshness : Freshness := .dirty
  /-- The ranked candidates. -/
  ranking : Ranking := {}
  /-- The values taken over from the parent. -/
  snapshot : Values := {}
  /-- The element's own values, overlays apart. -/
  base : Values := {}
  /-- The overlays in the order of registration. -/
  overlays : List Overlay := []
  /-- The sheet that belongs to the element. -/
  localSheet : Option SheetId := none
  /-- The inline declarations. -/
  inline : List Declaration := []
  /-- How often the style has been computed: a plain number, like all counts of the engine. -/
  recomputed : Nat := 0
  deriving Inhabited

/-- The first overlay of a name. -/
def Styling.overlay? (s : Styling) (name : String) : Option Overlay :=
  s.overlays.find? fun o => o.name == name

/-- The state of the engine.  What it counts, it counts without bound: each count grows only with
work that is done, and no run does work 2⁶⁴ times, so that a count of 64 bits shows the same
number.  The numbers that it hands out, of slots, sheets and selectors, are bounded. -/
structure Engine where
  /-- The settings. -/
  config : Config := {}
  /-- The registered properties. -/
  registry : Registry := {}
  /-- The selectors read so far. -/
  lexicon : Lexicon := {}
  /-- The sheets in use. -/
  catalogue : Catalogue := {}
  /-- The elements. -/
  forest : Forest := {}
  /-- The styles of the elements. -/
  styles : Table Handle Styling := {}
  /-- Results of matching kept. -/
  memo : Memo := {}
  /-- The roots of subtrees with styles to be computed. -/
  pending : List Handle := []
  /-- The reports since they were last taken. -/
  diagnostics : List Diagnostic := []
  /-- How many styles have been computed. -/
  recomputed : Nat := 0
  /-- How many times there was something to compute. -/
  passes : Nat := 0
  /-- How many reports there have been. -/
  reported : Nat := 0
  deriving Inhabited

/-- Why an operation of the engine fails. -/
inductive StyleError where
  /-- The forest refuses. -/
  | forest (cause : ForestError)
  /-- The property is registered already. -/
  | duplicateProperty (key : String)
  /-- No global sheet has the number. -/
  | unknownSheet (id : SheetId)
  deriving DecidableEq

/-- The wording of a failure. -/
def StyleError.message : StyleError → String
  | .forest cause => "Element tree error: " ++ cause.message
  | .duplicateProperty key => "Property already registered: " ++ key
  | .unknownSheet id => "Unknown global stylesheet: " ++ id.text

/-- The result of an operation and the engine after it. -/
abbrev Outcome (α : Type) := Except StyleError α × Engine

/-- An engine with the given settings, if they are valid. -/
def Engine.ofConfig (c : Config) : Except Config.Fault Engine :=
  match c.validate with
  | .ok config => .ok { config }
  | .error e => .error e

end Cascade
