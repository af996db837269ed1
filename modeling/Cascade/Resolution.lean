import Cascade.Element
import Cascade.Ranking

/-!
# From candidates to values

The winning candidate of a property decides its value: a literal is the value, a
variable passes the question on to the property it names, a reset asks for the
initial value.  Without a winner an inheritable property takes the parent's value
from the snapshot, and failing that the initial value.

Whatever goes wrong on the way is reported and leaves the property at its initial
value: a circle of variables, a variable that is not registered, or a value of
another kind at the end of the way.

## Main definitions

* `Values` — values by property.
* `Diagnostic` — a report.
* `Sources`, `Sources.follow`, `Sources.resolve`, `Sources.resolveAll`.
-/

namespace Cascade

/-- Values by property. -/
abbrev Values := Table String Value

/-- What went wrong with a property. -/
inductive Problem where
  /-- Variables lead back: the properties in the order of the visit, the repeated one last. -/
  | variableCycle (visited : List String)
  /-- A variable names no registered property. -/
  | unknownVariable (name : String)
  /-- Variables lead to a value of another kind. -/
  | typeMismatch (expected found : Kind)
  deriving DecidableEq, Inhabited

/-- A report about a property of an element. -/
structure Diagnostic where
  /-- The element. -/
  element : Handle
  /-- The property. -/
  key : String
  /-- What went wrong. -/
  problem : Problem
  deriving DecidableEq, Inhabited

/-- The wording of a report. -/
def Diagnostic.message (d : Diagnostic) : String :=
  d.element.text ++ ": " ++
    match d.problem with
    | .variableCycle visited =>
      "variable cycle resolving " ++ d.key ++ ": " ++ String.intercalate " -> " visited
    | .unknownVariable name => d.key ++ " references unknown variable " ++ name
    | .typeMismatch expected found =>
      d.key ++ " expected " ++ expected.name ++ ", variable gave " ++ found.name

/-- The values that an element takes over: those of inheritable properties of its parent. -/
def Values.inheritable (parent : Values) (r : Registry) : Values :=
  parent.filter fun k _ => r.isInheritable k

/-- What the values of an element come from. -/
structure Sources where
  /-- The element. -/
  element : Handle
  /-- The registered properties. -/
  registry : Registry
  /-- The candidates. -/
  ranking : Ranking
  /-- The values taken over from the parent. -/
  snapshot : Values

/-- Where variables lead. -/
inductive Destination where
  /-- To a value. -/
  | value (v : Value)
  /-- Back to a property visited before. -/
  | cycle (visited : List String)
  /-- To a name that is not registered. -/
  | unknown (name : String)
  deriving DecidableEq, Inhabited

namespace Sources

/-- The value of a property that nothing provides. -/
def fallback (s : Sources) (p : Property) : Value :=
  if p.inheritable then (s.snapshot.get? p.key).getD p.initial else p.initial

/-- Follows variables from `p` through at most the given number of properties,
after those of `visited`.  As each is visited once and all are registered, one
more than there are registered properties is enough. -/
def follow (s : Sources) : Nat → List String → Property → Destination
  | 0, visited, p => .cycle (visited ++ [p.key])
  | n + 1, visited, p =>
    if p.key ∈ visited then .cycle (visited ++ [p.key])
    else
      match s.ranking.winner p with
      | none => .value (s.fallback p)
      | some c =>
        match c.declaration.mode, c.declaration.payload with
        | .initial, _ => .value p.initial
        | _, some (.literal v) => .value v
        | _, none => .value (s.fallback p)
        | _, some (.variable name) =>
          match s.registry.lookup name with
          | none => .unknown name
          | some q => s.follow n (visited ++ [p.key]) q

/-- Where the variables of a property lead. -/
def destination (s : Sources) (p : Property) : Destination := s.follow (s.registry.size + 1) [] p

/-- The value of a registered property, and the report if something went wrong. -/
def settle (s : Sources) (p : Property) : Value × Option Problem :=
  match s.destination p with
  | .value v => if v.kind = p.kind then (v, none) else (p.initial, some (.typeMismatch p.kind v.kind))
  | .cycle visited => (p.initial, some (.variableCycle visited))
  | .unknown name => (p.initial, some (.unknownVariable name))

/-- The value under a key, if it is registered, with a report if something went wrong. -/
def resolve (s : Sources) (key : String) : Option (Value × Option Diagnostic) :=
  (s.registry.lookup key).map fun p =>
    let (v, problem) := s.settle p
    (v, problem.map fun problem => ⟨s.element, key, problem⟩)

/-- The values of the given properties, and the reports, in order. -/
def resolveEach (s : Sources) (ps : List Property) : Values × List Diagnostic :=
  let answers := ps.filterMap fun p => (s.resolve p.key).map (p.key, ·)
  (.ofList (answers.map fun (k, v, _) => (k, v)), answers.filterMap fun (_, _, d) => d)

/-- The values of all registered properties, and the reports, in the order of registration. -/
def resolveAll (s : Sources) : Values × List Diagnostic := s.resolveEach s.registry.properties

end Sources

end Cascade
