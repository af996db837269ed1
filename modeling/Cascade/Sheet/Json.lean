import Cascade.Sheet.Basic
import Cascade.Value.Json

/-!
# Style sheets in JSON

Sheets, rules and declarations are records.  The payload of a declaration is read
as a whole before its form is decided, so everything in it has to be proper, even
what is then passed over, and its brackets count against the limit of
`bracketLimit` together with those around it.  A payload with a member
`variableRef` that is a text names a property; any other payload is a literal.

## Main definitions

* `Sheet.ofJsonText?`, `Sheet.toJsonText` — sheets from and to text.
-/

namespace Cascade

/-- How many brackets may be open at once in what is read as a whole. -/
def bracketLimit : Nat := 127

/-- A mode is its bare name. -/
def Mode.ofJson? (j : Json) : Option Mode := j.bareCase?.bind Mode.ofName?

/-- A mode as JSON. -/
def Mode.toJson (m : Mode) : Json := .ofString m.name

namespace Payload

/-- The name in a payload that refers to another property. -/
def variableOfJson? (j : Json) : Option String := do
  match ← j.objectFields? ["variableRef"] with
  | [some name] => name.string?
  | _ => none

/-- Reads a payload inside `outer` open brackets. -/
def ofJson? (outer : Nat) (j : Json) : Option Payload :=
  if j.isProper ∧ outer + j.depth ≤ bracketLimit then
    match variableOfJson? j with
    | some name => some (.variable name)
    | none => (Value.ofJson? j).map .literal
  else none

/-- A payload as JSON. -/
def toJson : Payload → Json
  | .variable name => .ofMembers [("variableRef", .ofString name)]
  | .literal v => v.toJson

end Payload

/-- A payload that may be left out, or be `null`. -/
def payloadField? (outer : Nat) : Option Json → Option (Option Payload)
  | none | some .null => some none
  | some j => (Payload.ofJson? outer j).map some

/-- Reads a declaration inside `outer` open brackets. -/
def Declaration.ofJson? (outer : Nat) (j : Json) : Option Declaration := do
  match ← j.fields? ["key", "valueType", "value"] with
  | [some key, mode, payload] =>
    return ⟨← key.string?, ← Json.orElse Mode.ofJson? .given mode, ← payloadField? (outer + 1) payload⟩
  | _ => none

/-- A declaration as JSON; a payload that is not there is left out. -/
def Declaration.toJson (d : Declaration) : Json :=
  .ofMembers ([("key", .ofString d.key), ("valueType", d.mode.toJson)] ++
    match d.payload with
    | some p => [("value", p.toJson)]
    | none => [])

/-- Reads a rule inside `outer` open brackets. -/
def Rule.ofJson? (outer : Nat) (j : Json) : Option Rule := do
  match ← j.fields? ["selector", "properties"] with
  | [some selector, declarations] =>
    return ⟨← selector.string?,
      ← Json.orElse (Json.list? (Declaration.ofJson? (outer + 2))) [] declarations⟩
  | _ => none

/-- A rule as JSON. -/
def Rule.toJson (r : Rule) : Json :=
  .ofMembers [("selector", .ofString r.selector),
    ("properties", .array (r.declarations.map Declaration.toJson))]

namespace Sheet

/-- Reads a sheet. -/
def ofJson? (j : Json) : Option Sheet := do
  match ← j.fields? ["rules", "isReadOnly", "sortIndex"] with
  | [rules, readOnly, sortIndex] =>
    return ⟨← Json.orElse (Json.list? (Rule.ofJson? 2)) [] rules,
      ← Json.orElse Json.bool? false readOnly, ← Json.orElse Json.int32? 0 sortIndex⟩
  | _ => none

/-- A sheet as JSON. -/
def toJson (s : Sheet) : Json :=
  .ofMembers [("rules", .array (s.rules.map Rule.toJson)), ("isReadOnly", .bool s.readOnly),
    ("sortIndex", .ofInt s.sortIndex.toInt)]

/-- Reads the text of a sheet. -/
def ofJsonText? (text : String) : Option Sheet := (Json.parse? text).bind ofJson?

/-- The text of a sheet, every item on a line of its own. -/
def toJsonText (s : Sheet) : String := s.toJson.render .indented

end Sheet

end Cascade
