import Cascade.Value.Basic

/-!
# Style sheets

A sheet is a list of rules, a rule is the text of a selector with declarations,
and a declaration says how a property gets its value: from a literal, from
another property that it names, from the next source in rank, or from the
property's initial value.  The mode and the payload of a declaration are
independent of each other, and sheets in which they do not fit are allowed.

## Main definitions

* `Declaration`, `Rule`, `Sheet`.
* `Sheet.agrees` — equality in which floats compare as numbers.
-/

namespace Cascade

/-- How a declaration provides a value. -/
inductive Mode where
  /-- By its payload. -/
  | given
  /-- Not at all: the next source in rank on the same element decides. -/
  | inherited
  /-- By the initial value of the property. -/
  | initial
  deriving DecidableEq, Inhabited

/-- What a declaration carries. -/
inductive Payload where
  /-- The value of another property. -/
  | variable (name : String)
  | literal (v : Value)
  deriving DecidableEq, Inhabited

/-- One entry of a rule. -/
structure Declaration where
  /-- The property. -/
  key : String
  /-- How the value is provided. -/
  mode : Mode := .given
  /-- What the value is taken from. -/
  payload : Option Payload := none
  deriving DecidableEq, Inhabited

/-- A selector with what it declares. -/
structure Rule where
  /-- The text of the selector. -/
  selector : String
  /-- The declarations in order. -/
  declarations : List Declaration := []
  deriving DecidableEq, Inhabited

/-- A list of rules with its place among other sheets. -/
structure Sheet where
  /-- The rules in order. -/
  rules : List Rule := []
  /-- Whether the sheet comes with the system rather than from its user. -/
  readOnly : Bool := false
  /-- The place among read-only sheets. -/
  sortIndex : Int32 := 0
  deriving DecidableEq, Inhabited

namespace Mode

/-- The name of a mode. -/
def name : Mode → String
  | .given => "value"
  | .inherited => "inherited"
  | .initial => "initial"

/-- The mode of a name. -/
def ofName? (s : String) : Option Mode :=
  [Mode.given, .inherited, .initial].find? fun m => m.name == s

end Mode

namespace Declaration

/-- Gives a property a literal value. -/
def ofLiteral (key : String) (v : Value) : Declaration := ⟨key, .given, some (.literal v)⟩

/-- Gives a property the value of another one. -/
def ofVariable (key name : String) : Declaration := ⟨key, .given, some (.variable name)⟩

/-- Leaves a property to the next source in rank. -/
def ofInherited (key : String) : Declaration := ⟨key, .inherited, none⟩

/-- Resets a property. -/
def ofInitial (key : String) : Declaration := ⟨key, .initial, none⟩

/-- The property that the payload names. -/
def referent? (d : Declaration) : Option String :=
  match d.payload with
  | some (.variable name) => some name
  | _ => none

/-- The literal that the payload holds. -/
def literal? (d : Declaration) : Option Value :=
  match d.payload with
  | some (.literal v) => some v
  | _ => none

end Declaration

/-! ### Equality as numbers -/

/-- Equality of payloads in which floats compare as numbers. -/
def Payload.agrees : Payload → Payload → Bool
  | .variable a, .variable b => a == b
  | .literal v, .literal w => v.agrees w
  | _, _ => false

/-- Equality of declarations in which floats compare as numbers. -/
def Declaration.agrees (d e : Declaration) : Bool :=
  d.key == e.key && d.mode == e.mode &&
    match d.payload, e.payload with
    | none, none => true
    | some p, some q => p.agrees q
    | _, _ => false

/-- Whether two lists agree item by item. -/
def listAgrees {α : Type} (agrees : α → α → Bool) : List α → List α → Bool
  | [], [] => true
  | x :: xs, y :: ys => agrees x y && listAgrees agrees xs ys
  | _, _ => false

/-- Equality of rules in which floats compare as numbers. -/
def Rule.agrees (r s : Rule) : Bool :=
  r.selector == s.selector && listAgrees Declaration.agrees r.declarations s.declarations

namespace Sheet

/-- Equality of sheets in which floats compare as numbers. -/
def agrees (s t : Sheet) : Bool :=
  listAgrees Rule.agrees s.rules t.rules && s.readOnly == t.readOnly && s.sortIndex == t.sortIndex

/-- The floats in the literals of a sheet. -/
def floats (s : Sheet) : List Float32 :=
  s.rules.flatMap fun r => r.declarations.flatMap fun d => (d.literal?.map Value.floats).getD []

end Sheet

end Cascade
