import Cascade.Json.Reader

/-!
# Taking values out of JSON

Records are written as objects, in any order of members, or as arrays of their
fields in order.  A field may be missing if the record has a default for it, but
it may not be repeated, and an array may not be longer than the record; unknown
members are passed over.  One of several named cases is written as an object with
that name as its only member, or as the bare name if the case carries nothing.

## Main definitions

* `Json.string?`, `Json.bool?`, `Json.int32?`, `Json.word64?`, `Json.float32?`, `Json.list?`
* `Json.fields?` — the fields of a record.
* `Json.case?` — the name and the content of one of several cases.
-/

namespace Cascade
namespace Json

/-- The text, if the value is one. -/
def string? : Json → Option String
  | .string text => text
  | _ => none

/-- The truth value, if the value is one. -/
def bool? : Json → Option Bool
  | .bool b => some b
  | _ => none

/-- The integer of 64 bits, if the value is one. -/
def integer? : Json → Option Int
  | .number n => n.integer?
  | _ => none

/-- The signed integer of 32 bits, if the value is one. -/
def int32? (j : Json) : Option Int32 :=
  j.integer?.bind fun n => if -0x80000000 ≤ n ∧ n < 0x80000000 then some (Int32.ofInt n) else none

/-- The natural of 64 bits, if the value is one. -/
def word64? (j : Json) : Option Nat :=
  j.integer?.bind fun n => if 0 ≤ n then some n.toNat else none

/-- The 32-bit float, if the value is a number in range. -/
def float32? : Json → Option Float32
  | .number n => n.float32?
  | _ => none

/-- The items of an array, each taken out by `item?`. -/
def list? {α : Type} (item? : Json → Option α) : Json → Option (List α)
  | .array xs => xs.mapM item?
  | _ => none

/-- The members with proper names. -/
def named? (ms : List (Option String × Json)) : Option (List (String × Json)) :=
  ms.mapM fun (name, x) => name.map (·, x)

/-- The values under a name. -/
def under (name : String) (ms : List (String × Json)) : List Json :=
  ms.filterMap fun (k, x) => if k = name then some x else none

/-- The field of a name among members: missing, there once, or (a fault) repeated. -/
def field? (ms : List (String × Json)) (name : String) : Option (Option Json) :=
  match under name ms with
  | [] => some none
  | [x] => some (some x)
  | _ => none

/-- The fields of a record in an object. -/
def objectFields? (names : List String) : Json → Option (List (Option Json))
  | .object ms => (named? ms).bind fun ms => names.mapM (field? ms)
  | _ => none

/-- The fields of a record in an object or in an array. -/
def fields? (names : List String) : Json → Option (List (Option Json))
  | .array xs =>
    if xs.length ≤ names.length then
      some (xs.map some ++ List.replicate (names.length - xs.length) none)
    else none
  | j => objectFields? names j

/-- A field with a default. -/
def orElse {α : Type} (take? : Json → Option α) (default : α) : Option Json → Option α
  | none => some default
  | some j => take? j

/-- The name and the content of a case with content. -/
def case? : Json → Option (String × Json)
  | .object [(some name, x)] => some (name, x)
  | _ => none

/-- The name of a case without content. -/
def bareCase? : Json → Option String
  | .string text => text
  | .object [(some name, .null)] => some name
  | _ => none

end Json
end Cascade
