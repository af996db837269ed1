import Cascade.Selector.Lexicon
import Cascade.Sheet.Basic

/-!
# The catalogue of sheets

Sheets in use are numbered, and the selectors of their rules are looked up in the
lexicon.  A sheet is either global, and then either of the system or of a
developer, or local to one element.  Global sheets have an order of precedence:
those of the system first, by their sort index, then those of developers; at
equal rank the order of arrival decides.

## Main definitions

* `CompiledSheet` — a sheet with its selectors read.
* `Catalogue` — the sheets in use.
* `Catalogue.insertGlobal`, `Catalogue.insertLocal`, `Catalogue.remove`.
* `Catalogue.globalOrder` — the global sheets, the least important first.
-/

namespace Cascade

/-- The number of a sheet. -/
structure SheetId where
  /-- The number of sheets before it, modulo 2³². -/
  number : UInt32
  deriving DecidableEq, Inhabited

/-- The text of a sheet number. -/
def SheetId.text (id : SheetId) : String := "sheet#" ++ toString id.number.toNat

/-- Whose a sheet is. -/
inductive SheetOwner where
  /-- The system: a read-only global sheet. -/
  | factory
  /-- A developer: any other global sheet. -/
  | developer
  /-- One element, for itself and its descendants. -/
  | element
  deriving DecidableEq, Inhabited

/-- A rule whose selector has been read. -/
structure CompiledRule where
  /-- The selector with its number. -/
  selector : IndexedSelector
  /-- The declarations in order. -/
  declarations : List Declaration
  deriving DecidableEq, Inhabited

/-- A sheet in use. -/
structure CompiledSheet where
  /-- The number under which the sheet is kept. -/
  id : SheetId
  /-- Whose it is. -/
  owner : SheetOwner
  /-- The place among sheets of the system. -/
  sortIndex : Int32
  /-- The rules in order. -/
  rules : List CompiledRule
  deriving DecidableEq, Inhabited

/-- The sheets in use. -/
structure Catalogue where
  /-- The sheets by number. -/
  sheets : Table SheetId CompiledSheet := {}
  /-- The sheets of the system by ascending sort index, at equal index by arrival. -/
  factory : List SheetId := []
  /-- The sheets of developers by arrival. -/
  developer : List SheetId := []
  /-- The number of the next sheet. -/
  next : UInt32 := 0
  deriving Inhabited

/-- Reads the selectors of rules, one after the other. -/
def compileRules (l : Lexicon) : List Rule → List CompiledRule × Lexicon
  | [] => ([], l)
  | r :: rs =>
    let (selector, l) := l.intern r.selector
    let (rest, l) := compileRules l rs
    (⟨selector, r.declarations⟩ :: rest, l)

namespace Catalogue

/-- The sheet with a number. -/
def get? (c : Catalogue) (id : SheetId) : Option CompiledSheet := c.sheets.get? id

/-- The number of sheets. -/
def size (c : Catalogue) : Nat := c.sheets.size

/-- Whether there is no sheet. -/
def isEmpty (c : Catalogue) : Bool := c.sheets.isEmpty

/-- Adds a sheet without a place in the global order. -/
def compile (c : Catalogue) (l : Lexicon) (sheet : Sheet) (owner : SheetOwner) :
    SheetId × Catalogue × Lexicon :=
  let id : SheetId := ⟨c.next⟩
  let (rules, l) := compileRules l sheet.rules
  (id,
    { c with
      sheets := c.sheets.insert id { id, owner, sortIndex := sheet.sortIndex, rules }
      next := c.next + 1 },
    l)

/-- The sort index under which a sheet of the system stands in the order. -/
def sortIndexOf (c : Catalogue) (id : SheetId) : Int32 := ((c.get? id).map (·.sortIndex)).getD 0

/-- Puts a new sheet of the system behind all whose sort index is not greater. -/
def placeFactory (c : Catalogue) (id : SheetId) (sortIndex : Int32) : List SheetId → List SheetId
  | [] => [id]
  | x :: xs =>
    if c.sortIndexOf x ≤ sortIndex then x :: c.placeFactory id sortIndex xs else id :: x :: xs

/-- Adds a global sheet: of the system if it is read-only, else of a developer. -/
def insertGlobal (c : Catalogue) (l : Lexicon) (sheet : Sheet) : SheetId × Catalogue × Lexicon :=
  if sheet.readOnly then
    let (id, c, l) := c.compile l sheet .factory
    (id, { c with factory := c.placeFactory id sheet.sortIndex c.factory }, l)
  else
    let (id, c, l) := c.compile l sheet .developer
    (id, { c with developer := c.developer ++ [id] }, l)

/-- Adds a sheet that belongs to one element. -/
def insertLocal (c : Catalogue) (l : Lexicon) (sheet : Sheet) : SheetId × Catalogue × Lexicon :=
  c.compile l sheet .element

/-- Removes a sheet.  A number without a sheet changes nothing. -/
def remove (c : Catalogue) (id : SheetId) : Catalogue :=
  if (c.get? id).isSome then
    { c with
      sheets := c.sheets.erase id
      factory := c.factory.filter fun x => decide (x ≠ id)
      developer := c.developer.filter fun x => decide (x ≠ id) }
  else c

/-- The global sheets, the least important first. -/
def globalOrder (c : Catalogue) : List SheetId := c.factory ++ c.developer

end Catalogue

end Cascade
