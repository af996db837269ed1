import Cascade.Engine.Restyle

/-!
# What a host does with the engine

Elements come and go, move, and change their data; sheets and inline declarations
come and go; overlays are registered and faded.  Each operation first checks
what it is given, then changes the state, then computes the styles that may have
become different.  Results of matching are dropped when element data or links
change, and when a sheet goes whose selectors nobody else may use.
-/

namespace Cascade
namespace Engine

/-- Fails unless `h` is live. -/
def require (g : Engine) (h : Handle) : Except StyleError Unit :=
  if g.forest.contains h then .ok () else .error (.forest (.staleHandle h))

/-! ### Properties -/

/-- Registers a property.  Elements that exist get a value for it at once. -/
def register (g : Engine) (key : String) (initial : Value) (inheritable : Bool) :
    Outcome PropertyId :=
  match g.registry.register? key initial inheritable with
  | none => (.error (.duplicateProperty key), g)
  | some (id, registry) =>
    let g := { g with registry }
    (.ok id, if g.forest.isEmpty then g else g.restyleAll)

/-! ### Elements -/

/-- Adds an element as a root. -/
def insert (g : Engine) (e : Element) : Handle × Engine :=
  let (h, forest) := g.forest.insert e
  (h, flush { g with
    forest
    styles := g.styles.insert h {}
    pending := g.pending ++ [h] })

/-- Drops all that is kept about an element that is gone: its style, its local
sheet, and results of matching. -/
def drop (g : Engine) (h : Handle) : Engine :=
  let catalogue :=
    match (g.styles.get? h).bind (·.localSheet) with
    | some sheet => g.catalogue.remove sheet
    | none => g.catalogue
  { g with catalogue, styles := g.styles.erase h, memo := g.memo.forget h }

/-- Removes an element with its descendants. -/
def destroy (g : Engine) (h : Handle) : Outcome Unit :=
  match g.forest.destroy h with
  | (.error e, forest) => (.error (.forest e), { g with forest })
  | (.ok removed, forest) =>
    let g := removed.foldl drop { g with forest }
    (.ok (), { g with pending := g.pending.filter forest.contains })

/-- Puts an element under another, as its last child. -/
def attach (g : Engine) (child parent : Handle) : Outcome Unit :=
  match g.forest.attach child parent with
  | (.error e, forest) => (.error (.forest e), { g with forest })
  | (.ok (), forest) => (.ok (), ({ g with forest }.forgetMatches).restyle child)

/-- Takes an element from its parent. -/
def detach (g : Engine) (child : Handle) : Outcome Unit :=
  match g.forest.detach child with
  | (.error e, forest) => (.error (.forest e), { g with forest })
  | (.ok _, forest) => (.ok (), ({ g with forest }.forgetMatches).restyle child)

/-- Takes note that the data of an element changed. -/
def noteChange (g : Engine) (h : Handle) : Outcome Unit :=
  match g.require h with
  | .error e => (.error e, g)
  | .ok () => (.ok (), g.forgetMatches.restyle h)

/-- Changes the data of an element without taking note of it; tells whether the
element was there and whether it changed. -/
def editUnnoted (g : Engine) (h : Handle) (c : Element.Edit) : Option Bool × Engine :=
  match g.forest.get? h with
  | none => (none, g)
  | some e =>
    if e.changes c then (some true, { g with forest := g.forest.update h (·.edit c) })
    else (some false, g)

/-- Changes the data of an element, and takes note of it if it really changes. -/
def edit (g : Engine) (h : Handle) (c : Element.Edit) : Outcome Unit :=
  match g.editUnnoted h c with
  | (none, g) => (.error (.forest (.staleHandle h)), g)
  | (some false, g) => (.ok (), g)
  | (some true, g) => g.noteChange h

/-! ### Sheets -/

/-- Gives an element a local sheet in place of the one it has, or takes it away. -/
def assignSheet (g : Engine) (h : Handle) (sheet : Option Sheet) : Outcome (Option SheetId) :=
  match g.require h with
  | .error e => (.error e, g)
  | .ok () =>
    let (id, g) :=
      match sheet with
      | none => (none, g)
      | some sheet =>
        let (id, catalogue, lexicon) := g.catalogue.insertLocal g.lexicon sheet
        (some id, { g with catalogue, lexicon })
    let old := (g.styles.get? h).bind (·.localSheet)
    let g := { g with styles := g.styles.modify h fun s => { s with localSheet := id } }
    let g :=
      match old with
      | some old => { g with catalogue := g.catalogue.remove old }.forgetMatches
      | none => g
    (.ok id, g.restyle h)

/-- Replaces the inline declarations of an element. -/
def setInline (g : Engine) (h : Handle) (inline : List Declaration) : Outcome Unit :=
  match g.require h with
  | .error e => (.error e, g)
  | .ok () =>
    (.ok (), restyle { g with styles := g.styles.modify h fun s => { s with inline } } h)

/-- Adds a global sheet. -/
def addSheet (g : Engine) (sheet : Sheet) : SheetId × Engine :=
  let (id, catalogue, lexicon) := g.catalogue.insertGlobal g.lexicon sheet
  (id, restyleAll { g with catalogue, lexicon })

/-- Removes a global sheet.  Local sheets are out of reach here. -/
def removeSheet (g : Engine) (id : SheetId) : Outcome Unit :=
  match g.catalogue.get? id with
  | none => (.error (.unknownSheet id), g)
  | some sheet =>
    if sheet.owner = .element then (.error (.unknownSheet id), g)
    else (.ok (), ({ g with catalogue := g.catalogue.remove id }.forgetMatches).restyleAll)

/-! ### Overlays -/

/-- Registers an overlay, disabled, on an element that has none of that name.  Only
the element's own style is computed: its values, and so its children, stay as they are. -/
def registerOverlay (g : Engine) (h : Handle) (name : String) : Outcome Unit :=
  match g.require h with
  | .error e => (.error e, g)
  | .ok () =>
    match g.styles.get? h with
    | none => (.ok (), g)
    | some styling =>
      if (styling.overlay? name).isSome then (.ok (), g)
      else
        (.ok (), flush { g with
          styles := g.styles.insert h
            { styling with overlays := styling.overlays ++ [{ name }], freshness := .dirty }
          pending := g.pending ++ [h] })

/-- The overlays with the settings of the first one of a name changed. -/
def setFirst (name : String) (enabled : Bool) (blend : Float32) : List Overlay → List Overlay
  | [] => []
  | o :: os =>
    if o.name = name then o.set enabled blend :: os else o :: setFirst name enabled blend os

/-- Sets an overlay, after registering it if need be.  No style is computed: overlays
are blended in when values are asked for. -/
def setOverlay (g : Engine) (h : Handle) (name : String) (enabled : Bool) (blend : Float32) :
    Outcome Unit :=
  match g.registerOverlay h name with
  | (.error e, g) => (.error e, g)
  | (.ok (), g) =>
    (.ok (), { g with
      styles := g.styles.modify h fun s => { s with overlays := setFirst name enabled blend s.overlays } })

/-! ### Reports -/

/-- Takes the reports collected so far. -/
def takeDiagnostics (g : Engine) : List Diagnostic × Engine :=
  (g.diagnostics, { g with diagnostics := [] })

end Engine
end Cascade
