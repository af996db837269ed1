import Cascade.Engine.Command
import Cascade.Proofs.Forest.Preorder

/-!
# What operations do

Every operation changes what the host has given, in one place, and then computes the
styles that may have become different.  The relation of this module lists for each
operation what it does to the engine when it does something; all invariants are proved
along this list.

## Main definitions

* `Engine.edited`, `Engine.inserted`, `Engine.destroyed`, `Engine.assigned`, … — the engine
  after a change, with styles not yet computed.
* `Engine.Effect` — what the operations do.

## Main results

* `Engine.attach_eq_ok`, `Engine.edit_of_get?`, `Engine.removeSheet_of_get?`, … — the outcome of
  each operation, when it is refused and when it is not.
* `Engine.effect_after` — **an operation does what is listed.**
-/

namespace Cascade
namespace Engine

variable {g g' : Engine} {h : Handle}

/-! ### Changes -/

/-- Other element data. -/
def edited (g : Engine) (h : Handle) (c : Element.Edit) : Engine :=
  { g with forest := g.forest.update h (·.edit c) }

/-- A new element. -/
def inserted (g : Engine) (e : Element) : Engine :=
  { g with
    forest := (g.forest.insert e).2
    styles := g.styles.insert (g.forest.insert e).1 {}
    pending := g.pending ++ [(g.forest.insert e).1] }

/-- Elements that are gone. -/
def destroyed (g : Engine) (removed : List Handle) (u : Forest) : Engine :=
  let g' := removed.foldl drop { g with forest := u }
  { g' with pending := g'.pending.filter u.contains }

/-- A new local sheet, if there is one, that belongs to no element yet. -/
def filed (g : Engine) : Option Sheet → Option SheetId × Engine
  | none => (none, g)
  | some sheet =>
    (some ⟨g.catalogue.next⟩,
      { g with
        catalogue := (g.catalogue.insertLocal g.lexicon sheet).2.1
        lexicon := (g.catalogue.insertLocal g.lexicon sheet).2.2 })

/-- Another local sheet for an element, or none. -/
def withLocalSheet (g : Engine) (h : Handle) (id : Option SheetId) : Engine :=
  { g with styles := g.styles.modify h fun s => { s with localSheet := id } }

/-- A sheet that is gone, if there is one to go. -/
def withoutSheet (g : Engine) : Option SheetId → Engine
  | none => g
  | some id => { g with catalogue := g.catalogue.remove id }.forgetMatches

/-- A new local sheet for an element in place of the one it has. -/
def assigned (g : Engine) (h : Handle) (sheet : Option Sheet) : Engine :=
  ((g.filed sheet).2.withLocalSheet h (g.filed sheet).1).withoutSheet
    ((g.styles.get? h).bind (·.localSheet))

/-- Other inline declarations. -/
def withInline (g : Engine) (h : Handle) (inline : List Declaration) : Engine :=
  { g with styles := g.styles.modify h fun s => { s with inline } }

/-- A new global sheet. -/
def withGlobal (g : Engine) (sheet : Sheet) : Engine :=
  { g with
    catalogue := (g.catalogue.insertGlobal g.lexicon sheet).2.1
    lexicon := (g.catalogue.insertGlobal g.lexicon sheet).2.2 }

/-- A new overlay, disabled. -/
def overlaid (g : Engine) (h : Handle) (s : Styling) (name : String) : Engine :=
  { g with
    styles := g.styles.insert h
      { s with overlays := s.overlays ++ [{ name }], freshness := .dirty }
    pending := g.pending ++ [h] }

/-- Other settings of an overlay. -/
def withOverlay (g : Engine) (h : Handle) (name : String) (enabled : Bool) (blend : Float32) :
    Engine :=
  { g with
    styles := g.styles.modify h fun s =>
      { s with overlays := setFirst name enabled blend s.overlays } }

/-- Setting an overlay leaves alone what does not depend on its settings. -/
theorem map_setFirst {β : Type} (name : String) (enabled : Bool) (blend : Float32)
    {f : Overlay → β} (hf : ∀ o, f (o.set enabled blend) = f o) (os : List Overlay) :
    (setFirst name enabled blend os).map f = os.map f := by
  -- the first overlay of the name is set, and what stands after it is left as it is
  induction os with
  | nil => rfl
  | cons o os ih =>
    rw [setFirst]
    split
    · rw [List.map_cons, hf, List.map_cons]
    · rw [List.map_cons, ih, List.map_cons]

/-- Dropping elements concerns the sheets, the styles and the memo alone. -/
theorem dropAll_eq (g : Engine) (hs : List Handle) : hs.foldl drop g =
    { g with
      catalogue := (hs.foldl drop g).catalogue
      styles := (hs.foldl drop g).styles
      memo := (hs.foldl drop g).memo } := by
  induction hs generalizing g with
  | nil => rfl
  | cons h hs ih => exact ih (g.drop h)

/-- Elements that go concern the forest, and what is kept about elements. -/
theorem destroyed_eq (g : Engine) (removed : List Handle) (u : Forest) : g.destroyed removed u =
    { g with
      forest := u
      catalogue := (g.destroyed removed u).catalogue
      styles := (g.destroyed removed u).styles
      memo := (g.destroyed removed u).memo
      pending := (g.destroyed removed u).pending } := by
  unfold destroyed
  rw [dropAll_eq]

/-- Assigning a sheet concerns the selectors, the sheets, the styles and the memo alone. -/
theorem assigned_eq (g : Engine) (h : Handle) (sheet : Option Sheet) : g.assigned h sheet =
    { g with
      lexicon := (g.assigned h sheet).lexicon
      catalogue := (g.assigned h sheet).catalogue
      styles := (g.assigned h sheet).styles
      memo := (g.assigned h sheet).memo } := by
  unfold assigned withoutSheet
  cases sheet <;> split <;> rfl

/-! ### The list of effects -/

/-- What the operations do to an engine. -/
inductive Effect (g : Engine) : Command → Engine → Prop
  /-- The operation is refused, or there is nothing to do. -/
  | idle (c : Command) : Effect g c g
  /-- A property is registered before there are elements. -/
  | registerEarly {key : String} {initial : Value} {inheritable : Bool} {id : PropertyId}
    {registry : Registry} : g.registry.register? key initial inheritable = some (id, registry) →
    g.forest.isEmpty = true → Effect g (.register key initial inheritable) { g with registry }
  | register {key : String} {initial : Value} {inheritable : Bool} {id : PropertyId}
    {registry : Registry} : g.registry.register? key initial inheritable = some (id, registry) →
    g.forest.isEmpty = false →
    Effect g (.register key initial inheritable) (restyleAll { g with registry })
  | insert (e : Element) : Effect g (.insert e) (g.inserted e).flush
  | destroy {h : Handle} {removed : List Handle} {u : Forest} :
    g.forest.destroy h = (.ok removed, u) → Effect g (.destroy h) (g.destroyed removed u)
  | attach {child parent : Handle} {u : Forest} : g.forest.attach child parent = (.ok (), u) →
    Effect g (.attach child parent) (({ g with forest := u }.forgetMatches).restyle child)
  | detach {child : Handle} {old : Option Handle} {u : Forest} :
    g.forest.detach child = (.ok old, u) →
    Effect g (.detach child) (({ g with forest := u }.forgetMatches).restyle child)
  | noteChange {h : Handle} : g.forest.contains h = true →
    Effect g (.noteChange h) (g.forgetMatches.restyle h)
  | edit {h : Handle} (c : Element.Edit) : g.forest.contains h = true →
    Effect g (.edit h c) ((g.edited h c).forgetMatches.restyle h)
  | editUnnoted {h : Handle} (c : Element.Edit) : g.forest.contains h = true →
    Effect g (.editUnnoted h c) (g.edited h c)
  | assignSheet {h : Handle} (sheet : Option Sheet) : g.forest.contains h = true →
    Effect g (.assignSheet h sheet) ((g.assigned h sheet).restyle h)
  | setInline {h : Handle} (inline : List Declaration) : g.forest.contains h = true →
    Effect g (.setInline h inline) ((g.withInline h inline).restyle h)
  | addSheet (sheet : Sheet) : Effect g (.addSheet sheet) (g.withGlobal sheet).restyleAll
  | removeSheet {id : SheetId} {sheet : CompiledSheet} : g.catalogue.get? id = some sheet →
    sheet.owner ≠ .element → Effect g (.removeSheet id) (g.withoutSheet (some id)).restyleAll
  | registerOverlay {h : Handle} {s : Styling} {name : String} : g.forest.contains h = true →
    g.styles.get? h = some s → s.overlay? name = none →
    Effect g (.registerOverlay h name) (g.overlaid h s name).flush
  /-- The overlay is registered first, and then set. -/
  | setOverlay {h : Handle} {name : String} {g' : Engine} (enabled : Bool) (blend : Float32) :
    g.forest.contains h = true → Effect g (.registerOverlay h name) g' →
    Effect g (.setOverlay h name enabled blend) (g'.withOverlay h name enabled blend)
  | takeDiagnostics : Effect g .takeDiagnostics { g with diagnostics := [] }

/-! ### The outcome of each operation -/

theorem require_of_contains (hh : g.forest.contains h = true) : g.require h = .ok () := by
  rw [require, if_pos hh]

theorem require_stale (hh : ¬ g.forest.contains h = true) :
    g.require h = .error (.forest (.staleHandle h)) := by
  rw [require, if_neg hh]

theorem register_taken {key : String} {initial : Value} {inheritable : Bool}
    (hr : g.registry.register? key initial inheritable = none) :
    g.register key initial inheritable = (.error (.duplicateProperty key), g) := by
  rw [register, hr]

theorem register_of_some {key : String} {initial : Value} {inheritable : Bool} {id : PropertyId}
    {registry : Registry}
    (hr : g.registry.register? key initial inheritable = some (id, registry)) :
    g.register key initial inheritable =
      (.ok id, if g.forest.isEmpty = true then { g with registry }
        else restyleAll { g with registry }) := by
  rw [register, hr]

section Links

variable {child parent : Handle} {err : ForestError} {u : Forest}

/-- The forest has refused before it changed anything, so the engine is what it was. -/
theorem destroy_eq_error (hd : g.forest.destroy h = (.error err, u)) :
    g.destroy h = (.error (.forest err), g) := by
  obtain rfl := Forest.eq_of_destroy_error hd
  rw [destroy, hd]

theorem destroy_eq_ok {removed : List Handle} (hd : g.forest.destroy h = (.ok removed, u)) :
    g.destroy h = (.ok (), g.destroyed removed u) := by
  rw [destroy, hd]
  rfl

theorem attach_eq_error (ha : g.forest.attach child parent = (.error err, u)) :
    g.attach child parent = (.error (.forest err), g) := by
  obtain rfl := Forest.eq_of_attach_error ha
  rw [attach, ha]

theorem attach_eq_ok (ha : g.forest.attach child parent = (.ok (), u)) :
    g.attach child parent = (.ok (), ({ g with forest := u }.forgetMatches).restyle child) := by
  rw [attach, ha]

theorem detach_eq_error (hd : g.forest.detach child = (.error err, u)) :
    g.detach child = (.error (.forest err), g) := by
  obtain rfl := Forest.eq_of_detach_error hd
  rw [detach, hd]

theorem detach_eq_ok {old : Option Handle} (hd : g.forest.detach child = (.ok old, u)) :
    g.detach child = (.ok (), ({ g with forest := u }.forgetMatches).restyle child) := by
  rw [detach, hd]

end Links

theorem noteChange_stale (hh : ¬ g.forest.contains h = true) :
    g.noteChange h = (.error (.forest (.staleHandle h)), g) := by
  rw [noteChange, require_stale hh]

theorem noteChange_of_contains (hh : g.forest.contains h = true) :
    g.noteChange h = (.ok (), g.forgetMatches.restyle h) := by
  rw [noteChange, require_of_contains hh]

theorem contains_edited (g : Engine) (h k : Handle) (c : Element.Edit) :
    (g.edited h c).forest.contains k = g.forest.contains k := Forest.contains_update _ _ _ _

/-- Data changes behind the engine's back, or nothing does. -/
theorem editUnnoted_cases (g : Engine) (h : Handle) (c : Element.Edit) :
    g.editUnnoted h c = (some true, g.edited h c) ∧ g.forest.contains h = true ∨
      (g.editUnnoted h c).1 ≠ some true ∧ (g.editUnnoted h c).2 = g := by
  unfold editUnnoted
  cases he : g.forest.get? h with
  | none => exact .inr ⟨by simp, rfl⟩
  | some e =>
    by_cases hc : e.changes c = true
    · exact .inl ⟨by simp only [hc, if_true]; rfl, Forest.contains_of_get? he⟩
    · exact .inr ⟨by simp [hc], by simp [hc]⟩

theorem edit_stale (hh : ¬ g.forest.contains h = true) (c : Element.Edit) :
    g.edit h c = (.error (.forest (.staleHandle h)), g) := by
  rw [edit, editUnnoted, Forest.get?_eq_none hh]

/-- An edit that changes the element is noted, and any other does nothing. -/
theorem edit_of_get? {e : Element} (he : g.forest.get? h = some e) (c : Element.Edit) :
    g.edit h c =
      (.ok (), if e.changes c = true then ((g.edited h c).forgetMatches).restyle h else g) := by
  unfold edit editUnnoted
  rw [he]
  by_cases hc : e.changes c = true
  · -- an edit takes no element away, so the note that follows it is accepted
    have hnote : (g.edited h c).noteChange h = _ :=
      noteChange_of_contains ((contains_edited g h h c).trans (Forest.contains_of_get? he))
    simp only [hc, if_true]
    exact hnote
  · simp only [hc]
    rfl

theorem assignSheet_stale (hh : ¬ g.forest.contains h = true) (sheet : Option Sheet) :
    g.assignSheet h sheet = (.error (.forest (.staleHandle h)), g) := by
  unfold assignSheet
  rw [require_stale hh]

theorem assignSheet_of_contains (hh : g.forest.contains h = true) (sheet : Option Sheet) :
    g.assignSheet h sheet = (.ok (g.filed sheet).1, (g.assigned h sheet).restyle h) := by
  unfold assignSheet
  rw [require_of_contains hh]
  -- whether there is a new sheet, and whether there is an old one to go
  cases sheet <;> unfold assigned withoutSheet <;> dsimp only [filed] <;>
    cases (g.styles.get? h).bind (·.localSheet) <;> rfl

theorem setInline_stale (hh : ¬ g.forest.contains h = true) (inline : List Declaration) :
    g.setInline h inline = (.error (.forest (.staleHandle h)), g) := by
  rw [setInline, require_stale hh]

theorem setInline_of_contains (hh : g.forest.contains h = true) (inline : List Declaration) :
    g.setInline h inline = (.ok (), (g.withInline h inline).restyle h) := by
  rw [setInline, require_of_contains hh]
  rfl

/-- A number is not known to the host if it has no sheet, or a local one. -/
theorem removeSheet_unknown {id : SheetId}
    (hid : ∀ sheet, g.catalogue.get? id = some sheet → sheet.owner = .element) :
    g.removeSheet id = (.error (.unknownSheet id), g) := by
  unfold removeSheet
  cases hs : g.catalogue.get? id with
  | none => rfl
  | some sheet => exact if_pos (hid sheet hs)

theorem removeSheet_of_get? {id : SheetId} {sheet : CompiledSheet}
    (hs : g.catalogue.get? id = some sheet) (ho : sheet.owner ≠ .element) :
    g.removeSheet id = (.ok (), (g.withoutSheet (some id)).restyleAll) := by
  unfold removeSheet
  rw [hs]
  exact if_neg ho

theorem registerOverlay_stale (hh : ¬ g.forest.contains h = true) (name : String) :
    g.registerOverlay h name = (.error (.forest (.staleHandle h)), g) := by
  rw [registerOverlay, require_stale hh]

/-- An overlay of a live element is registered unless there is one of the name. -/
theorem registerOverlay_of_contains (hh : g.forest.contains h = true) (name : String) :
    ∃ g', g.registerOverlay h name = (.ok (), g') ∧ Effect g (.registerOverlay h name) g' := by
  -- an overlay that is there already is not registered again, and that is no failure
  unfold registerOverlay
  rw [require_of_contains hh]
  cases hs : g.styles.get? h with
  | none => exact ⟨g, rfl, .idle _⟩
  | some s =>
    cases ho : s.overlay? name with
    | some o => exact ⟨g, by simp [ho], .idle _⟩
    | none => exact ⟨_, by simp only [ho]; rfl, .registerOverlay hh hs ho⟩

theorem setOverlay_stale (hh : ¬ g.forest.contains h = true) (name : String) (enabled : Bool)
    (blend : Float32) :
    g.setOverlay h name enabled blend = (.error (.forest (.staleHandle h)), g) := by
  rw [setOverlay, registerOverlay_stale hh]

theorem setOverlay_of_contains (hh : g.forest.contains h = true) (name : String) (enabled : Bool)
    (blend : Float32) : ∃ g', g.setOverlay h name enabled blend = (.ok (), g') ∧
      Effect g (.setOverlay h name enabled blend) g' := by
  -- registering comes first, whether the overlay is there or not, and it may compute the style
  obtain ⟨g', hg', he⟩ := registerOverlay_of_contains hh name
  rw [setOverlay, hg']
  exact ⟨_, rfl, .setOverlay enabled blend hh he⟩

/-! ### The effect of each operation -/

theorem effect_register (g : Engine) (key : String) (initial : Value) (inheritable : Bool) :
    Effect g (.register key initial inheritable) (g.register key initial inheritable).2 := by
  cases hr : g.registry.register? key initial inheritable with
  | none =>
    rw [register_taken hr]
    exact .idle _
  | some r =>
    rw [register_of_some hr]
    cases he : g.forest.isEmpty with
    | true => exact .registerEarly hr he
    | false => exact .register hr he

theorem effect_destroy (g : Engine) (h : Handle) : Effect g (.destroy h) (g.destroy h).2 := by
  rcases hd : g.forest.destroy h with ⟨e | removed, u⟩
  · rw [destroy_eq_error hd]
    exact .idle _
  · rw [destroy_eq_ok hd]
    exact .destroy hd

theorem effect_attach (g : Engine) (child parent : Handle) :
    Effect g (.attach child parent) (g.attach child parent).2 := by
  rcases ha : g.forest.attach child parent with ⟨e | _, u⟩
  · rw [attach_eq_error ha]
    exact .idle _
  · rw [attach_eq_ok ha]
    exact .attach ha

theorem effect_detach (g : Engine) (child : Handle) :
    Effect g (.detach child) (g.detach child).2 := by
  rcases hd : g.forest.detach child with ⟨e | old, u⟩
  · rw [detach_eq_error hd]
    exact .idle _
  · rw [detach_eq_ok hd]
    exact .detach hd

/-- An operation that is refused for an element that is not live does nothing then. -/
theorem effect_of_contains {α : Type} {c : Command} {o : Outcome α} {e : StyleError}
    (hstale : ¬ g.forest.contains h = true → o = (.error e, g))
    (hlive : g.forest.contains h = true → Effect g c o.2) : Effect g c o.2 := by
  by_cases hh : g.forest.contains h = true
  · exact hlive hh
  · rw [hstale hh]
    exact .idle c

theorem effect_noteChange (g : Engine) (h : Handle) :
    Effect g (.noteChange h) (g.noteChange h).2 := by
  refine effect_of_contains noteChange_stale fun hh => ?_
  rw [noteChange_of_contains hh]
  exact .noteChange hh

theorem effect_edit (g : Engine) (h : Handle) (c : Element.Edit) :
    Effect g (.edit h c) (g.edit h c).2 := by
  refine effect_of_contains (edit_stale · c) fun hh => ?_
  obtain ⟨e, he⟩ := Forest.contains_iff.1 hh
  rw [edit_of_get? he]
  split
  · exact .edit c hh
  · exact .idle _

theorem effect_editUnnoted (g : Engine) (h : Handle) (c : Element.Edit) :
    Effect g (.editUnnoted h c) (g.editUnnoted h c).2 := by
  rcases editUnnoted_cases g h c with ⟨heq, hh⟩ | ⟨-, heq⟩ <;> rw [heq]
  · exact .editUnnoted c hh
  · exact .idle _

theorem effect_assignSheet (g : Engine) (h : Handle) (sheet : Option Sheet) :
    Effect g (.assignSheet h sheet) (g.assignSheet h sheet).2 := by
  refine effect_of_contains (assignSheet_stale · sheet) fun hh => ?_
  rw [assignSheet_of_contains hh]
  exact .assignSheet sheet hh

theorem effect_setInline (g : Engine) (h : Handle) (inline : List Declaration) :
    Effect g (.setInline h inline) (g.setInline h inline).2 := by
  refine effect_of_contains (setInline_stale · inline) fun hh => ?_
  rw [setInline_of_contains hh]
  exact .setInline inline hh

theorem effect_removeSheet (g : Engine) (id : SheetId) :
    Effect g (.removeSheet id) (g.removeSheet id).2 := by
  by_cases hid : ∀ sheet, g.catalogue.get? id = some sheet → sheet.owner = .element
  · rw [removeSheet_unknown hid]
    exact .idle _
  · simp only [not_forall, exists_prop] at hid
    obtain ⟨sheet, hs, ho⟩ := hid
    rw [removeSheet_of_get? hs ho]
    exact .removeSheet hs ho

theorem effect_registerOverlay (g : Engine) (h : Handle) (name : String) :
    Effect g (.registerOverlay h name) (g.registerOverlay h name).2 := by
  refine effect_of_contains (registerOverlay_stale · name) fun hh => ?_
  obtain ⟨g', hg', he⟩ := registerOverlay_of_contains hh name
  rwa [hg']

theorem effect_setOverlay (g : Engine) (h : Handle) (name : String) (enabled : Bool)
    (blend : Float32) :
    Effect g (.setOverlay h name enabled blend) (g.setOverlay h name enabled blend).2 := by
  refine effect_of_contains (setOverlay_stale · name enabled blend) fun hh => ?_
  obtain ⟨g', hg', he⟩ := setOverlay_of_contains hh name enabled blend
  rwa [hg']

/-- **An operation does what is listed.** -/
theorem effect_after (g : Engine) (c : Command) : Effect g c (g.after c) := by
  cases c with
  | register key initial inheritable => exact effect_register g key initial inheritable
  | insert e => exact .insert e
  | destroy h => exact effect_destroy g h
  | attach child parent => exact effect_attach g child parent
  | detach child => exact effect_detach g child
  | noteChange h => exact effect_noteChange g h
  | edit h c => exact effect_edit g h c
  | editUnnoted h c => exact effect_editUnnoted g h c
  | assignSheet h sheet => exact effect_assignSheet g h sheet
  | setInline h inline => exact effect_setInline g h inline
  | addSheet sheet => exact .addSheet sheet
  | removeSheet id => exact effect_removeSheet g id
  | registerOverlay h name => exact effect_registerOverlay g h name
  | setOverlay h name enabled blend => exact effect_setOverlay g h name enabled blend
  | takeDiagnostics => exact .takeDiagnostics

end Engine
end Cascade
