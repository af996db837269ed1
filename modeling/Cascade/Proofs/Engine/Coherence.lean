import Cascade.Proofs.Engine.Operations
import Cascade.Proofs.Engine.Restyled
import Cascade.Proofs.Sheet.Shelf

/-!
# The books of the engine

The forest is sound, exactly its elements have styles, the lexicon and the catalogue are
in order, and local sheets belong to one element each.  Every operation keeps all this,
as long as the numbers it hands out fit.

## Main definitions

* `Engine.Booked` — the books about sheets.
* `Engine.Coherent` — the books about sheets and elements.
* `Engine.Unwrapped` — the numbers handed out in one step fit.

## Main results

* `Engine.Coherent.restyled` — computing styles keeps the books.
* `Engine.Coherent.after` — **every operation keeps the books.**
-/

namespace Cascade
namespace Engine

variable {g g' : Engine} {h k : Handle} {id : SheetId}

/-- The lexicon and the catalogue are in order; a local sheet in use is there, it is marked as
local, and it belongs to one element. -/
structure Booked (g : Engine) : Prop where
  lexicon : g.lexicon.Numbered
  filed : g.catalogue.Filed g.lexicon
  localSheet : ∀ {h id}, g.localSheet? h = some id →
    ∃ sheet, g.catalogue.get? id = some sheet ∧ sheet.owner = .element
  distinct : ∀ {h k id}, g.localSheet? h = some id → g.localSheet? k = some id → h = k

/-- Besides, the forest is sound and exactly its elements have styles. -/
structure Coherent (g : Engine) : Prop extends Booked g where
  forest : g.forest.Sound
  isSome_styles : ∀ h, (g.styles.get? h).isSome = g.forest.contains h

theorem coherent_empty (c : Config) : Coherent { config := c } where
  lexicon := Lexicon.numbered_empty
  filed := Catalogue.filed_empty
  localSheet := fun h => by cases h
  distinct := fun h => by cases h
  forest := ⟨Forest.slotted_empty, Forest.linked_empty⟩
  isSome_styles := fun _ => rfl

/-- The numbers of slots, texts and sheets that an engine hands out on the way to another fit
into their counters: there are slots and texts for all numbers, and the number of the next
sheet has not started over. -/
structure Unwrapped (g g' : Engine) : Prop where
  slots : g'.forest.slots.size ≤ 2 ^ 32
  texts : g'.lexicon.size ≤ 2 ^ 32
  sheets : g.catalogue.next ≤ g'.catalogue.next

namespace Unwrapped

theorem of_restyle (hw : g.Unwrapped (g'.restyle h)) : g.Unwrapped g' where
  slots := forest_restyle g' h ▸ hw.slots
  texts := lexicon_restyle g' h ▸ hw.texts
  sheets := catalogue_restyle g' h ▸ hw.sheets

theorem of_restyleAll (hw : g.Unwrapped g'.restyleAll) : g.Unwrapped g' where
  slots := forest_restyleAll g' ▸ hw.slots
  texts := lexicon_restyleAll g' ▸ hw.texts
  sheets := catalogue_restyleAll g' ▸ hw.sheets

theorem of_flush (hw : g.Unwrapped g'.flush) : g.Unwrapped g' where
  slots := (restyled_flush g').forest ▸ hw.slots
  texts := (restyled_flush g').lexicon ▸ hw.texts
  sheets := (restyled_flush g').catalogue ▸ hw.sheets

end Unwrapped

/-! ### What the books depend on -/

theorem Booked.congr (hg : g.Booked) (hl : g'.lexicon = g.lexicon)
    (hc : g'.catalogue = g.catalogue) (hs : ∀ h, g'.localSheet? h = g.localSheet? h) :
    g'.Booked where
  lexicon := hl ▸ hg.lexicon
  filed := hl ▸ hc ▸ hg.filed
  localSheet := fun hh => by
    rw [hc]
    exact hg.localSheet (by rwa [← hs])
  distinct := fun hh hk => hg.distinct (by rwa [← hs]) (by rwa [← hs])

theorem Coherent.styled (hg : g.Coherent) : g.Styled := fun h hh => by rw [hg.isSome_styles, hh]

theorem Coherent.linked (hg : g.Coherent) : g.forest.Linked := hg.forest.linked

theorem Coherent.exists_styling (hg : g.Coherent) (hh : g.forest.contains h = true) :
    ∃ s, g.styles.get? h = some s := Option.isSome_iff_exists.1 (hg.styled h hh)

theorem Coherent.contains_of_get? (hg : g.Coherent) {s : Styling} (hs : g.styles.get? h = some s) :
    g.forest.contains h = true := by
  rw [← hg.isSome_styles, hs, Option.isSome_some]

theorem Coherent.get?_eq_none (hg : g.Coherent) (hh : ¬ g.forest.contains h = true) :
    g.styles.get? h = none := by
  rw [← hg.isSome_styles] at hh
  simpa using hh

/-- **Computing styles keeps the books.** -/
theorem Coherent.restyled (hg : g.Coherent) (hr : g.Restyled g') : g'.Coherent where
  toBooked := hg.toBooked.congr hr.lexicon hr.catalogue hr.localSheet?_eq
  forest := hr.forest ▸ hg.forest
  isSome_styles := fun h => by rw [hr.isSome_eq, hr.forest, hg.isSome_styles]

/-- What is computed, and the properties and the reports, are none of the books' business. -/
theorem Coherent.congr (hg : g.Coherent) (hl : g'.lexicon = g.lexicon)
    (hc : g'.catalogue = g.catalogue) (hf : g'.forest = g.forest) (hs : g'.styles = g.styles) :
    g'.Coherent where
  toBooked := hg.toBooked.congr hl hc fun h => by rw [localSheet?, localSheet?, hs]
  forest := hf ▸ hg.forest
  isSome_styles := fun h => by rw [hs, hf, hg.isSome_styles]

theorem Coherent.restyle (hg : g.Coherent) (h : Handle) : (g.restyle h).Coherent :=
  hg.restyled (restyled_restyle hg.linked hg.styled h)

theorem Coherent.restyleAll (hg : g.Coherent) : g.restyleAll.Coherent :=
  hg.restyled (restyled_restyleAll hg.linked hg.styled)

theorem Coherent.flush (hg : g.Coherent) : g.flush.Coherent := hg.restyled (restyled_flush g)

/-! ### Changes of the forest -/

/-- Elements may move and change their data. -/
theorem Coherent.withForest (hg : g.Coherent) {u : Forest} (hu : u.Sound)
    (hc : ∀ k, u.contains k = g.forest.contains k) : Coherent { g with forest := u } where
  toBooked := hg.toBooked.congr rfl rfl fun _ => rfl
  forest := hu
  isSome_styles := fun h => (hg.isSome_styles h).trans (hc h).symm

theorem Coherent.get?_insert_fst (hg : g.Coherent) (e : Element)
    (hsz : (g.forest.insert e).2.slots.size ≤ 2 ^ 32) :
    g.styles.get? (g.forest.insert e).1 = none :=
  hg.get?_eq_none (Forest.contains_insert_fst (hg.forest.slotted.ready hsz) e)

theorem get?_inserted (g : Engine) (e : Element) (k : Handle) :
    (g.inserted e).styles.get? k =
      if (g.forest.insert e).1 = k then some {} else g.styles.get? k :=
  Table.get?_insert _ _ _ _

/-- The new element has no local sheet, and had none while it was not live. -/
theorem Coherent.localSheet?_inserted (hg : g.Coherent) (e : Element)
    (hsz : (g.forest.insert e).2.slots.size ≤ 2 ^ 32) (k : Handle) :
    (g.inserted e).localSheet? k = g.localSheet? k := by
  rw [localSheet?, localSheet?, get?_inserted]
  split
  · next hk =>
    rw [← hk, hg.get?_insert_fst e hsz]
    rfl
  · rfl

theorem Coherent.inserted (hg : g.Coherent) (e : Element) (hw : g.Unwrapped (g.inserted e)) :
    (g.inserted e).Coherent := by
  have hsz : (g.forest.insert e).2.slots.size ≤ 2 ^ 32 := hw.slots
  refine ⟨hg.toBooked.congr rfl rfl (hg.localSheet?_inserted e hsz), ?_, ?_⟩
  · exact ⟨hg.forest.slotted.insert e hsz, hg.linked.insert hg.forest.slotted.tallied e⟩
  · intro k
    rw [get?_inserted, Bool.eq_iff_iff]
    show _ ↔ (g.forest.insert e).2.contains k = true
    rw [Forest.contains_insert (hg.forest.slotted.ready hsz), ← hg.isSome_styles]
    split
    · next hk => exact iff_of_true rfl (.inl hk.symm)
    · next hk => simp [Ne.symm hk]

theorem Coherent.attached (hg : g.Coherent) {child parent : Handle} {u : Forest}
    (ha : g.forest.attach child parent = (.ok (), u)) : Coherent { g with forest := u } :=
  hg.withForest ⟨hg.forest.slotted.attach ha, hg.linked.attach ha⟩ (Forest.contains_attach ha)

theorem Coherent.detached (hg : g.Coherent) {child : Handle} {old : Option Handle} {u : Forest}
    (hd : g.forest.detach child = (.ok old, u)) : Coherent { g with forest := u } :=
  hg.withForest ⟨hg.forest.slotted.detach hd, hg.linked.detach hd⟩ (Forest.contains_detach hd)

theorem Coherent.edited (hg : g.Coherent) (h : Handle) (c : Element.Edit) :
    (g.edited h c).Coherent :=
  hg.withForest ⟨hg.forest.slotted.update h _, hg.linked.edit h c⟩ (contains_edited g h · c)

/-! ### Changes of the sheets -/

/-- A sheet that is local to no element may go. -/
theorem Booked.removeSheet (hg : g.Booked) (hid : ∀ h, g.localSheet? h ≠ some id) :
    Booked { g with catalogue := g.catalogue.remove id } where
  lexicon := hg.lexicon
  filed := hg.filed.remove id
  localSheet := fun {h id'} hh => by
    have hne : id ≠ id' := fun he => hid h (he ▸ hh)
    show ∃ sheet, (g.catalogue.remove id).get? id' = some sheet ∧ _
    rw [Catalogue.get?_remove, if_neg hne]
    exact hg.localSheet hh
  distinct := hg.distinct

theorem Coherent.removeSheet (hg : g.Coherent) (hid : ∀ h, g.localSheet? h ≠ some id) :
    Coherent { g with catalogue := g.catalogue.remove id } where
  toBooked := hg.toBooked.removeSheet hid
  forest := hg.forest
  isSome_styles := hg.isSome_styles

/-- The catalogue and the lexicon may grow, if the sheets in use stay. -/
theorem Coherent.withCatalogue (hg : g.Coherent) {c : Catalogue} {l : Lexicon}
    (hl : l.Numbered) (hc : c.Filed l)
    (hget : ∀ id sheet, g.catalogue.get? id = some sheet → c.get? id = some sheet) :
    Coherent { g with catalogue := c, lexicon := l } where
  lexicon := hl
  filed := hc
  localSheet := fun hh => by
    obtain ⟨sheet, hs, ho⟩ := hg.localSheet hh
    exact ⟨sheet, hget _ _ hs, ho⟩
  distinct := hg.distinct
  forest := hg.forest
  isSome_styles := hg.isSome_styles

theorem localSheet?_modify (g : Engine) (h : Handle) (f : Styling → Styling) (k : Handle) :
    localSheet? { g with styles := g.styles.modify h f } k =
      if h = k then (g.styles.get? h).bind fun s => (f s).localSheet else g.localSheet? k := by
  show ((g.styles.modify h f).get? k).bind _ = _
  rw [Table.get?_modify]
  split
  · rw [Option.bind_map]
    rfl
  · rfl

theorem isSome_modify (styles : Table Handle Styling) (h : Handle) (f : Styling → Styling)
    (k : Handle) : ((styles.modify h f).get? k).isSome = (styles.get? k).isSome := by
  rw [Table.get?_modify]
  split
  · next hk => rw [Option.isSome_map, hk]
  · rfl

/-- Other settings change no local sheet. -/
theorem localSheet?_modify_eq {f : Styling → Styling} (hf : ∀ s, (f s).localSheet = s.localSheet)
    (k : Handle) :
    localSheet? { g with styles := g.styles.modify h f } k = g.localSheet? k := by
  rw [localSheet?_modify]
  split
  · next hk =>
    rw [← hk, funext hf]
    rfl
  · rfl

/-- Settings other than local sheets are none of the books' business. -/
theorem Coherent.modify (hg : g.Coherent) {f : Styling → Styling}
    (hf : ∀ s, (f s).localSheet = s.localSheet) :
    Coherent { g with styles := g.styles.modify h f } where
  toBooked := hg.toBooked.congr rfl rfl (localSheet?_modify_eq hf)
  forest := hg.forest
  isSome_styles := fun k => (isSome_modify _ _ _ k).trans (hg.isSome_styles k)

theorem localSheet?_withLocalSheet (g : Engine) (h : Handle) (id : Option SheetId) (k : Handle) :
    (g.withLocalSheet h id).localSheet? k =
      if h = k then (g.styles.get? h).bind fun _ => id else g.localSheet? k :=
  localSheet?_modify g h _ k

theorem lexicon_assigned (g : Engine) (h : Handle) (sheet : Option Sheet) :
    (g.assigned h sheet).lexicon = (g.filed sheet).2.lexicon := by
  unfold assigned withoutSheet
  split <;> rfl

theorem forest_assigned (g : Engine) (h : Handle) (sheet : Option Sheet) :
    (g.assigned h sheet).forest = g.forest := by
  unfold assigned withoutSheet
  cases sheet <;> split <;> rfl

theorem next_assigned (g : Engine) (h : Handle) (sheet : Option Sheet) :
    (g.assigned h sheet).catalogue.next = (g.filed sheet).2.catalogue.next := by
  unfold assigned withoutSheet
  split
  · rfl
  · exact Catalogue.next_remove _ _

/-- An element may change its local sheet for none, or for one that no element has. -/
theorem Coherent.withLocalSheet (hg : g.Coherent) {id : Option SheetId}
    (hid : ∀ i, id = some i → (∃ sheet, g.catalogue.get? i = some sheet ∧ sheet.owner = .element) ∧
      ∀ k, g.localSheet? k ≠ some i) : (g.withLocalSheet h id).Coherent := by
  have hcases : ∀ {k i}, (g.withLocalSheet h id).localSheet? k = some i →
      h = k ∧ id = some i ∨ ¬ h = k ∧ g.localSheet? k = some i := by
    intro k i hk
    rw [localSheet?_withLocalSheet] at hk
    split at hk
    · next he =>
      obtain ⟨-, -, hk⟩ := Option.bind_eq_some_iff.1 hk
      exact .inl ⟨he, hk⟩
    · next he => exact .inr ⟨he, hk⟩
  exact
    { lexicon := hg.lexicon
      filed := hg.filed
      localSheet := fun {k i} hk => by
        rcases hcases hk with ⟨-, hi⟩ | ⟨-, hk⟩
        · exact (hid i hi).1
        · exact hg.localSheet hk
      distinct := fun {k k' i} hk hk' => by
        -- the same element twice, the new sheet against an old one, or two old ones
        rcases hcases hk with ⟨he, hi⟩ | ⟨he, hk⟩ <;> rcases hcases hk' with ⟨he', hi'⟩ | ⟨he', hk'⟩
        · exact he.symm.trans he'
        · exact absurd hk' ((hid i hi).2 k')
        · exact absurd hk ((hid i hi').2 k)
        · exact hg.distinct hk hk'
      forest := hg.forest
      isSome_styles := fun k => (isSome_modify _ _ _ k).trans (hg.isSome_styles k) }

/-! ### Elements that go -/

theorem get?_drop (g : Engine) (h k : Handle) :
    (g.drop h).styles.get? k = if h = k then none else g.styles.get? k := Table.get?_erase _ _ _

theorem catalogue_drop (g : Engine) (h : Handle) : (g.drop h).catalogue =
    match g.localSheet? h with
    | some sheet => g.catalogue.remove sheet
    | none => g.catalogue := rfl

/-- Nothing is left of an element that is dropped: its local sheet is removed, and that of no
other element is. -/
theorem Booked.drop (hg : g.Booked) (h : Handle) : (g.drop h).Booked := by
  have hsheet : ∀ k, (g.drop h).localSheet? k = if h = k then none else g.localSheet? k := by
    intro k
    rw [localSheet?, get?_drop]
    split <;> rfl
  -- without the style, but with the sheet still there
  have herased : Booked { g with styles := g.styles.erase h } := by
    have hsheet' : ∀ {k i}, localSheet? { g with styles := g.styles.erase h } k = some i →
        g.localSheet? k = some i := by
      intro k i hk
      have hk : (g.drop h).localSheet? k = some i := hk
      rw [hsheet] at hk
      split at hk
      · cases hk
      · exact hk
    exact ⟨hg.lexicon, hg.filed, fun hk => hg.localSheet (hsheet' hk),
      fun hk hk' => hg.distinct (hsheet' hk) (hsheet' hk')⟩
  cases hh : g.localSheet? h with
  | none =>
    refine herased.congr rfl ?_ fun _ => rfl
    rw [catalogue_drop, hh]
  | some i =>
    have hother : ∀ k, localSheet? { g with styles := g.styles.erase h } k ≠ some i := by
      intro k hk
      have hk : (g.drop h).localSheet? k = some i := hk
      rw [hsheet] at hk
      split at hk
      · cases hk
      · next hne => exact hne (hg.distinct hh hk)
    refine (herased.removeSheet hother).congr rfl ?_ fun _ => rfl
    rw [catalogue_drop, hh]

theorem Booked.dropAll (hg : g.Booked) (hs : List Handle) : (hs.foldl Engine.drop g).Booked := by
  induction hs generalizing g with
  | nil => exact hg
  | cons h hs ih => exact ih (hg.drop h)

theorem forest_dropAll (g : Engine) (hs : List Handle) : (hs.foldl drop g).forest = g.forest := by
  induction hs generalizing g with
  | nil => rfl
  | cons h hs ih => exact ih _

theorem config_dropAll (g : Engine) (hs : List Handle) :
    (hs.foldl drop g).config = g.config ∧ (hs.foldl drop g).lexicon = g.lexicon := by
  induction hs generalizing g with
  | nil => exact ⟨rfl, rfl⟩
  | cons h hs ih => exact ih (g.drop h)

theorem pending_dropAll (g : Engine) (hs : List Handle) :
    (hs.foldl drop g).pending = g.pending := by
  induction hs generalizing g with
  | nil => rfl
  | cons h hs ih => exact ih (g.drop h)

theorem next_dropAll (g : Engine) (hs : List Handle) :
    (hs.foldl drop g).catalogue.next = g.catalogue.next := by
  induction hs generalizing g with
  | nil => rfl
  | cons h hs ih =>
    rw [List.foldl_cons, ih, catalogue_drop]
    split
    · exact Catalogue.next_remove _ _
    · rfl

theorem get?_dropAll (g : Engine) (hs : List Handle) (k : Handle) :
    (hs.foldl drop g).styles.get? k = if k ∈ hs then none else g.styles.get? k := by
  induction hs generalizing g with
  | nil => simp
  | cons h hs ih =>
    rw [List.foldl_cons, ih, get?_drop]
    by_cases hk : h = k
    · simp [hk]
    · by_cases hm : k ∈ hs <;> simp [hk, hm, Ne.symm hk]

theorem Coherent.destroyed (hg : g.Coherent) {removed : List Handle} {u : Forest}
    (hd : g.forest.destroy h = (.ok removed, u)) : (g.destroyed removed u).Coherent := by
  have hmoved : Booked { g with forest := u } := hg.toBooked.congr rfl rfl fun _ => rfl
  have hforest : (g.destroyed removed u).forest = u := forest_dropAll _ _
  refine ⟨(hmoved.dropAll removed).congr rfl rfl fun _ => rfl, ?_, ?_⟩
  · rw [hforest]
    exact hg.forest.destroy hd
  · -- the styles that are dropped are those of the elements that are gone
    intro k
    have hget : (g.destroyed removed u).styles.get? k =
        if k ∈ removed then none else g.styles.get? k := get?_dropAll _ _ _
    rw [hget, hforest, Bool.eq_iff_iff, Forest.contains_destroy hg.linked hd,
      (Forest.destroy_eq_ok hg.linked hd).1, ← hg.isSome_styles]
    split
    · next hk => simp [hk]
    · next hk => simp [hk]

/-! ### New sheets -/

theorem Coherent.filedSheet (hg : g.Coherent) (sheet : Option Sheet)
    (hw : g.Unwrapped (g.filed sheet).2) : (g.filed sheet).2.Coherent := by
  cases sheet with
  | none => exact hg
  | some sheet =>
    refine hg.withCatalogue (hg.lexicon.compileRules sheet.rules hw.texts)
      (hg.filed.insertLocal sheet hw.sheets) ?_
    intro id sheet' hs
    exact (Catalogue.get?_compile _ _ _ _ _).trans ((if_neg (hg.filed.ne_next hs)).trans hs)

/-- The number of a new local sheet is that of no sheet before. -/
theorem Booked.localSheet?_ne_next (hg : g.Booked) (h : Handle) :
    g.localSheet? h ≠ some ⟨g.catalogue.next⟩ := by
  intro hh
  obtain ⟨sheet, hs, -⟩ := hg.localSheet hh
  rw [hg.filed.get?_next] at hs
  cases hs

theorem Unwrapped.of_assigned {sheet : Option Sheet} (hw : g.Unwrapped (g.assigned h sheet)) :
    g.Unwrapped (g.filed sheet).2 where
  slots := by
    have hf : (g.filed sheet).2.forest = g.forest := by cases sheet <;> rfl
    rw [hf, ← forest_assigned g h sheet]
    exact hw.slots
  texts := lexicon_assigned g h sheet ▸ hw.texts
  sheets := next_assigned g h sheet ▸ hw.sheets

theorem Coherent.assigned (hg : g.Coherent) (h : Handle) (sheet : Option Sheet)
    (hw : g.Unwrapped (g.assigned h sheet)) : (g.assigned h sheet).Coherent := by
  have hfiled := hg.filedSheet sheet hw.of_assigned
  have hsheets : ∀ k, (g.filed sheet).2.localSheet? k = g.localSheet? k := by
    cases sheet <;> exact fun _ => rfl
  -- the new sheet is there, and it belongs to no element yet
  have hnew : ∀ i, (g.filed sheet).1 = some i →
      (∃ s, (g.filed sheet).2.catalogue.get? i = some s ∧ s.owner = .element) ∧
        ∀ k, g.localSheet? k ≠ some i := by
    intro i hi
    cases sheet with
    | none => cases hi
    | some sheet =>
      cases hi
      exact ⟨⟨_, (Catalogue.get?_compile _ _ _ _ _).trans (if_pos rfl), rfl⟩,
        hg.localSheet?_ne_next⟩
  have hset : ((g.filed sheet).2.withLocalSheet h (g.filed sheet).1).Coherent := by
    refine hfiled.withLocalSheet ?_
    intro i hi
    refine ⟨(hnew i hi).1, ?_⟩
    intro k
    rw [hsheets]
    exact (hnew i hi).2 k
  unfold Engine.assigned withoutSheet
  split
  · exact hset
  · next old hold =>
    -- the old sheet has belonged to the element, and now it belongs to none
    have hfree : ∀ k,
        ((g.filed sheet).2.withLocalSheet h (g.filed sheet).1).localSheet? k ≠ some old := by
      intro k hk
      rw [localSheet?_withLocalSheet, hsheets] at hk
      split at hk
      · obtain ⟨-, -, hk⟩ := Option.bind_eq_some_iff.1 hk
        exact (hnew old hk).2 h hold
      · next hne => exact hne (hg.distinct hold hk)
    exact (hset.removeSheet hfree).restyled (restyled_forgetMatches _)

theorem lexicon_withGlobal (g : Engine) (sheet : Sheet) :
    (g.withGlobal sheet).lexicon = (compileRules g.lexicon sheet.rules).2 := by
  unfold withGlobal Catalogue.insertGlobal
  split <;> rfl

theorem Coherent.withGlobal (hg : g.Coherent) (sheet : Sheet)
    (hw : g.Unwrapped (g.withGlobal sheet)) : (g.withGlobal sheet).Coherent := by
  have hnext : (g.catalogue.insertGlobal g.lexicon sheet).2.1.next = g.catalogue.next + 1 := by
    unfold Catalogue.insertGlobal
    split <;> rfl
  have htexts := hw.texts
  have hsheets : g.catalogue.next ≤ (g.catalogue.insertGlobal g.lexicon sheet).2.1.next := hw.sheets
  rw [lexicon_withGlobal] at htexts
  rw [hnext] at hsheets
  refine hg.withCatalogue ?_ (hg.filed.insertGlobal sheet hsheets) ?_
  · show (g.withGlobal sheet).lexicon.Numbered
    rw [lexicon_withGlobal]
    exact hg.lexicon.compileRules _ htexts
  · intro id sheet' hs
    exact ((Catalogue.get?_insertGlobal _ _ _ _).trans (if_neg (hg.filed.ne_next hs))).trans hs

/-! ### All operations -/

theorem get?_overlaid (g : Engine) (h : Handle) (s : Styling) (name : String) (k : Handle) :
    (g.overlaid h s name).styles.get? k =
      if h = k then some { s with overlays := s.overlays ++ [{ name }], freshness := .dirty }
      else g.styles.get? k := Table.get?_insert _ _ _ _

theorem localSheet?_overlaid {s : Styling} (hs : g.styles.get? h = some s) (name : String)
    (k : Handle) : (g.overlaid h s name).localSheet? k = g.localSheet? k := by
  rw [localSheet?, localSheet?, get?_overlaid]
  split
  · next hk =>
    rw [← hk, hs]
    rfl
  · rfl

theorem Coherent.overlaid (hg : g.Coherent) (hh : g.forest.contains h = true) {s : Styling}
    (hs : g.styles.get? h = some s) (name : String) : (g.overlaid h s name).Coherent where
  toBooked := hg.toBooked.congr rfl rfl (localSheet?_overlaid hs name)
  forest := hg.forest
  isSome_styles := fun k => by
    rw [get?_overlaid]
    split
    · next hk => exact hk ▸ hh.symm
    · exact hg.isSome_styles k

theorem Coherent.registerOverlay (hg : g.Coherent) {name : String}
    (he : Effect g (.registerOverlay h name) g') : g'.Coherent := by
  cases he with
  | idle => exact hg
  | registerOverlay hh hs ho => exact (hg.overlaid hh hs name).flush

/-- A global sheet is local to no element. -/
theorem Booked.localSheet?_ne (hg : g.Booked) {sheet : CompiledSheet}
    (hs : g.catalogue.get? id = some sheet) (ho : sheet.owner ≠ .element) (h : Handle) :
    g.localSheet? h ≠ some id := by
  intro hh
  obtain ⟨sheet', hs', ho'⟩ := hg.localSheet hh
  rw [hs] at hs'
  cases hs'
  exact ho ho'

/-- **Every operation keeps the books,** as long as its numbers fit. -/
theorem Coherent.effect (hg : g.Coherent) {c : Command} (he : Effect g c g')
    (hw : g.Unwrapped g') : g'.Coherent := by
  cases he with
  | idle => exact hg
  | registerEarly => exact hg.congr rfl rfl rfl rfl
  | register => exact Coherent.restyleAll (hg.congr rfl rfl rfl rfl)
  | insert e => exact (hg.inserted e hw.of_flush).flush
  | destroy hd => exact hg.destroyed hd
  | attach ha =>
    have hforgotten := (hg.attached ha).restyled (restyled_forgetMatches _)
    exact hforgotten.restyle _
  | detach hd =>
    have hforgotten := (hg.detached hd).restyled (restyled_forgetMatches _)
    exact hforgotten.restyle _
  | noteChange => exact (hg.restyled (restyled_forgetMatches g)).restyle _
  | edit c hh => exact ((hg.edited _ c).restyled (restyled_forgetMatches _)).restyle _
  | editUnnoted c hh => exact hg.edited _ c
  | assignSheet sheet hh => exact (hg.assigned _ sheet hw.of_restyle).restyle _
  | setInline inline hh =>
    exact Coherent.restyle (hg.modify (f := fun s => { s with inline }) fun _ => rfl) _
  | addSheet sheet => exact (hg.withGlobal sheet hw.of_restyleAll).restyleAll
  | removeSheet hs ho =>
    have hremoved := hg.removeSheet (hg.localSheet?_ne hs ho)
    exact Coherent.restyleAll (hremoved.restyled (restyled_forgetMatches _))
  | registerOverlay hh hs ho => exact hg.registerOverlay (.registerOverlay hh hs ho)
  | setOverlay enabled blend hh he => exact (hg.registerOverlay he).modify fun _ => rfl
  | takeDiagnostics => exact hg.congr rfl rfl rfl rfl

theorem Coherent.after (hg : g.Coherent) (c : Command) (hw : g.Unwrapped (g.after c)) :
    (g.after c).Coherent := hg.effect (effect_after g c) hw

end Engine
end Cascade
