import Cascade.Proofs.Engine.Erasure
import Cascade.Proofs.Engine.Visits

/-!
# Elements and their styles, without counting

The books of the engine hold as long as the numbers it hands out fit.  What an element is
styled with does not depend on that: every element has a style, and what is no element has none
or a blank one, however many elements there have been.

## Main definitions

* `Engine.overlaySettings?` — the overlays of an element with their settings.
* `Engine.Conserves` — a step that leaves the overlays of all elements as they are set.
* `Engine.Furnished` — every element has a style, and all other styles are blank.

## Main results

* `Engine.Furnished.conserves_effect` — most operations are such a step.
* `Engine.Furnished.effect` — the step: every operation keeps elements furnished.
* `Engine.furnished_run` — **after every run all elements are furnished.**
-/

namespace Cascade

/-- Whether a command may give an element a style or an overlay. -/
def Command.furnishes : Command → Bool
  | .insert _ => true
  | .registerOverlay .. => true
  | .setOverlay .. => true
  | _ => false

/-- An insertion shows at most one more element and hides none, however many slots there are. -/
theorem Forest.contains_insert_cases {t : Forest} (ht : t.Tallied) (e : Element) (k : Handle) :
    (t.contains k = true → (t.insert e).2.contains k = true) ∧
      ((t.insert e).2.contains k = true → (t.insert e).1 = k ∨ t.contains k = true) := by
  by_cases hfull : t.free = [] ∧ 2 ^ 32 ≤ t.slots.size
  · have hk : (t.insert e).2.contains k = t.contains k := by
      rw [contains, get?_insert_of_full hfull.1 hfull.2, contains]
    rw [hk]
    exact ⟨id, .inr⟩
  · have hr : t.Ready := ⟨ht, fun hf => Nat.lt_of_not_le fun hle => hfull ⟨hf, hle⟩⟩
    rw [contains_insert hr]
    exact ⟨.inr, Or.imp_left Eq.symm⟩

namespace Engine

variable {g g' g'' : Engine} {h k : Handle} {s : Styling} {c : Command}

/-- The overlays of an element in their order, with name, switch and blend factor. -/
def overlaySettings? (g : Engine) (h : Handle) : Option (List (String × Bool × Float32)) :=
  (g.styles.get? h).map fun s => s.overlays.map fun o => (o.name, o.enabled, o.blend)

theorem overlaySettings?_of_get? (hs : g.styles.get? h = some s) :
    g.overlaySettings? h = some (s.overlays.map fun o => (o.name, o.enabled, o.blend)) := by
  rw [overlaySettings?, hs, Option.map_some]

theorem isSome_overlaySettings? (g : Engine) (h : Handle) :
    (g.overlaySettings? h).isSome = (g.styles.get? h).isSome := Option.isSome_map

theorem Restyled.overlaySettings?_eq (hr : g.Restyled g') (h : Handle) :
    g'.overlaySettings? h = g.overlaySettings? h := by
  have hs := congrArg (Option.map fun x : _ × _ × List (String × Bool × Float32) => x.2.2)
    (hr.settings h)
  rwa [Option.map_map, Option.map_map] at hs

/-! ### Steps that leave overlays as they are set -/

/-- From one engine to the next no element has come, those that are left have the overlays they
had, and what is no element has no style that it did not have. -/
structure Conserves (g g' : Engine) : Prop where
  contains : ∀ k, g'.forest.contains k = true → g.forest.contains k = true
  settings : ∀ k, g'.forest.contains k = true → g'.overlaySettings? k = g.overlaySettings? k
  others : ∀ k s, ¬ g'.forest.contains k = true → g'.styles.get? k = some s →
    ¬ g.forest.contains k = true ∧ g.styles.get? k = some s

namespace Conserves

/-- Elements may move and change their data. -/
theorem of_forest (hc : ∀ k, g'.forest.contains k = g.forest.contains k)
    (hs : g'.styles = g.styles) : g.Conserves g' where
  contains := fun k hk => hc k ▸ hk
  settings := fun k _ => by rw [overlaySettings?, overlaySettings?, hs]
  others := fun k _ hk hs' => ⟨hc k ▸ hk, hs ▸ hs'⟩

theorem of_eq (hf : g'.forest = g.forest) (hs : g'.styles = g.styles) : g.Conserves g' :=
  .of_forest (fun _ => by rw [hf]) hs

theorem refl (g : Engine) : g.Conserves g := .of_eq rfl rfl

theorem trans (h₁ : g.Conserves g') (h₂ : g'.Conserves g'') : g.Conserves g'' where
  contains := fun k hk => h₁.contains k (h₂.contains k hk)
  settings := fun k hk => (h₂.settings k hk).trans (h₁.settings k (h₂.contains k hk))
  others := fun k s hk hs => by
    obtain ⟨hk', hs'⟩ := h₂.others k s hk hs
    exact h₁.others k s hk' hs'

/-- Styles are changed, of elements only, and with the settings kept. -/
theorem of_restyled (hr : g.Restyled g')
    (hk : ∀ k, ¬ g.forest.contains k = true → g'.styles.get? k = g.styles.get? k) :
    g.Conserves g' where
  contains := fun k hk => hr.forest ▸ hk
  settings := fun k _ => hr.overlaySettings?_eq k
  others := fun k s hk' hs => by
    rw [hr.forest] at hk'
    exact ⟨hk', hk k hk' ▸ hs⟩

/-- An element may have other settings, those of overlays apart. -/
theorem modify (hh : g.forest.contains h = true) {f : Styling → Styling}
    (hf : ∀ s, (f s).overlays = s.overlays) :
    g.Conserves { g with styles := g.styles.modify h f } where
  contains := fun _ => id
  settings := fun k _ => by
    simp only [overlaySettings?, Table.get?_modify]
    split
    · next hk =>
      rw [hk, Option.map_map]
      exact congrArg (Option.map · _) (funext fun s => congrArg _ (hf s))
    · rfl
  others := fun k s hk hs => by
    refine ⟨hk, ?_⟩
    have hne : h ≠ k := fun he => hk (he ▸ hh)
    rwa [Table.get?_modify, if_neg hne] at hs

theorem assigned (hh : g.forest.contains h = true) (sheet : Option Sheet) :
    g.Conserves (g.assigned h sheet) := by
  have hfiled : g.Conserves (g.filed sheet).2 ∧ (g.filed sheet).2.forest = g.forest := by
    cases sheet <;> exact ⟨.of_eq rfl rfl, rfl⟩
  have hset : (g.filed sheet).2.Conserves ((g.filed sheet).2.withLocalSheet h (g.filed sheet).1) :=
    .modify (hfiled.2 ▸ hh) fun _ => rfl
  refine hfiled.1.trans (hset.trans ?_)
  unfold Engine.assigned withoutSheet
  split <;> exact .of_eq rfl rfl

theorem recompute (g : Engine) (h : Handle) : g.Conserves (g.recompute h) := by
  refine .of_restyled (restyled_recompute g h) fun k hk => ?_
  rw [recompute_eq]
  split
  · next he _ =>
    -- what is computed is the style of an element
    have hne : h ≠ k := fun hhk => hk (hhk ▸ Forest.contains_of_get? he)
    exact (Table.get?_insert _ _ _ _).trans (if_neg hne)
  · rfl

theorem foldl_refresh (g : Engine) (hs : List Handle) : g.Conserves (hs.foldl refresh g) := by
  induction hs generalizing g with
  | nil => exact .refl g
  | cons h hs ih =>
    refine .trans ?_ (ih (g.refresh h))
    rw [refresh]
    split
    · exact .recompute g h
    · exact .refl g

theorem flush (g : Engine) : g.Conserves g.flush := by
  unfold Engine.flush
  split
  · exact .refl g
  · rw [foldl_refreshSubtree_eq]
    have hpass : g.Conserves { g with pending := [], passes := g.passes + 1 } := .of_eq rfl rfl
    exact hpass.trans (.foldl_refresh _ _)

theorem destroyed (g : Engine) (hs : List Handle) {u : Forest}
    (hc : ∀ k, u.contains k = true ↔ g.forest.contains k = true ∧ k ∉ hs) :
    g.Conserves (g.destroyed hs u) := by
  have hforest : (g.destroyed hs u).forest = u := forest_dropAll _ _
  have hget : ∀ k, (g.destroyed hs u).styles.get? k =
      if k ∈ hs then none else g.styles.get? k := fun k => get?_dropAll _ _ _
  refine ⟨?_, ?_, ?_⟩
  · intro k hk
    rw [hforest] at hk
    exact ((hc k).1 hk).1
  · intro k hk
    rw [hforest] at hk
    rw [overlaySettings?, hget, if_neg ((hc k).1 hk).2, overlaySettings?]
  · intro k s hk hs'
    rw [hforest, hc, not_and_not_right] at hk
    rw [hget] at hs'
    split at hs'
    · cases hs'
    · next hne => exact ⟨fun hk' => hne (hk hk'), hs'⟩

end Conserves

/-! ### Furnished elements -/

/-- The forest is well-formed, its elements have styles, and any other style is blank. -/
structure Furnished (g : Engine) : Prop where
  forest : g.forest.WellFormed
  styled : g.Styled
  blank : ∀ k s, ¬ g.forest.contains k = true → g.styles.get? k = some s →
    s.base = {} ∧ s.overlays = []

namespace Furnished

theorem empty (config : Config) : Furnished { config } where
  forest := Forest.wellFormed_empty
  styled := fun _ hh => by cases hh
  blank := fun _ _ _ hs => by cases hs

theorem of_conserves (hg : g.Furnished) (hv : g.Conserves g') (hf : g'.forest.WellFormed) :
    g'.Furnished where
  forest := hf
  styled := fun k hk => by
    rw [← isSome_overlaySettings?, hv.settings k hk, isSome_overlaySettings?]
    exact hg.styled k (hv.contains k hk)
  blank := fun k s hk hs => by
    obtain ⟨hk', hs'⟩ := hv.others k s hk hs
    exact hg.blank k s hk' hs'

theorem congr (hg : g.Furnished) (hf : g'.forest = g.forest) (hs : g'.styles = g.styles) :
    g'.Furnished := hg.of_conserves (.of_eq hf hs) (hf ▸ hg.forest)

theorem flush (hg : g.Furnished) : g.flush.Furnished :=
  hg.of_conserves (.flush g) ((restyled_flush g).forest ▸ hg.forest)

/-- Marks are put on elements only. -/
theorem conserves_foldl_markSubtree (hg : g.Furnished) (rs : List Handle) :
    g.Conserves (rs.foldl markSubtree g) := by
  refine .of_restyled (restyled_foldl_markSubtree hg.forest.linked hg.styled rs) fun k hk => ?_
  rw [get?_foldl_markSubtree, if_neg]
  intro hm
  obtain ⟨r, -, hr⟩ := List.mem_flatMap.1 hm
  exact hk ((Forest.mem_subtree hg.forest.linked).1 hr).1

/-- A change, and the styles that it makes different. -/
theorem conserves_restyle (hg : g.Furnished) (hv : g.Conserves g')
    (hf : (g'.restyle h).forest.WellFormed) : g.Conserves (g'.restyle h) := by
  rw [forest_restyle] at hf
  exact hv.trans (((hg.of_conserves hv hf).conserves_foldl_markSubtree [h]).trans (.flush _))

theorem conserves_restyleAll (hg : g.Furnished) (hf : g'.forest = g.forest)
    (hs : g'.styles = g.styles) : g.Conserves g'.restyleAll := by
  have hv : g.Conserves g' := .of_eq hf hs
  exact hv.trans (((hg.congr hf hs).conserves_foldl_markSubtree _).trans (.flush _))

/-- The style of an element is put in place of the one it has. -/
theorem of_styles (hg : g.Furnished) (hh : g.forest.contains h = true) (hf : g'.forest = g.forest)
    (hs : (g'.styles.get? h).isSome = true)
    (hk : ∀ k, h ≠ k → g'.styles.get? k = g.styles.get? k) : g'.Furnished where
  forest := hf ▸ hg.forest
  styled := fun k hlive => by
    rw [hf] at hlive
    by_cases hhk : h = k
    · exact hhk ▸ hs
    · rw [hk k hhk]
      exact hg.styled k hlive
  blank := fun k s hlive hs' => by
    rw [hf] at hlive
    rw [hk k fun hhk => hlive (hhk ▸ hh)] at hs'
    exact hg.blank k s hlive hs'

end Furnished

/-! ### All operations -/

theorem Effect.forest_registerOverlay {name : String}
    (he : Effect g (.registerOverlay h name) g') : g'.forest = g.forest := by
  cases he with
  | idle => rfl
  | registerOverlay => exact (restyled_flush _).forest

/-- An operation does at most one thing to the forest. -/
theorem Effect.forest_eq (he : Effect g c g') :
    g'.forest = g.forest ∨ ∃ op, g'.forest = g.forest.apply op := by
  cases he with
  | idle => exact .inl rfl
  | registerEarly => exact .inl rfl
  | register => exact .inl (forest_restyleAll _)
  | insert e => exact .inr ⟨.insert e, (restyled_flush _).forest⟩
  | @destroy h removed u hd =>
    refine .inr ⟨.destroy h, (forest_dropAll _ _).trans ?_⟩
    rw [Forest.apply, hd]
  | @attach child parent u ha =>
    refine .inr ⟨.attach child parent, (forest_restyle _ _).trans ?_⟩
    rw [Forest.apply, ha]
    rfl
  | @detach child old u hd =>
    refine .inr ⟨.detach child, (forest_restyle _ _).trans ?_⟩
    rw [Forest.apply, hd]
    rfl
  | noteChange => exact .inl (forest_restyle _ _)
  | @edit h c => exact .inr ⟨.edit h c, forest_restyle _ _⟩
  | @editUnnoted h c => exact .inr ⟨.edit h c, rfl⟩
  | assignSheet => exact .inl ((forest_restyle _ _).trans (forest_assigned _ _ _))
  | setInline => exact .inl (forest_restyle _ _)
  | addSheet => exact .inl (forest_restyleAll _)
  | removeSheet => exact .inl (forest_restyleAll _)
  | registerOverlay => exact .inl (restyled_flush _).forest
  | setOverlay _ _ _ he => exact .inl he.forest_registerOverlay
  | takeDiagnostics => exact .inl rfl

theorem Effect.wellFormed (he : Effect g c g') (hf : g.forest.WellFormed) :
    g'.forest.WellFormed := by
  rcases he.forest_eq with h | ⟨op, h⟩
  · exact h ▸ hf
  · exact h ▸ hf.apply op

namespace Furnished

/-- All other commands conserve overlays. -/
theorem conserves_effect (hg : g.Furnished) (he : Effect g c g') (hc : c.furnishes = false) :
    g.Conserves g' := by
  have hf := he.wellFormed hg.forest
  cases he with
  | idle => exact .refl g
  | registerEarly => exact .of_eq rfl rfl
  | register => exact hg.conserves_restyleAll rfl rfl
  | insert => cases hc
  | destroy hd =>
    refine .destroyed g _ fun k => ?_
    rw [(Forest.destroy_eq_ok hg.forest.linked hd).1]
    exact Forest.contains_destroy hg.forest.linked hd k
  | attach ha => exact hg.conserves_restyle (.of_forest (Forest.contains_attach ha) rfl) hf
  | detach hd => exact hg.conserves_restyle (.of_forest (Forest.contains_detach hd) rfl) hf
  | noteChange => exact hg.conserves_restyle (.of_eq rfl rfl) hf
  | edit c =>
    exact hg.conserves_restyle (.of_forest (fun k => contains_edited g _ k c) rfl) hf
  | editUnnoted c => exact .of_forest (fun k => contains_edited g _ k c) rfl
  | assignSheet sheet hh => exact hg.conserves_restyle (.assigned hh sheet) hf
  | setInline inline hh => exact hg.conserves_restyle (.modify hh fun _ => rfl) hf
  | addSheet sheet => exact hg.conserves_restyleAll rfl rfl
  | removeSheet => exact hg.conserves_restyleAll rfl rfl
  | registerOverlay => cases hc
  | setOverlay => cases hc
  | takeDiagnostics => exact .of_eq rfl rfl

theorem inserted (hg : g.Furnished) (e : Element) : (g.inserted e).Furnished where
  forest := hg.forest.apply (.insert e)
  styled := fun k hk => by
    rw [get?_inserted]
    rcases (Forest.contains_insert_cases hg.forest.tallied e k).2 hk with rfl | hk
    · rw [if_pos rfl, Option.isSome_some]
    · split
      · rfl
      · exact hg.styled k hk
  blank := fun k s hk hs => by
    rw [get?_inserted] at hs
    split at hs
    · cases hs
      exact ⟨rfl, rfl⟩
    · exact hg.blank k s (mt (Forest.contains_insert_cases hg.forest.tallied e k).1 hk) hs

theorem overlaid (hg : g.Furnished) (hh : g.forest.contains h = true) (s : Styling)
    (name : String) : (g.overlaid h s name).Furnished := by
  refine hg.of_styles hh rfl ?_ fun k hk => ?_
  · rw [get?_overlaid, if_pos rfl, Option.isSome_some]
  · rw [get?_overlaid, if_neg hk]

theorem registerOverlay (hg : g.Furnished) {name : String}
    (he : Effect g (.registerOverlay h name) g') : g'.Furnished := by
  cases he with
  | idle => exact hg
  | registerOverlay hh => exact (hg.overlaid hh _ _).flush

theorem withOverlay (hg : g.Furnished) (hh : g.forest.contains h = true) (name : String)
    (enabled : Bool) (blend : Float32) : (g.withOverlay h name enabled blend).Furnished := by
  refine hg.of_styles hh rfl ?_ fun k hk => ?_
  · exact (isSome_modify _ _ _ _).trans (hg.styled h hh)
  · exact (Table.get?_modify _ _ _ _).trans (if_neg hk)

/-- **Every operation keeps elements furnished.** -/
theorem effect (hg : g.Furnished) (he : Effect g c g') : g'.Furnished := by
  have heff := he
  cases he with
  | idle => exact hg
  | insert e => exact (hg.inserted e).flush
  | registerOverlay => exact hg.registerOverlay heff
  | setOverlay enabled blend hh he =>
    exact (hg.registerOverlay he).withOverlay (he.forest_registerOverlay ▸ hh) _ enabled blend
  | _ => exact hg.of_conserves (hg.conserves_effect heff rfl) (heff.wellFormed hg.forest)

theorem after (hg : g.Furnished) (c : Command) : (g.after c).Furnished :=
  hg.effect (effect_after g c)

theorem run (hg : g.Furnished) (cs : List Command) : (g.run cs).Furnished := by
  induction cs generalizing g with
  | nil => exact hg
  | cons c cs ih => exact ih (hg.after c)

end Furnished

/-- **After every run all elements are furnished,** however many there have been. -/
theorem furnished_run {config : Config} (hg : ofConfig config = .ok g) (cs : List Command) :
    (g.run cs).Furnished := by
  obtain rfl := eq_of_ofConfig hg
  exact (Furnished.empty _).run cs

end Engine
end Cascade
