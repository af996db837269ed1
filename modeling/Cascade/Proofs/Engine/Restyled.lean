import Cascade.Engine.Restyle
import Cascade.Proofs.Forest.Preorder

/-!
# What computing styles leaves alone

Marking styles and computing them changes what is computed, never what the host has
given: the elements, the sheets, the properties, and for every element its local sheet,
its inline declarations and the settings of its overlays.

## Main definitions

* `Styling.settings`, `Engine.localSheet?`, `Engine.inline` — what the host has given an element.
* `Engine.Restyled` — two engines differ in what is computed only.

## Main results

* `Engine.restyled_recompute`, `Engine.restyled_flush`, `Engine.restyled_restyle`,
  `Engine.restyled_restyleAll`.
* `Engine.get?_markSubtree` — which styles a mark changes.
-/

namespace Cascade

/-- What the host has given an element: its local sheet, its inline declarations, and the
overlays with their settings. -/
def Styling.settings (s : Styling) :
    Option SheetId × List Declaration × List (String × Bool × Float32) :=
  (s.localSheet, s.inline, s.overlays.map fun o => (o.name, o.enabled, o.blend))

namespace Engine

variable {g g' g'' : Engine} {h k : Handle}

/-- The local sheet of an element. -/
def localSheet? (g : Engine) (h : Handle) : Option SheetId := (g.styles.get? h).bind (·.localSheet)

/-- The inline declarations of an element. -/
def inline (g : Engine) (h : Handle) : List Declaration :=
  ((g.styles.get? h).map (·.inline)).getD []

/-- The second engine differs from the first in styles and results of matching that were
computed, and in counts and reports, but in nothing that the host has given. -/
structure Restyled (g g' : Engine) : Prop where
  config : g'.config = g.config
  registry : g'.registry = g.registry
  lexicon : g'.lexicon = g.lexicon
  catalogue : g'.catalogue = g.catalogue
  forest : g'.forest = g.forest
  settings : ∀ h, (g'.styles.get? h).map Styling.settings = (g.styles.get? h).map Styling.settings

namespace Restyled

theorem refl (g : Engine) : g.Restyled g := ⟨rfl, rfl, rfl, rfl, rfl, fun _ => rfl⟩

theorem trans (h₁ : g.Restyled g') (h₂ : g'.Restyled g'') : g.Restyled g'' where
  config := h₂.config.trans h₁.config
  registry := h₂.registry.trans h₁.registry
  lexicon := h₂.lexicon.trans h₁.lexicon
  catalogue := h₂.catalogue.trans h₁.catalogue
  forest := h₂.forest.trans h₁.forest
  settings := fun h => (h₂.settings h).trans (h₁.settings h)

theorem foldl {α : Type} {f : Engine → α → Engine} (hf : ∀ (g : Engine) x, g.Restyled (f g x))
    (g : Engine) (xs : List α) : g.Restyled (xs.foldl f g) := by
  induction xs generalizing g with
  | nil => exact refl g
  | cons x xs ih => exact (hf g x).trans (ih (f g x))

/-- The same elements have styles. -/
theorem isSome_eq (hr : g.Restyled g') (h : Handle) :
    (g'.styles.get? h).isSome = (g.styles.get? h).isSome := by
  have := congrArg Option.isSome (hr.settings h)
  rwa [Option.isSome_map, Option.isSome_map] at this

theorem localSheet?_eq (hr : g.Restyled g') (h : Handle) : g'.localSheet? h = g.localSheet? h := by
  have hs := hr.settings h
  unfold localSheet?
  cases hg : g.styles.get? h with
  | none =>
    rw [hg, Option.map_none, Option.map_eq_none_iff] at hs
    rw [hs]
  | some s =>
    rw [hg, Option.map_some, Option.map_eq_some_iff] at hs
    obtain ⟨s', hs', heq⟩ := hs
    rw [hs', Option.bind_some, Option.bind_some]
    exact congrArg (fun x => x.1) heq

theorem inline_eq (hr : g.Restyled g') (h : Handle) : g'.inline h = g.inline h := by
  have hs := hr.settings h
  unfold inline
  cases hg : g.styles.get? h with
  | none =>
    rw [hg, Option.map_none, Option.map_eq_none_iff] at hs
    rw [hs]
  | some s =>
    rw [hg, Option.map_some, Option.map_eq_some_iff] at hs
    obtain ⟨s', hs', heq⟩ := hs
    rw [hs', Option.map_some, Option.map_some]
    exact congrArg (fun x => x.2.1) heq

end Restyled

/-! ### Computing -/

/-- The style of an element computed from a ranking, and the reports. -/
def computed (g : Engine) (h : Handle) (s : Styling) (ranking : Ranking) :
    Styling × List Diagnostic :=
  let resolved := Sources.resolveAll ⟨h, g.registry, ranking, g.snapshot h⟩
  let overlays := s.overlays.map fun o => o.recompute (g.scene h s.inline) (g.snapshot h)
  ({ s with
      freshness := .clean
      ranking
      snapshot := g.snapshot h
      base := resolved.1
      overlays := overlays.map (·.1)
      recomputed := s.recomputed + 1 },
    resolved.2 ++ overlays.flatMap (·.2))

/-- The engine with a style that was computed, and what else comes of it. -/
def withStyling (g : Engine) (h : Handle) (s : Styling × List Diagnostic) (memo : Memo) : Engine :=
  { g with
    memo
    styles := g.styles.insert h s.1
    diagnostics := g.diagnostics ++ s.2
    recomputed := g.recomputed + 1
    reported := g.reported + s.2.length }

/-- A style is computed if there is an element with a style, else nothing is done. -/
theorem recompute_eq (g : Engine) (h : Handle) : g.recompute h =
    match g.forest.get? h, g.styles.get? h with
    | some _, some s =>
      let r := g.rank (g.scene h s.inline)
      g.withStyling h (g.computed h s r.1) r.2
    | _, _ => g := by
  unfold recompute
  cases g.forest.get? h with
  | none => rfl
  | some e => cases g.styles.get? h <;> rfl

theorem recompute_of_contains (hh : g.forest.contains h = true) {s : Styling}
    (hs : g.styles.get? h = some s) :
    g.recompute h = g.withStyling h (g.computed h s (g.rank (g.scene h s.inline)).1)
      (g.rank (g.scene h s.inline)).2 := by
  obtain ⟨e, he⟩ := Forest.contains_iff.1 hh
  rw [recompute_eq, he, hs]

theorem settings_computed (g : Engine) (h : Handle) (s : Styling) (r : Ranking) :
    (g.computed h s r).1.settings = s.settings := by
  simp [computed, Styling.settings, Overlay.recompute, Function.comp_def]

theorem restyled_withStyling {s : Styling} {s' : Styling × List Diagnostic}
    (hs : g.styles.get? h = some s) (he : s'.1.settings = s.settings) (m : Memo) :
    g.Restyled (g.withStyling h s' m) := by
  refine ⟨rfl, rfl, rfl, rfl, rfl, ?_⟩
  intro k
  show ((g.styles.insert h s'.1).get? k).map Styling.settings = _
  rw [Table.get?_insert]
  split
  · next hk => rw [← hk, hs, Option.map_some, Option.map_some, he]
  · rfl

theorem restyled_recompute (g : Engine) (h : Handle) : g.Restyled (g.recompute h) := by
  rw [recompute_eq]
  split
  · next s _ hs => exact restyled_withStyling hs (settings_computed g h s _) _
  · exact .refl g

theorem restyled_refresh (g : Engine) (h : Handle) : g.Restyled (g.refresh h) := by
  unfold refresh
  split
  · exact restyled_recompute g h
  · exact .refl g

theorem restyled_refreshSubtree (g : Engine) (h : Handle) : g.Restyled (g.refreshSubtree h) :=
  .foldl restyled_refresh g _

theorem restyled_flush (g : Engine) : g.Restyled g.flush := by
  unfold flush
  split
  · exact .refl g
  · have hr : g.Restyled { g with pending := [], passes := g.passes + 1 } :=
      ⟨rfl, rfl, rfl, rfl, rfl, fun _ => rfl⟩
    exact hr.trans (.foldl restyled_refreshSubtree _ _)

/-! ### Marking -/

/-- A mark is put on the styles of the listed elements. -/
theorem get?_foldl_markDirty (hs : List Handle) (styles : Table Handle Styling) (k : Handle) :
    (hs.foldl markDirty styles).get? k =
      if k ∈ hs then some { (styles.get? k).getD {} with freshness := .dirty }
      else styles.get? k := by
  induction hs generalizing styles with
  | nil => simp
  | cons h hs ih =>
    rw [List.foldl_cons, ih, markDirty, Table.get?_insert]
    -- a second mark on the same style shows no more
    by_cases hk : h = k
    · subst hk
      simp
    · by_cases hm : k ∈ hs <;> simp [hk, hm, Ne.symm hk]

theorem get?_markSubtree (g : Engine) (h k : Handle) :
    (g.markSubtree h).styles.get? k =
      if k ∈ g.forest.subtree h then some { (g.styles.get? k).getD {} with freshness := .dirty }
      else g.styles.get? k :=
  get?_foldl_markDirty _ _ k

/-- Every element has a style. -/
def Styled (g : Engine) : Prop := ∀ h, g.forest.contains h = true → (g.styles.get? h).isSome = true

theorem Styled.restyled (hs : g.Styled) (hr : g.Restyled g') : g'.Styled := fun h hh => by
  rw [hr.isSome_eq]
  exact hs h (by rwa [← hr.forest])

/-- Marking changes no settings, as only elements are marked and all of them have styles. -/
theorem restyled_markSubtree (hl : g.forest.Linked) (hs : g.Styled) (h : Handle) :
    g.Restyled (g.markSubtree h) := by
  refine ⟨rfl, rfl, rfl, rfl, rfl, ?_⟩
  intro k
  rw [get?_markSubtree]
  split
  · next hk =>
    obtain ⟨s, hs⟩ := Option.isSome_iff_exists.1 (hs k ((Forest.mem_subtree hl).1 hk).1)
    rw [hs]
    rfl
  · rfl

theorem restyled_foldl_markSubtree (hl : g.forest.Linked) (hs : g.Styled) (hs' : List Handle) :
    g.Restyled (hs'.foldl markSubtree g) := by
  induction hs' generalizing g with
  | nil => exact .refl g
  | cons h hs' ih =>
    -- the elements stay, so the others still have styles to be marked
    have hr := restyled_markSubtree hl hs h
    exact hr.trans (ih (by rwa [hr.forest]) (hs.restyled hr))

theorem restyled_restyle (hl : g.forest.Linked) (hs : g.Styled) (h : Handle) :
    g.Restyled (g.restyle h) :=
  (restyled_markSubtree hl hs h).trans (restyled_flush _)

theorem restyled_restyleAll (hl : g.forest.Linked) (hs : g.Styled) : g.Restyled g.restyleAll :=
  (restyled_foldl_markSubtree hl hs _).trans (restyled_flush _)

/-- Marking subtrees one after the other marks all that is in them. -/
theorem foldl_markSubtree_eq (g : Engine) (hs : List Handle) :
    hs.foldl markSubtree g =
      { g with
        styles := (hs.flatMap g.forest.subtree).foldl markDirty g.styles
        pending := g.pending ++ hs } := by
  induction hs generalizing g with
  | nil => rw [List.append_nil]; rfl
  | cons h hs ih =>
    rw [List.foldl_cons, ih]
    simp only [markSubtree, List.flatMap_cons, List.foldl_append, List.append_assoc,
      List.singleton_append]

theorem get?_foldl_markSubtree (g : Engine) (rs : List Handle) (k : Handle) :
    (rs.foldl markSubtree g).styles.get? k =
      if k ∈ rs.flatMap g.forest.subtree then
        some { (g.styles.get? k).getD {} with freshness := .dirty }
      else g.styles.get? k := by
  rw [foldl_markSubtree_eq]
  exact get?_foldl_markDirty _ _ k

@[simp] theorem forest_restyle (g : Engine) (h : Handle) : (g.restyle h).forest = g.forest :=
  (restyled_flush (g.markSubtree h)).forest

@[simp] theorem lexicon_restyle (g : Engine) (h : Handle) : (g.restyle h).lexicon = g.lexicon :=
  (restyled_flush (g.markSubtree h)).lexicon

@[simp] theorem catalogue_restyle (g : Engine) (h : Handle) :
    (g.restyle h).catalogue = g.catalogue := (restyled_flush (g.markSubtree h)).catalogue

@[simp] theorem registry_restyle (g : Engine) (h : Handle) :
    (g.restyle h).registry = g.registry := (restyled_flush (g.markSubtree h)).registry

@[simp] theorem forest_restyleAll (g : Engine) : g.restyleAll.forest = g.forest := by
  rw [restyleAll, (restyled_flush _).forest, markAll, foldl_markSubtree_eq]

@[simp] theorem lexicon_restyleAll (g : Engine) : g.restyleAll.lexicon = g.lexicon := by
  rw [restyleAll, (restyled_flush _).lexicon, markAll, foldl_markSubtree_eq]

@[simp] theorem catalogue_restyleAll (g : Engine) : g.restyleAll.catalogue = g.catalogue := by
  rw [restyleAll, (restyled_flush _).catalogue, markAll, foldl_markSubtree_eq]

@[simp] theorem registry_restyleAll (g : Engine) : g.restyleAll.registry = g.registry := by
  rw [restyleAll, (restyled_flush _).registry, markAll, foldl_markSubtree_eq]

theorem restyled_forgetMatches (g : Engine) : g.Restyled g.forgetMatches :=
  ⟨rfl, rfl, rfl, rfl, rfl, fun _ => rfl⟩

end Engine
end Cascade
