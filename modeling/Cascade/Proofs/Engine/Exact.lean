import Cascade.Proofs.Engine.Erasure
import Cascade.Proofs.Engine.Incremental
import Cascade.Proofs.Resolution

/-!
# Computing styles bit by bit is computing them from scratch

After every run nothing is left to compute, and each style is what the elements, the sheets, the
inline declarations and the properties make of it, no matter which operations led there.  A
change of data that is still to be noted makes the styles below the element wait.

## Main definitions

* `Engine.Current` — all styles are up to date, but for those that wait for a change to be noted.
* `Engine.Exact` — what a style is made of.
* `Engine.AtRest` — nothing is left to compute, and all styles are exact.

## Main results

* `Engine.Current.step` — every step of a proper run keeps all styles current.
* `Engine.atRest_run` — **styles computed bit by bit are exact.**
-/

namespace Cascade
namespace Engine

variable {g g' : Engine} {h k : Handle} {s : Styling} {o : Option Handle} {c : Command}
  {cs : List Command}

/-! ### Changes that are not noted yet -/

/-- All styles are clean, and they are fresh, except for those of the subtree of an element with
a change of data that is still to be noted. -/
structure Current (g : Engine) (o : Option Handle) : Prop extends Coherent g where
  memoless : g.config.memoize = false
  pending : g.pending = []
  clean : ∀ h, g.forest.contains h = true → g.isDirty h = false
  fresh : ∀ h, g.forest.contains h = true → (∀ k, o = some k → h ∉ g.forest.subtree k) → g.Fresh h
  contains : ∀ k, o = some k → g.forest.contains k = true

theorem UpToDate.current (hg : g.UpToDate) : g.Current none where
  toCoherent := hg.toCoherent
  memoless := hg.memoless
  pending := hg.pending
  clean := fun h hh => (hg.fresh h hh).isDirty_eq
  fresh := fun h hh _ => hg.fresh h hh
  contains := nofun

theorem Current.upToDate (hg : g.Current none) : g.UpToDate where
  toCoherent := hg.toCoherent
  memoless := hg.memoless
  pending := hg.pending
  fresh := fun h hh => hg.fresh h hh nofun

/-- A change behind the engine's back is seen in the subtree of the element. -/
theorem Current.editUnnoted (hg : g.Current o) (h : Handle) (e : Element.Edit)
    (ha : Admits o (.editUnnoted h e)) :
    (g.after (.editUnnoted h e)).Current (g.unnotedAfter o (.editUnnoted h e)) := by
  rw [unnotedAfter_editUnnoted]
  show Current (g.editUnnoted h e).2 _
  rcases editUnnoted_cases g h e with ⟨he, hh⟩ | ⟨hne, he⟩
  · rw [he, if_pos rfl]
    have hlive : ∀ k, (g.edited h e).forest.contains k = g.forest.contains k := by
      intro k
      exact contains_edited g h k e
    refine ⟨hg.toCoherent.edited h e, hg.memoless, hg.pending, ?_, ?_, ?_⟩
    · intro k hk
      rw [hlive] at hk
      exact hg.clean k hk
    · intro k hk hout
      rw [hlive] at hk
      have hout : k ∉ (g.forest.update h (·.edit e)).subtree h := hout h rfl
      rw [Forest.subtree_edit hg.linked] at hout
      -- what was to be noted before concerns the same element
      have hfresh : g.Fresh k := by
        refine hg.fresh k hk ?_
        intro x hx
        rcases ha x hx with hc | ⟨_, hc⟩ <;> cases hc
        exact hout
      have hpath := Forest.samePath_edit hg.linked e hk hout
      exact hfresh.of_path hg.linked rfl rfl rfl hpath fun _ _ => rfl
    · intro k hk
      cases hk
      rw [hlive]
      exact hh
  · rw [he, if_neg hne]
    exact hg

/-- **One step of a proper run keeps all styles current.** -/
theorem Current.step (hg : g.Current o) (ha : Admits o c) (hw : g.Unwrapped (g.after c)) :
    (g.after c).Current (g.unnotedAfter o c) := by
  by_cases hc : ∃ h e, c = .editUnnoted h e
  · obtain ⟨h, e, rfl⟩ := hc
    exact hg.editUnnoted h e ha
  · have hc : ∀ h e, c ≠ .editUnnoted h e := fun h e he => hc ⟨h, e, he⟩
    rw [unnotedAfter_of_ne hc]
    cases o with
    | none => exact (hg.upToDate.effect (effect_after g c) hw hc).current
    | some h =>
      rcases ha h rfl with rfl | ⟨e, rfl⟩
      · have hn : g.after (.noteChange h) = g.forgetMatches.restyle h :=
          congrArg Prod.snd (noteChange_of_contains (hg.contains h rfl))
        have hr := restyled_forgetMatches g
        rw [hn]
        -- outside of the subtree all is fresh, and the subtree is computed now
        refine (upToDate_restyle (hg.toCoherent.restyled hr) hg.memoless hg.pending ?_).current
        intro k hk hout
        have hfresh : g.Fresh k := by
          refine hg.fresh k hk ?_
          intro x hx
          cases hx
          exact hout
        exact hfresh.of_restyled hg.toCoherent hr rfl
      · exact absurd rfl (hc h e)

/-! ### Exact styles -/

/-- A style is made of what the element sees: its own ranked candidates, as matching gives them
now, and the values of its parent. -/
structure Exact (g : Engine) (h : Handle) (s : Styling) : Prop where
  /-- An element takes over the inheritable values of its parent: of each registered property that
  is inheritable the value that the parent has, and nothing else. -/
  child : ∀ p, g.forest.parent? h = some p → ∃ sp, g.styles.get? p = some sp ∧
    s.snapshot = sp.base.inheritable g.registry ∧
    ∀ key v, s.snapshot.get? key = some v ↔
      sp.base.get? key = some v ∧
        ∃ q, g.registry.lookup key = some q ∧ q.inheritable = true
  /-- A root takes over nothing. -/
  root : g.forest.parent? h = none → s.snapshot = {}
  /-- The candidates come from the global sheets, the local sheets on the way from the root, and
  the inline declarations. -/
  ranking : s.ranking = Scene.ranking
    { element := h
      context := { forest := g.forest, maxDepth := g.config.maxAncestorDepth }
      catalogue := g.catalogue
      localSheets := (g.forest.pathFromRoot h).filterMap g.localSheet?
      inline := s.inline
      registry := g.registry }
  base : s.base = (Sources.resolveAll ⟨h, g.registry, s.ranking, s.snapshot⟩).1
  overlays : ∀ o ∈ s.overlays, o.values = (o.recompute (g.scene h s.inline) s.snapshot).1.values
  /-- The same values come out if nothing is kept, from the root down. -/
  scratch : s.base = g.scratchBase (h :: g.forest.ancestors h)

/-- A settled style below a fresh one is exact. -/
theorem Settled.exact (hg : g.Coherent) (hs : g.styles.get? h = some s) (hsettled : g.Settled h s)
    (hp : ∀ p, g.forest.parent? h = some p → g.Fresh p) : g.Exact h s := by
  have hh := hg.contains_of_get? hs
  have hinline : g.inline h = s.inline := by rw [inline, hs]; rfl
  have hsnap : s.snapshot = g.snapshot h :=
    hsettled.snapshot.trans (snapshot_eq_of_fresh hg hh hp).symm
  refine ⟨?_, ?_, ?_, ?_, ?_, hsettled.base⟩
  · intro p hpar
    obtain ⟨sp, hsp, -⟩ := hp p hpar
    have htaken : s.snapshot = sp.base.inheritable g.registry := by
      rw [hsnap, Engine.snapshot, hpar, Option.bind_some, hsp]
    refine ⟨sp, hsp, htaken, fun key v => ?_⟩
    rw [htaken, Registry.get?_inheritable_eq_some_iff]
  · intro hroot
    rw [hsnap, Engine.snapshot, hroot]
    rfl
  · rw [hsettled.ranking, scratchRanking, hinline]
    rfl
  · rw [hsettled.base, scratchBase_cons, hsettled.ranking, hsettled.snapshot]
  · intro x hx
    have hx := congrArg Overlay.values (hsettled.overlays x hx)
    rw [hinline, ← hsettled.snapshot] at hx
    exact hx.symm

/-- Nothing is left to compute; and all styles are exact, unless a change is to be noted. -/
structure AtRest (g : Engine) (o : Option Handle) : Prop where
  pending : g.pending = []
  clean : ∀ h, g.forest.contains h = true → g.freshness? h = some .clean
  exact : o = none → ∀ h, g.forest.contains h = true → ∃ s, g.styles.get? h = some s ∧ g.Exact h s

theorem freshness?_of_not_isDirty (hs : g.styles.get? h = some s) (hd : g.isDirty h = false) :
    g.freshness? h = some .clean := by
  unfold isDirty at hd
  unfold freshness?
  rw [hs] at hd ⊢
  cases hf : s.freshness with
  | clean => rw [Option.map_some, hf]
  | dirty =>
    simp only [hf] at hd
    cases hd

theorem Current.atRest (hg : g.Current o) : g.AtRest o := by
  refine ⟨hg.pending, ?_, ?_⟩
  · intro h hh
    obtain ⟨s, hs⟩ := hg.exists_styling hh
    exact freshness?_of_not_isDirty hs (hg.clean h hh)
  · intro ho h hh
    subst ho
    have hfresh := hg.upToDate.fresh
    obtain ⟨s, hs, -, hsettled⟩ := hfresh h hh
    refine ⟨s, hs, hsettled.exact hg.toCoherent hs ?_⟩
    intro p hp
    exact hfresh p (hg.linked.contains_parent hp)

/-! ### Runs -/

/-- A memo has no part in what styles come from. -/
theorem sameView_plain (hl : g.forest.Linked) (hh : g.forest.contains h = true) :
    g.plain.SameView g h := .of_styles rfl rfl rfl (.refl hl hh) fun _ _ => rfl

/-- An engine is at rest if it is without its memo. -/
theorem AtRest.of_plain (hl : g.forest.Linked) (hr : g.plain.AtRest o) : g.AtRest o := by
  refine ⟨hr.pending, hr.clean, ?_⟩
  intro ho h hh
  obtain ⟨s, hs, he⟩ := hr.exact ho h hh
  have hscratch : g.scratchBase (h :: g.forest.ancestors h) =
      g.plain.scratchBase (h :: g.forest.ancestors h) :=
    SameView.scratchBase_eq (g := g.plain) hl (sameView_plain hl hh) (hl.lineage hh)
  exact ⟨s, hs, he.child, he.root, he.ranking, he.base, he.overlays, he.scratch.trans hscratch.symm⟩

/-- All styles are current after every proper run, whether or not there is a memo. -/
theorem Proper.current (hp : g.Proper o cs) (hg : g.Accounted o) (hc : g.plain.Current o) :
    (g.run cs).plain.Current (g.unnotedRun o cs) := by
  refine (hp.induction (P := fun g o => g.Accounted o ∧ g.plain.Current o) ?_ ⟨hg, hc⟩).2
  intro g o c ⟨hg, hcurrent⟩ ha hw
  have hafter := hg.after_plain ha (.inl hw)
  refine ⟨hg.step ha hw, ?_⟩
  rw [← hafter, ← unnotedAfter_plain]
  refine hcurrent.step ha ?_
  rw [hafter]
  exact ⟨hw.slots, hw.texts, hw.sheets⟩

theorem upToDate_empty (c : Config) (hc : c.memoize = false) : UpToDate { config := c } where
  toCoherent := coherent_empty c
  memoless := hc
  pending := rfl
  fresh := fun h hh => by cases hh

/-- **Styles computed bit by bit are exact.**  After each command of a proper run nothing is left
to compute, and each style is what would be computed from scratch. -/
theorem atRest_run {config : Config} (hg : ofConfig config = .ok g) (hp : g.Proper none cs) :
    ∀ ds, ds <+: cs → (g.run ds).AtRest (g.unnotedRun none ds) := by
  rintro ds ⟨es, rfl⟩
  obtain rfl := eq_of_ofConfig hg
  have hp := hp.of_append
  have hstart := (upToDate_empty { config with memoize := false } rfl).current
  have hcurrent := hp.current (trusted_empty config).accounted hstart
  exact .of_plain hcurrent.linked hcurrent.atRest

theorem atRest_darkPanel : ofConfig {} = .ok { config := {} } ∧ ∀ ds, ds <+: darkPanel →
    (run { config := {} } ds).AtRest (unnotedRun { config := {} } none ds) := by
  have hg : ofConfig {} = .ok { config := {} } := rfl
  exact ⟨hg, atRest_run hg (proper_darkPanel _)⟩

end Engine
end Cascade
