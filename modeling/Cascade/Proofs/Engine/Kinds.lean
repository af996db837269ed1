import Cascade.Proofs.Engine.Propagation
import Cascade.Proofs.Kinds

/-!
# Kinds in the engine

Every value that the engine keeps has the kind that was registered for its key, and a style that
is up to date has a value for every registered key.  Computing a style keeps this because every
value is checked against the registry when it is settled; changes of the host keep it because
they change no values, and a property that comes late marks all styles.

## Main definitions

* `Styling.Kinded`, `Engine.Kinded` — the invariant, of one style and of all.
* `Engine.WellKinded` — what can be read off the engine is of the right kind.

## Main results

* `Engine.Kinded.flush` — computing keeps the invariant.
* `Engine.Kinded.effect` — the step: every operation keeps it.
* `Engine.Fitting.kinded` — the run.
* `Engine.Quiet.wellKinded` — **what can be read is of the right kind, and nothing is missing.**
-/

namespace Cascade

/-- The values of a style have the kinds of their keys; if the style is up to date, no value is
missing. -/
structure Styling.Kinded (s : Styling) (r : Registry) : Prop where
  base : s.base.Kinded r
  snapshot : s.snapshot.Kinded r
  overlays : ∀ o ∈ s.overlays, o.values.Kinded r
  complete : s.freshness = .clean → ∀ p ∈ r.properties, (s.base.get? p.key).isSome = true

namespace Styling

variable {s s' : Styling} {r r' : Registry}

/-- A new style has no values, and is not up to date. -/
theorem kinded_empty (r : Registry) : Kinded {} r where
  base := Values.kinded_empty r
  snapshot := Values.kinded_empty r
  overlays := nofun
  complete := nofun

/-- A mark makes room for more properties. -/
theorem Kinded.mark (hs : s.Kinded r) (he : r'.Extends r) :
    Kinded { s with freshness := .dirty } r' where
  base := hs.base.mono he
  snapshot := hs.snapshot.mono he
  overlays := fun o ho => (hs.overlays o ho).mono he
  complete := nofun

/-- Settings may change. -/
theorem Kinded.of_progress (hs : s.Kinded r) (hp : s'.progress = s.progress) : s'.Kinded r := by
  simp only [progress, results, Prod.mk.injEq] at hp
  obtain ⟨hfreshness, -, -, hsnapshot, hbase, hoverlays⟩ := hp
  refine ⟨hbase ▸ hs.base, hsnapshot ▸ hs.snapshot, ?_, ?_⟩
  · intro o ho
    have hmem : (o.name, o.values) ∈ s.overlays.map fun o => (o.name, o.values) :=
      hoverlays ▸ List.mem_map_of_mem ho
    obtain ⟨o', ho', heq⟩ := List.mem_map.1 hmem
    have hvalues : o'.values = o.values := congrArg Prod.snd heq
    exact hvalues ▸ hs.overlays o' ho'
  · rw [hfreshness, hbase]
    exact hs.complete

end Styling

namespace Engine

variable {g g' : Engine} {h : Handle} {s : Styling} {c : Command} {cs : List Command}

/-- All initial values and all values of styles have the kinds of their keys. -/
structure Kinded (g : Engine) : Prop where
  registry : g.registry.Kinded
  styles : ∀ {h s}, g.styles.get? h = some s → s.Kinded g.registry

theorem kinded_empty (config : Config) : Kinded { config } where
  registry := fun _ hp => (List.not_mem_nil hp).elim
  styles := fun hs => by cases hs

namespace Kinded

theorem congr (hg : g.Kinded) (hr : g'.registry = g.registry) (hs : g'.styles = g.styles) :
    g'.Kinded where
  registry := hr ▸ hg.registry
  styles := fun hs' => hr ▸ hg.styles (hs ▸ hs')

/-- One style may be written anew. -/
theorem insert (hg : g.Kinded) (hs : s.Kinded g.registry)
    (hr : g'.registry = g.registry) (hst : g'.styles = g.styles.insert h s) : g'.Kinded where
  registry := hr ▸ hg.registry
  styles := fun {k s'} hs' => by
    rw [hst, Table.get?_insert] at hs'
    rw [hr]
    split at hs'
    · cases hs'
      exact hs
    · exact hg.styles hs'

/-- Values that are taken over have been right for the parent. -/
theorem snapshot (hg : g.Kinded) (h : Handle) : (g.snapshot h).Kinded g.registry := by
  unfold Engine.snapshot
  cases hp : (g.forest.parent? h).bind g.styles.get? with
  | none => exact Values.kinded_empty _
  | some parent =>
    obtain ⟨p, -, hparent⟩ := Option.bind_eq_some_iff.1 hp
    exact (hg.styles hparent).base.inheritable _

/-! ### Computing -/

/-- A style that is computed is of the right kinds, and nothing is missing. -/
theorem computed (hg : g.Kinded) (h : Handle) (s : Styling) (ranking : Ranking) :
    (g.computed h s ranking).1.Kinded g.registry where
  base := Sources.kinded_resolveAll (s := ⟨h, g.registry, ranking, g.snapshot h⟩) hg.registry
  snapshot := hg.snapshot h
  overlays := fun o ho => by
    obtain ⟨x, hx, rfl⟩ := List.mem_map.1 ho
    obtain ⟨o', -, rfl⟩ := List.mem_map.1 hx
    exact Overlay.kinded_recompute (s := g.scene h s.inline) hg.registry o' _
  complete := fun _ p hp => by
    show ((Sources.resolveAll ⟨h, g.registry, ranking, g.snapshot h⟩).1.get? p.key).isSome = true
    rw [Sources.get?_resolveAll, Registry.lookup_of_mem hp]
    rfl

theorem recompute (hg : g.Kinded) (h : Handle) : (g.recompute h).Kinded := by
  rw [recompute_eq]
  split
  · next s _ _ => exact hg.insert (hg.computed h s _) rfl rfl
  · exact hg

theorem refresh (hg : g.Kinded) (h : Handle) : (g.refresh h).Kinded := by
  unfold Engine.refresh
  split
  · exact hg.recompute h
  · exact hg

theorem foldl_refresh {hs : List Handle} (hg : g.Kinded) : (hs.foldl Engine.refresh g).Kinded := by
  induction hs generalizing g with
  | nil => exact hg
  | cons h hs ih => exact ih (hg.refresh h)

/-- **Computing keeps kinds.** -/
theorem flush (hg : g.Kinded) : g.flush.Kinded := by
  unfold Engine.flush
  split
  · exact hg
  · rw [foldl_refreshSubtree_eq]
    exact Kinded.foldl_refresh (hg.congr rfl rfl)

/-- Marks go on styles of the right kinds, or on new ones. -/
theorem foldl_markSubtree (hg : g.Kinded) (rs : List Handle) :
    (rs.foldl markSubtree g).Kinded := by
  have hr : (rs.foldl markSubtree g).registry = g.registry := by rw [foldl_markSubtree_eq]
  refine ⟨hr ▸ hg.registry, ?_⟩
  intro k s hs
  rw [get?_foldl_markSubtree] at hs
  rw [hr]
  split at hs
  · cases hs
    cases hk : g.styles.get? k with
    | none => exact (Styling.kinded_empty _).mark (.refl _)
    | some s => exact (hg.styles hk).mark (.refl _)
  · exact hg.styles hs

theorem restyle (hg : g.Kinded) : (g.restyle h).Kinded :=
  (hg.foldl_markSubtree [h]).flush

theorem restyleAll (hg : g.Kinded) : g.restyleAll.Kinded := (hg.foldl_markSubtree _).flush

/-! ### Changes -/

/-- Changes that compute and mark nothing keep kinds. -/
theorem unmoved (hg : g.Kinded) (hg' : g'.Coherent) (hu : g.Unmoved g')
    (hr : g'.registry = g.registry) : g'.Kinded := by
  refine ⟨hr ▸ hg.registry, ?_⟩
  intro k s' hs'
  have hprogress := hu.progress k (hg'.contains_of_get? hs')
  rw [hs', Option.map_some] at hprogress
  obtain ⟨s, hs, heq⟩ := Option.map_eq_some_iff.1 hprogress.symm
  rw [hr]
  exact (hg.styles hs).of_progress heq.symm

/-- A property that comes late marks all styles, so that none lacks a value unmarked. -/
theorem register (hg : g.Kinded) (hc : g.Coherent) {key : String} {initial : Value}
    {inheritable : Bool} {id : PropertyId} {registry : Registry}
    (hreg : g.registry.register? key initial inheritable = some (id, registry)) :
    (Engine.restyleAll { g with registry }).Kinded := by
  refine Kinded.flush ?_
  have hall : (markAll { g with registry }).registry = registry := by
    rw [markAll, foldl_markSubtree_eq]
  refine ⟨?_, ?_⟩
  · rw [hall]
    exact hg.registry.register? hreg
  · intro k s hs
    rw [hall]
    rw [markAll, get?_foldl_markSubtree] at hs
    split at hs
    · cases hs
      show Styling.Kinded { (g.styles.get? k).getD {} with freshness := .dirty } registry
      cases hk : g.styles.get? k with
      | none => exact (Styling.kinded_empty _).mark (.refl _)
      | some s => exact (hg.styles hk).mark (Registry.extends_register? hreg)
    · next hn =>
      -- an element with a style is live, and so in the subtree of a root
      obtain ⟨r, hr, hkr⟩ := Forest.exists_root hc.linked (hc.contains_of_get? hs)
      exact absurd (List.mem_flatMap.2 ⟨r, hr, hkr⟩) hn

/-- Before there are elements, there are no styles to lack a value. -/
theorem registerEarly (hg : g.Kinded) (hc : g.Coherent) {key : String} {initial : Value}
    {inheritable : Bool} {id : PropertyId} {registry : Registry}
    (hreg : g.registry.register? key initial inheritable = some (id, registry))
    (he : g.forest.isEmpty = true) : Kinded { g with registry } := by
  refine ⟨hg.registry.register? hreg, ?_⟩
  intro k s hs
  exact absurd (hc.contains_of_get? hs) (Forest.not_contains_of_isEmpty hc.forest.slotted he k)

theorem registerOverlay (hg : g.Kinded) {name : String}
    (he : Effect g (.registerOverlay h name) g') : g'.Kinded := by
  cases he with
  | idle => exact hg
  | @registerOverlay _ s _ hh hs ho =>
    refine Kinded.flush (hg.insert (s := { s with overlays := _, freshness := .dirty }) ?_ rfl rfl)
    have hkinded := (hg.styles hs).mark (.refl _)
    refine ⟨hkinded.base, hkinded.snapshot, ?_, nofun⟩
    intro o ho
    rcases List.mem_append.1 ho with ho | ho
    · exact hkinded.overlays o ho
    · obtain rfl := List.mem_singleton.1 ho
      exact Values.kinded_empty _

/-- **Every operation keeps kinds.** -/
theorem effect (hg : g.Kinded) (hc : g.Coherent) (he : Effect g c g') (hw : g.Unwrapped g') :
    g'.Kinded := by
  cases he with
  | idle => exact hg
  | registerEarly hreg he => exact hg.registerEarly hc hreg he
  | register hreg => exact hg.register hc hreg
  | insert e => exact Kinded.flush (hg.insert (Styling.kinded_empty _) rfl rfl)
  | @destroy _ removed u hd =>
    have hr : (g.destroyed removed u).registry = g.registry := by rw [destroyed_eq]
    exact hg.unmoved (hc.destroyed hd) (.destroyed hc hd) hr
  | attach => exact Kinded.restyle (hg.congr rfl rfl)
  | detach => exact Kinded.restyle (hg.congr rfl rfl)
  | noteChange => exact Kinded.restyle (hg.congr rfl rfl)
  | edit => exact Kinded.restyle (hg.congr rfl rfl)
  | editUnnoted => exact hg.congr rfl rfl
  | assignSheet sheet hh =>
    have hassigned := hc.assigned _ sheet hw.of_restyle
    exact (hg.unmoved hassigned (.assigned g _ sheet) (by rw [assigned_eq])).restyle
  | @setInline h inline hh =>
    have hinline : (g.withInline h inline).Coherent := hc.modify fun _ => rfl
    exact (hg.unmoved hinline (.modify fun _ => rfl) rfl).restyle
  | addSheet => exact Kinded.restyleAll (hg.congr rfl rfl)
  | removeSheet => exact Kinded.restyleAll (hg.congr rfl rfl)
  | registerOverlay hh hs ho => exact hg.registerOverlay (.registerOverlay hh hs ho)
  | @setOverlay h name g' enabled blend hh he =>
    have hset : (g'.withOverlay h name enabled blend).Coherent :=
      (hc.registerOverlay he).modify fun _ => rfl
    exact (hg.registerOverlay he).unmoved hset
      (.modify fun s => Quiet.progress_setFirst s name enabled blend) rfl
  | takeDiagnostics => exact hg.congr rfl rfl

end Kinded

/-! ### Registered properties -/

/-- Nothing but a registration changes the registered properties. -/
theorem Effect.registry_cases (he : Effect g c g') :
    g'.registry = g.registry ∨ ∃ key initial inheritable id, c = .register key initial inheritable ∧
      g.registry.register? key initial inheritable = some (id, g'.registry) := by
  cases he with
  | idle => exact .inl rfl
  | registerEarly hreg => exact .inr ⟨_, _, _, _, rfl, hreg⟩
  | register hreg => exact .inr ⟨_, _, _, _, rfl, by rw [registry_restyleAll]; exact hreg⟩
  | insert e => exact .inl (restyled_flush _).registry
  | destroy => exact .inl (by rw [destroyed_eq])
  | attach => exact .inl (registry_restyle _ _)
  | detach => exact .inl (registry_restyle _ _)
  | noteChange => exact .inl (registry_restyle _ _)
  | edit => exact .inl (registry_restyle _ _)
  | editUnnoted => exact .inl rfl
  | assignSheet => exact .inl (by rw [registry_restyle, assigned_eq])
  | setInline => exact .inl (registry_restyle _ _)
  | addSheet => exact .inl (registry_restyleAll _)
  | removeSheet => exact .inl (registry_restyleAll _)
  | registerOverlay => exact .inl (restyled_flush _).registry
  | setOverlay enabled blend hh he =>
    cases he with
    | idle => exact .inl rfl
    | registerOverlay => exact .inl (restyled_flush _).registry
  | takeDiagnostics => exact .inl rfl

theorem extends_after (g : Engine) (c : Command) : (g.after c).registry.Extends g.registry := by
  rcases (effect_after g c).registry_cases with hr | ⟨_, _, _, _, -, hreg⟩
  · exact hr ▸ .refl _
  · exact Registry.extends_register? hreg

/-- A registered property stays as it is. -/
theorem extends_run (g : Engine) (cs : List Command) :
    (g.run cs).registry.Extends g.registry := by
  induction cs generalizing g with
  | nil => exact .refl _
  | cons c cs ih => exact (extends_after g c).trans (ih (g.after c))

/-- A property is registered if its key is free. -/
theorem lookup_after_register {key : String} (hk : g.registry.contains key = false)
    (initial : Value) (inheritable : Bool) :
    (g.after (.register key initial inheritable)).registry.lookup key =
      some ⟨key, initial.kind, inheritable, initial⟩ := by
  show (g.register key initial inheritable).2.registry.lookup key = _
  unfold register
  cases hreg : g.registry.register? key initial inheritable with
  | none => simp [Registry.register?, hk] at hreg
  | some r =>
    dsimp only
    split
    · exact Registry.lookup_register? hreg
    · rw [registry_restyleAll]
      exact Registry.lookup_register? hreg

/-! ### Runs -/

/-- **After every run in which all numbers fit, values have the kinds of their keys.** -/
theorem Fitting.kinded (hf : g.Fitting cs) (hc : g.Coherent) (hg : g.Kinded) :
    (g.run cs).Kinded := by
  induction cs generalizing g with
  | nil => exact hg
  | cons c cs ih => exact ih hf.2 (hc.after c hf.1) (hg.effect hc (effect_after g c) hf.1)

/-! ### What can be read -/

theorem Quiet.freshness_eq (hg : g.Quiet) (hh : g.forest.contains h = true)
    (hs : g.styles.get? h = some s) : s.freshness = .clean := by
  have hclean := hg.clean h hh
  rw [isDirty, hs] at hclean
  cases hfresh : s.freshness with
  | clean => rfl
  | dirty => simp [hfresh] at hclean

/-- What can be read off the engine has the kind of its key, and every live element has a value
for every registered key. -/
structure WellKinded (g : Engine) : Prop where
  isSome_value? : ∀ h key, (g.value? h key).isSome = true ↔
    g.forest.contains h = true ∧ g.registry.contains key = true
  value? : ∀ h key v, g.value? h key = some v → g.registry.Admits key v
  baseValue? : ∀ h key v, g.baseValue? h key = some v → g.registry.Admits key v
  snapshot? : ∀ h vs, g.snapshot? h = some vs → vs.Kinded g.registry
  overlays : ∀ h s, g.styles.get? h = some s → ∀ o ∈ s.overlays, o.values.Kinded g.registry
  combined? : ∀ h vs, g.combined? h = some vs → vs.Kinded g.registry

/-- **What can be read is of the right kind, and nothing is missing.** -/
theorem Quiet.wellKinded (hq : g.Quiet) (hg : g.Kinded) : g.WellKinded := by
  have hvalue : ∀ h key v, g.value? h key = some v → g.registry.Admits key v := by
    intro h key v hv
    obtain ⟨s, hs, hv⟩ := Option.bind_eq_some_iff.1 hv
    have hkinded := hg.styles hs
    exact Values.Kinded.combinedValue (hkinded.base key) hkinded.overlays _ v hv
  refine ⟨?_, hvalue, ?_, ?_, fun h s hs => (hg.styles hs).overlays, ?_⟩
  · intro h key
    constructor
    · intro hsome
      obtain ⟨v, hv⟩ := Option.isSome_iff_exists.1 hsome
      obtain ⟨s, hs, -⟩ := Option.bind_eq_some_iff.1 hv
      exact ⟨hq.contains_of_get? hs, (hvalue h key v hv).contains⟩
    · rintro ⟨hh, hkey⟩
      obtain ⟨s, hs⟩ := hq.exists_styling hh
      obtain ⟨p, hp⟩ := Option.isSome_iff_exists.1 hkey
      obtain ⟨hmem, rfl⟩ := Registry.lookup_eq_some_iff.1 hp
      -- nothing is dirty, so the style is up to date
      have hfresh := hq.freshness_eq hh hs
      rw [Engine.value?, hs]
      exact Values.isSome_combinedValue ((hg.styles hs).complete hfresh p hmem) _ _ _
  · intro h key v hv
    obtain ⟨s, hs, hv⟩ := Option.bind_eq_some_iff.1 hv
    exact (hg.styles hs).base key v hv
  · intro h vs hvs
    obtain ⟨s, hs, rfl⟩ := Option.map_eq_some_iff.1 hvs
    exact (hg.styles hs).snapshot
  · intro h vs hvs
    obtain ⟨s, hs, rfl⟩ := Option.map_eq_some_iff.1 hvs
    exact (hg.styles hs).base.combine (hg.styles hs).overlays _

end Engine
end Cascade
