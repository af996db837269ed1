import Cascade.Proofs.Engine.Exact
import Cascade.Proofs.Scene.Correspondence

/-!
# Styles depend on the path from the root only

Two elements, of one engine or of two, have the same values if they look the same and so do
their ancestors, one by one, up to the roots.  Siblings, children, other trees, handles, the
numbers of sheets and selectors, and all that has happened before make no difference.

## Main definitions

* `Engine.globalRules`, `Engine.localRules` — what the rules say that may apply.
* `Engine.SameSetting` — two engines have the same properties and global rules.
* `Engine.Resembles` — two elements look the same.
* `Styling.SameValues` — two styles hold the same values.

## Main results

* `Engine.corresponds` — the scenes of elements with the same path say the same.
* `Engine.sameValues_run` — **elements with the same path have the same values.**
-/

namespace Cascade

/-- Two styles hold the same values under every key: values taken over, values of the elements'
own, and values of overlays of the same name. -/
structure Styling.SameValues (s s' : Styling) : Prop where
  snapshot : ∀ key, s'.snapshot.get? key = s.snapshot.get? key
  base : ∀ key, s'.base.get? key = s.base.get? key
  overlays : ∀ o ∈ s.overlays, ∀ o' ∈ s'.overlays, o'.name = o.name →
    ∀ key, o'.values.get? key = o.values.get? key

namespace Engine

variable {g g' : Engine} {h h' a a' : Handle} {as as' : List Handle} {s s' : Styling}
  {cs cs' : List Command}

/-! ### What there is to agree on -/

/-- What the rules of a sheet say, in order.  A number without a sheet has no rules. -/
def rulesIn (g : Engine) (id : SheetId) : List (Selector × List Declaration) :=
  ((g.catalogue.get? id).map fun sheet =>
    sheet.rules.map fun r => (r.selector.selector, r.declarations)).getD []

/-- What the rules of the global sheets say, in the order in which they are looked at. -/
def globalRules (g : Engine) : List (Selector × List Declaration) :=
  g.catalogue.globalOrder.flatMap g.rulesIn

/-- What the rules of the local sheet of an element say. -/
def localRules (g : Engine) (h : Handle) : List (Selector × List Declaration) :=
  ((g.localSheet? h).map g.rulesIn).getD []

/-- Two engines have the same depth limit, the same properties, in whatever order, and the same
global rules. -/
structure SameSetting (g g' : Engine) : Prop where
  maxDepth : g'.config.maxAncestorDepth = g.config.maxAncestorDepth
  registry : g.registry.Same g'.registry
  globalRules : g'.globalRules = g.globalRules

/-- Two elements look the same: they have the same data, which is the type name, the id, the
classes and the pseudo-classes, the same inline declarations, and local sheets with the same
rules. -/
structure Resembles (g g' : Engine) (a a' : Handle) : Prop where
  data : g'.forest.data? a' = g.forest.data? a
  inline : g'.inline a' = g.inline a
  localRules : g'.localRules a' = g.localRules a

instance : Decidable (g.Resembles g' a a') :=
  decidable_of_iff (g'.forest.data? a' = g.forest.data? a ∧ g'.inline a' = g.inline a ∧
    g'.localRules a' = g.localRules a)
    ⟨fun ⟨hd, hi, hl⟩ => ⟨hd, hi, hl⟩, fun hr => ⟨hr.data, hr.inline, hr.localRules⟩⟩

/-! ### Scenes -/

/-- The rules that are looked at say what the global rules say, and then what the local ones on
the way from the root do. -/
theorem content_rules (hl : g.forest.Lineage h as) (inline : List Declaration) :
    (g.scene h inline).rules.map PlacedRule.content =
      g.globalRules ++ (as.reverse ++ [h]).flatMap g.localRules := by
  have hcontent : ∀ id, ((g.scene h inline).rulesOf id).map PlacedRule.content = g.rulesIn id := by
    intro id
    have hcatalogue : (g.scene h inline).catalogue = g.catalogue := rfl
    unfold Scene.rulesOf rulesIn
    rw [hcatalogue]
    cases g.catalogue.get? id with
    | none => rfl
    | some sheet =>
      have hfst : sheet.rules.zipIdx.map Prod.fst = sheet.rules := List.zipIdx_map_fst 0 sheet.rules
      rw [Option.map_some, Option.getD_some, List.map_map]
      conv_rhs => rw [← hfst, List.map_map]
      rfl
  have hlocal : ∀ path : List Handle,
      (path.filterMap fun a => (g.styles.get? a).bind (·.localSheet)).flatMap g.rulesIn =
        path.flatMap g.localRules := by
    intro path
    rw [Scene.flatMap_filterMap]
    refine List.flatMap_congr fun a _ => ?_
    unfold localRules localSheet?
    cases (g.styles.get? a).bind (·.localSheet) <;> rfl
  unfold Scene.rules
  rw [List.map_flatMap, funext hcontent, List.flatMap_append]
  show g.globalRules ++ (g.localSheets h).flatMap g.rulesIn = _
  rw [localSheets, hl.pathFromRoot_eq, hlocal]

/-- Selectors tell no elements apart that look the same, unless something is forced on one of
them alone. -/
theorem Resembles.alike (hr : g.Resembles g' a a') (ha : g.forest.contains a = true)
    {ctx ctx' : MatchContext} (hc : ctx.forest = g.forest) (hc' : ctx'.forest = g'.forest)
    (hf : ∀ name, (ctx.forced == some (a, name)) = (ctx'.forced == some (a', name))) :
    Alike ctx ctx' a a' := by
  refine .of_data? ?_ (hc ▸ ha) hf
  rw [hc, hc', hr.data]

/-- The ends of the paths are twins, and still are while a pseudo-class is forced on both. -/
theorem twins_of_path (hl : g.forest.Lineage h as) (hl' : g'.forest.Lineage h' as')
    (hr : List.Forall₂ (Resembles g g') (h :: as) (h' :: as')) {ctx ctx' : MatchContext}
    (hc : ctx.forest = g.forest) (hc' : ctx'.forest = g'.forest)
    (hf : ctx.forced = none ∧ ctx'.forced = none ∨
      ∃ pseudo, ctx.forced = some (h, pseudo) ∧ ctx'.forced = some (h', pseudo)) :
    Twins ctx ctx' h h' := by
  have hlin : ctx.forest.Lineage h as := by rwa [← hc] at hl
  have hlin' : ctx'.forest.Lineage h' as' := by rwa [← hc'] at hl'
  have halike : ∀ a ∈ h :: as, ∀ a' ∈ h' :: as', (h = a ↔ h' = a') → g.Resembles g' a a' →
      Alike ctx ctx' a a' := by
    intro a ha a' _ hiff hra
    refine hra.alike (hl.contains_of_mem ha) hc hc' ?_
    intro name
    rcases hf with ⟨hf, hf'⟩ | ⟨pseudo, hf, hf'⟩
    · rw [hf, hf']
      rfl
    · rw [hf, hf', Bool.eq_iff_iff, beq_iff_eq, beq_iff_eq, Option.some_inj, Option.some_inj,
        Prod.mk.injEq, Prod.mk.injEq, hiff]
  refine .of_lineages hlin hlin' ?_
  cases hr with
  | cons hself habove =>
    refine .cons (halike h List.mem_cons_self h' List.mem_cons_self (by simp) hself)
      (forall₂_imp_of_mem habove ?_)
    intro a ha a' ha' hra
    -- no element is its own ancestor
    have hne : ¬ h = a := fun he => hl.notMem (he ▸ ha)
    have hne' : ¬ h' = a' := fun he => hl'.notMem (he ▸ ha')
    exact halike a (List.mem_cons_of_mem h ha) a' (List.mem_cons_of_mem h' ha')
      (iff_of_false hne hne') hra

/-- **The scenes of elements with the same path say the same,** and still do while a
pseudo-class is active on both. -/
theorem corresponds (hs : g.SameSetting g') (hl : g.forest.Lineage h as)
    (hl' : g'.forest.Lineage h' as') (hr : List.Forall₂ (Resembles g g') (h :: as) (h' :: as')) :
    (g.scene h (g.inline h)).Corresponds (g'.scene h' (g'.inline h')) ∧
      ∀ pseudo, ((g.scene h (g.inline h)).force pseudo).Corresponds
        ((g'.scene h' (g'.inline h')).force pseudo) := by
  have hinline : g'.inline h' = g.inline h := by
    cases hr with
    | cons hself _ => exact hself.inline
  have hrules : (g'.scene h' (g'.inline h')).rules.map PlacedRule.content =
      (g.scene h (g.inline h)).rules.map PlacedRule.content := by
    have hlocal : ∀ {path path'}, List.Forall₂ (Resembles g g') path path' →
        path'.flatMap g'.localRules = path.flatMap g.localRules := by
      intro path path' hpath
      induction hpath with
      | nil => rfl
      | cons hra _ ih => rw [List.flatMap_cons, List.flatMap_cons, hra.localRules, ih]
    have hpath := List.rel_reverse hr
    rw [List.reverse_cons, List.reverse_cons] at hpath
    rw [content_rules hl, content_rules hl', hs.globalRules, hlocal hpath]
  refine ⟨⟨?_, hs.maxDepth.symm, hrules, hinline, hs.registry⟩,
    fun pseudo => ⟨?_, hs.maxDepth.symm, hrules, hinline, hs.registry⟩⟩
  · exact twins_of_path hl hl' hr rfl rfl (.inl ⟨rfl, rfl⟩)
  · exact twins_of_path hl hl' hr rfl rfl (.inr ⟨pseudo, rfl, rfl⟩)

/-! ### Values -/

/-- From the root down, the values of the elements above are the same. -/
theorem get?_scratchBase_above (hs : g.SameSetting g') (hl : g.forest.Lineage h as)
    (hl' : g'.forest.Lineage h' as') (hr : List.Forall₂ (Resembles g g') (h :: as) (h' :: as'))
    (key : String) : (g'.scratchBase as').get? key = (g.scratchBase as).get? key := by
  induction hl generalizing h' as' key with
  | root =>
    cases hr with
    | cons _ hnil =>
      cases hnil
      rfl
  | child hp hl ih =>
    cases hr with
    | cons _ habove =>
      cases hl' with
      | root => cases habove
      | child hp' hl' =>
        have hsnapshot := hs.registry.get?_inheritable (ih hl' habove)
        exact ((corresponds hs hl hl' habove).1.sources hsnapshot).get?_resolveAll_eq key

/-- **Settled styles of elements with the same path hold the same values.** -/
theorem Settled.sameValues (hs : g.SameSetting g') (hl : g.forest.Lineage h as)
    (hl' : g'.forest.Lineage h' as') (hr : List.Forall₂ (Resembles g g') (h :: as) (h' :: as'))
    (hsettled : g.Settled h s) (hsettled' : g'.Settled h' s') : s.SameValues s' := by
  obtain ⟨hcorresponds, hforced⟩ := corresponds hs hl hl' hr
  have hsnapshot : ∀ key, (g'.scratchSnapshot h').get? key = (g.scratchSnapshot h).get? key := by
    unfold scratchSnapshot
    rw [hl.ancestors_eq, hl'.ancestors_eq]
    exact hs.registry.get?_inheritable (get?_scratchBase_above hs hl hl' hr)
  refine ⟨?_, ?_, ?_⟩
  · rw [hsettled.snapshot, hsettled'.snapshot]
    exact hsnapshot
  · rw [hsettled.base, hsettled'.base, scratchBase_cons, scratchBase_cons]
    exact (hcorresponds.sources hsnapshot).get?_resolveAll_eq
  · intro o ho o' ho' hname key
    rw [← hsettled.overlays o ho, ← hsettled'.overlays o' ho']
    exact Scene.Corresponds.get?_recompute_eq hname (hforced o.name) hsnapshot key

/-! ### Runs -/

/-- After a proper run that has noted all changes the style of every element is settled. -/
theorem Proper.exists_settled {config : Config} (hg : ofConfig config = .ok g)
    (hp : g.Proper none cs) (hn : g.unnotedRun none cs = none)
    (hh : (g.run cs).forest.contains h = true) :
    (g.run cs).forest.Lineage h ((g.run cs).forest.ancestors h) ∧
      ∃ s, (g.run cs).styles.get? h = some s ∧ (g.run cs).Settled h s := by
  obtain rfl := eq_of_ofConfig hg
  have hstart := (upToDate_empty { config with memoize := false } rfl).current
  have hcurrent := hp.current (trusted_empty config).accounted hstart
  rw [hn] at hcurrent
  obtain ⟨s, hs, -, hsettled⟩ := hcurrent.upToDate.fresh h hh
  have hview : (run { config } cs).plain.SameView (run { config } cs) h :=
    sameView_plain hcurrent.linked hh
  exact ⟨hcurrent.linked.lineage hh, s, hs, hview.settled hcurrent.linked hsettled⟩

/-- **Elements with the same path from the root have the same values,** after any two proper
runs of any two engines. -/
theorem sameValues_run {config config' : Config} (hg : ofConfig config = .ok g)
    (hg' : ofConfig config' = .ok g') (hp : g.Proper none cs) (hp' : g'.Proper none cs')
    (hn : g.unnotedRun none cs = none) (hn' : g'.unnotedRun none cs' = none)
    (hs : (g.run cs).SameSetting (g'.run cs')) (hh : (g.run cs).forest.contains h = true)
    (hh' : (g'.run cs').forest.contains h' = true)
    (hr : List.Forall₂ ((g.run cs).Resembles (g'.run cs')) ((g.run cs).forest.pathFromRoot h)
      ((g'.run cs').forest.pathFromRoot h')) :
    ∃ s s', (g.run cs).styles.get? h = some s ∧ (g'.run cs').styles.get? h' = some s' ∧
      s.SameValues s' := by
  obtain ⟨hl, s, hget, hsettled⟩ := hp.exists_settled hg hn hh
  obtain ⟨hl', s', hget', hsettled'⟩ := hp'.exists_settled hg' hn' hh'
  refine ⟨s, s', hget, hget', ?_⟩
  have hup := List.rel_reverse hr
  rw [hl.pathFromRoot_eq, hl'.pathFromRoot_eq, List.reverse_append, List.reverse_append,
    List.reverse_reverse, List.reverse_reverse] at hup
  exact hsettled.sameValues hs hl hl' hup hsettled'

/-- The dark panel and its button once more, made in another order, under other handles and
beside a label that goes. -/
def darkWindow : List Command :=
  [.insert { (default : Element) with typeName := "Label" },
    .addSheet
      { rules := [⟨"Panel.dark", [{ key := "opacity", payload := some (.literal (.int 5)) }]⟩] },
    .register "opacity" (.int 10) true, .insert { (default : Element) with typeName := "Panel" },
    .insert { (default : Element) with typeName := "Button" },
    .setInline ⟨2, 0⟩ [{ key := "opacity", mode := .initial }], .edit ⟨1, 0⟩ (.addClass "dark"),
    .attach ⟨2, 0⟩ ⟨1, 0⟩, .registerOverlay ⟨2, 0⟩ "hover", .destroy ⟨0, 0⟩]

theorem sameValues_darkWindow :
    let g : Engine := { config := {} }
    let cs := darkPanel.take 9
    (ofConfig {} = .ok g ∧ g.Proper none cs ∧ g.Proper none darkWindow ∧
      g.unnotedRun none cs = none ∧ g.unnotedRun none darkWindow = none ∧
      (g.run cs).SameSetting (g.run darkWindow) ∧ (g.run cs).forest.contains ⟨1, 0⟩ = true ∧
      (g.run darkWindow).forest.contains ⟨2, 0⟩ = true ∧
      List.Forall₂ ((g.run cs).Resembles (g.run darkWindow)) ((g.run cs).forest.pathFromRoot ⟨1, 0⟩)
        ((g.run darkWindow).forest.pathFromRoot ⟨2, 0⟩)) ∧
    ∃ s s', (g.run cs).styles.get? ⟨1, 0⟩ = some s ∧
      (g.run darkWindow).styles.get? ⟨2, 0⟩ = some s' ∧ s.SameValues s' := by
  intro g cs
  have hg : ofConfig {} = .ok g := rfl
  have hrun : g.Proper none (cs ++ darkPanel.drop 9) := proper_darkPanel {}
  have hp : g.Proper none cs := hrun.of_append
  have hp' : g.Proper none darkWindow := .of_bounds rfl (room_empty {} (by decide) (by decide))
  have hn : g.unnotedRun none cs = none := by decide +kernel
  have hn' : g.unnotedRun none darkWindow = none := by decide +kernel
  have hproperties : (g.run darkWindow).registry.properties = (g.run cs).registry.properties := by
    decide +kernel
  have hs : (g.run cs).SameSetting (g.run darkWindow) :=
    ⟨by decide +kernel, fun p => by rw [hproperties], by decide +kernel⟩
  have hh : (g.run cs).forest.contains ⟨1, 0⟩ = true := by decide +kernel
  have hh' : (g.run darkWindow).forest.contains ⟨2, 0⟩ = true := by decide +kernel
  have hr : List.Forall₂ ((g.run cs).Resembles (g.run darkWindow))
      ((g.run cs).forest.pathFromRoot ⟨1, 0⟩) ((g.run darkWindow).forest.pathFromRoot ⟨2, 0⟩) := by
    decide +kernel
  exact ⟨⟨hg, hp, hp', hn, hn', hs, hh, hh', hr⟩,
    sameValues_run hg hg hp hp' hn hn' hs hh hh' hr⟩

end Engine
end Cascade
