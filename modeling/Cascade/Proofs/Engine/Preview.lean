import Cascade.Proofs.Engine.Propagation
import Cascade.Proofs.Engine.RootPath
import Cascade.Proofs.Scene.Forcing
import Cascade.Proofs.Selector.Activation

/-!
# Overlays are faithful previews

An overlay is computed while its pseudo-class counts as active on the element, without any change
of the element.  If the host then really activates the pseudo-class, the same comes out: what the
overlay holds are the values that the element then has, and of all other properties the
declaration that wins stays the one that won before.

## Main definitions

* `Engine.Previews` — an overlay says what comes of activating its pseudo-class.
* `Engine.forcedSources` — what the values of the overlay, and later those of the element, come
  from.

## Main results

* `Engine.restyled_edit` — an edit changes element data, and beyond that what is computed only.
* `Engine.ranking_activate` — activating ranks the candidates that forcing ranks.
* `Engine.scratchSnapshot_edit` — an edit does not change what the element takes over.
* `Engine.previews_run` — **after every proper run overlays are faithful previews.**
-/

namespace Cascade

namespace Engine

variable {g g' : Engine} {h a : Handle} {as : List Handle} {s s' : Styling} {o : Overlay}
  {e : Element.Edit} {pseudo : String} {cs : List Command}

/-! ### An edit -/

/-- An edit changes element data, and beyond that what is computed only.  If it is without effect,
there is nothing to note. -/
theorem restyled_edit (hg : g.Coherent) (hh : g.forest.contains h = true) (e : Element.Edit) :
    (g.perform (.edit h e)).1 = .ok .done ∧ (g.edited h e).Restyled (g.after (.edit h e)) := by
  obtain ⟨x, hx⟩ := Forest.contains_iff.1 hh
  have hperform := edit_of_get? hx e
  rw [after, perform, hperform]
  refine ⟨rfl, ?_⟩
  show (g.edited h e).Restyled (if x.changes e = true then _ else g)
  split
  · have hg' := (hg.edited h e).forgetMatches.toCoherent
    exact (restyled_forgetMatches _).trans (restyled_restyle hg'.linked hg'.styled h)
  · next hc =>
    have hforest : g.forest.update h (·.edit e) = g.forest := by
      refine Forest.update_eq_self fun y hy => ?_
      rw [hx] at hy
      cases hy
      exact not_not.1 (mt (x.changes_iff e).2 hc)
    rw [edited, hforest]
    exact .refl g

/-- An edit takes none of the numbers. -/
theorem unwrapped_edit (hg : g.Coherent) (ht : g.lexicon.size ≤ 2 ^ 32)
    (hh : g.forest.contains h = true) (e : Element.Edit) :
    g.Unwrapped (g.after (.edit h e)) := by
  have hr := (restyled_edit hg hh e).2
  refine ⟨?_, ?_, ?_⟩
  · rw [hr.forest, edited, Forest.slots_size_update]
    exact hg.forest.slotted.size_le
  · rw [hr.lexicon]
    exact ht
  · rw [hr.catalogue]
    exact UInt32.le_refl _

/-- A run may go on with an edit. -/
theorem Proper.edit (hp : g.Proper none cs) (hn : g.unnotedRun none cs = none) (hg : g.Coherent)
    (ht : g.lexicon.size ≤ 2 ^ 32) (hh : (g.run cs).forest.contains h = true)
    (e : Element.Edit) : g.Proper none (cs ++ [.edit h e]) := by
  have htexts : (g.run cs).lexicon.size ≤ 2 ^ 32 :=
    hp.induction (P := fun g _ => g.lexicon.size ≤ 2 ^ 32) (fun _ _ hw => hw.texts) ht
  rw [proper_append, hn]
  exact ⟨hp, admits_none _, unwrapped_edit (hp.coherent hg) htexts hh e, trivial⟩

/-! ### What an edit leaves -/

/-- Ways up lead through the same elements as before. -/
theorem lineage_edit (hl : g.forest.Lineage a as) (hr : (g.edited h e).Restyled g') :
    g'.forest.Lineage a as := by
  refine hl.congr fun x hx => ?_
  rw [hr.forest]
  exact ⟨(contains_edited g h x e).trans (hl.contains_of_mem hx), Forest.parent?_edit _ _ _ _⟩

/-- An edit does not change what the element takes over. -/
theorem scratchSnapshot_edit (hl : g.forest.Linked) (hh : g.forest.contains h = true)
    (hr : (g.edited h e).Restyled g') : g'.scratchSnapshot h = g.scratchSnapshot h := by
  have hregistry : g'.registry = g.registry := hr.registry
  have hlin := hl.lineage hh
  have hlin' := lineage_edit hlin hr
  unfold scratchSnapshot
  rw [hlin'.ancestors_eq, hregistry]
  cases hp : g.forest.parent? h with
  | none =>
    rw [Forest.Linked.ancestors_root hh hp]
    rfl
  | some p =>
    -- the parent is not below the element, so it sees nothing of the edit
    have hp' : g.forest.contains p = true := hl.contains_parent hp
    have hpath := Forest.samePath_edit hl e hp' (Forest.notMem_subtree_of_parent? hl hp)
    have hedited : g.SameView (g.edited h e) p := .of_styles rfl rfl rfl hpath fun _ _ => rfl
    have hlive : (g.edited h e).forest.contains p = true := (contains_edited g h p e).trans hp'
    have hview : g.SameView g' p := hedited.trans (hr.sameView (hl.edit h e) hlive)
    rw [hl.ancestors_child hp, hview.scratchBase_eq hl (hl.lineage hp')]

/-! ### Activating and forcing -/

/-- Selectors give the same answers while a pseudo-class is forced and once it has been
activated. -/
theorem answer_activate (hr : (g.edited h (.activate pseudo)).Restyled g')
    (inline : List Declaration) (σ : Selector) (q : Question) :
    (g'.scene h inline).answer σ q = ((g.scene h inline).force pseudo).answer σ q := by
  have hcontext : (g'.scene h inline).context = (g.scene h inline).context.activate h pseudo := by
    unfold scene
    rw [hr.forest, hr.config]
    rfl
  have hR : Bisimulation ((g.scene h inline).force pseudo).context
      (g'.scene h inline).context (· = ·) := by
    rw [hcontext]
    exact (g.scene h inline).context.bisimulation_force h pseudo
  exact Scene.answer_of_bisimulation hR rfl σ q

/-- **Activating a pseudo-class ranks the candidates that forcing it ranks.** -/
theorem ranking_activate (hl : g.forest.Lineage h as)
    (hr : (g.edited h (.activate pseudo)).Restyled g') :
    g'.scratchRanking h = ((g.scene h (g.inline h)).force pseudo).ranking := by
  have hinline : g'.inline h = g.inline h := hr.inline_eq h
  have hlocal : g'.localSheets h = g.localSheets h := by
    unfold localSheets
    rw [(lineage_edit hl hr).pathFromRoot_eq, hl.pathFromRoot_eq]
    exact List.filterMap_congr fun a _ => hr.localSheet?_eq a
  have hcatalogue : g'.catalogue = g.catalogue := hr.catalogue
  rw [scratchRanking, hinline]
  refine Scene.ranking_congr (Scene.rules_congr ?_ ?_) ?_ rfl hr.registry
  · show g'.catalogue.globalOrder ++ g'.localSheets h = g.catalogue.globalOrder ++ g.localSheets h
    rw [hcatalogue, hlocal]
  · intro id _
    exact congrArg (·.get? id) hcatalogue
  · exact answer_activate hr (g.inline h)

/-! ### Previews -/

/-- An overlay says what comes of activating its pseudo-class on the element, which leads from one
engine to the other. -/
structure Previews (g g' : Engine) (h : Handle) (o : Overlay) : Prop where
  /-- What the overlay holds, the element then has. -/
  held : ∀ key v, o.values.get? key = some v → g'.baseValue? h key = some v
  /-- Of a property that the overlay does not hold the same declaration wins before and after, or
  none. -/
  others : ∀ key p, g.registry.lookup key = some p → o.values.get? key = none →
    ∃ s s', g.styles.get? h = some s ∧ g'.styles.get? h = some s' ∧
      s'.ranking.winner p = s.ranking.winner p

/-- What the values of an element come from while a pseudo-class counts as active on it. -/
def forcedSources (g : Engine) (h : Handle) (pseudo : String) : Sources where
  element := h
  registry := g.registry
  ranking := ((g.scene h (g.inline h)).force pseudo).ranking
  snapshot := g.scratchSnapshot h

namespace Settled

/-- An overlay holds the values of those properties that a rule asking for its pseudo-class wins. -/
theorem get?_overlay (hs : g.Settled h s) (ho : o ∈ s.overlays) (key : String) (v : Value) :
    o.values.get? key = some v ↔
      ∃ p, g.registry.lookup key = some p ∧
        (((g.forcedSources h o.name).ranking.winner p).any fun c =>
          (g.scene h (g.inline h)).isDeclaredFor o.name c.origin) = true ∧
        ((g.forcedSources h o.name).settle p).1 = v := by
  have hget := Scene.get?_recompute (g.scene h (g.inline h)) o (g.scratchSnapshot h) key v
  rwa [hs.overlays o ho] at hget

/-- The element has all values from there once the pseudo-class has been activated. -/
theorem get?_base_activate (hl : g.forest.Linked) (hh : g.forest.contains h = true)
    (hr : (g.edited h (.activate pseudo)).Restyled g') (hs' : g'.Settled h s') (key : String) :
    s'.base.get? key =
      (g.registry.lookup key).map fun p => ((g.forcedSources h pseudo).settle p).1 := by
  have hregistry : g'.registry = g.registry := hr.registry
  rw [hs'.base, scratchBase_cons, ranking_activate (hl.lineage hh) hr,
    scratchSnapshot_edit hl hh hr, Sources.get?_resolveAll, hregistry]
  rfl

/-- **Overlays of settled styles are faithful previews,** if the style after the change is settled
as well. -/
theorem previews (hl : g.forest.Linked) (hh : g.forest.contains h = true)
    (hr : (g.edited h (.activate o.name)).Restyled g') (hget : g.styles.get? h = some s)
    (hget' : g'.styles.get? h = some s') (hs : g.Settled h s) (hs' : g'.Settled h s')
    (ho : o ∈ s.overlays) : g.Previews g' h o := by
  have hlin := hl.lineage hh
  refine ⟨?_, ?_⟩
  · intro key v hv
    obtain ⟨p, hp, -, hv⟩ := (hs.get?_overlay ho key v).1 hv
    rw [baseValue?, hget', Option.bind_some, get?_base_activate hl hh hr hs', hp, Option.map_some,
      hv]
  · intro key p hp hnone
    have hkey : g.registry.lookup p.key = some p := (Registry.lookup_eq_some_iff.1 hp).2.symm ▸ hp
    refine ⟨s, s', hget, hget', ?_⟩
    rw [hs'.ranking, ranking_activate hlin hr, hs.ranking]
    refine Scene.winner_force hlin rfl hkey (Bool.eq_false_iff.2 fun hdeclared => ?_)
    -- a property that a rule asking for the pseudo-class wins is held
    have hheld := (hs.get?_overlay ho key _).2 ⟨p, hp, hdeclared, rfl⟩
    rw [hnone] at hheld
    cases hheld

end Settled

/-! ### Runs -/

/-- **Overlays are faithful previews** after every proper run that has noted all changes: the host
may activate the pseudo-class, and gets what the overlay holds. -/
theorem previews_run {config : Config} (hg : ofConfig config = .ok g) (hp : g.Proper none cs)
    (hn : g.unnotedRun none cs = none) (hs : (g.run cs).styles.get? h = some s)
    (ho : o ∈ s.overlays) :
    ((g.run cs).perform (.edit h (.activate o.name))).1 = .ok .done ∧
      (g.run cs).Previews ((g.run cs).after (.edit h (.activate o.name))) h o := by
  obtain rfl := eq_of_ofConfig hg
  have hcoherent := hp.coherent (coherent_empty config)
  have hh := hcoherent.contains_of_get? hs
  obtain ⟨hdone, hr⟩ := restyled_edit hcoherent hh (.activate o.name)
  refine ⟨hdone, ?_⟩
  -- activating the pseudo-class is one more step of the run
  have hp' := hp.edit hn (coherent_empty config) (Nat.zero_le _) hh (.activate o.name)
  have hn' : unnotedRun { config } none (cs ++ [.edit h (.activate o.name)]) = none := by
    rw [unnotedRun_append, hn]
    rfl
  have hrun : run { config } (cs ++ [.edit h (.activate o.name)]) =
      (run { config } cs).after (.edit h (.activate o.name)) := List.foldl_append
  have hh' : ((run { config } cs).after (.edit h (.activate o.name))).forest.contains h = true := by
    rw [hr.forest, contains_edited]
    exact hh
  obtain ⟨-, s₁, hs₁, hsettled⟩ := hp.exists_settled hg hn hh
  obtain ⟨-, s', hs', hsettled'⟩ := hp'.exists_settled hg hn' (hrun ▸ hh')
  obtain rfl : s₁ = s := Option.some.inj (hs₁.symm.trans hs)
  rw [hrun] at hs' hsettled'
  exact hsettled.previews hcoherent.linked hh hr hs hs' hsettled' ho

/-- A button that a sheet is about: in any case, and while it is hovered. -/
def hoverButton : List Command :=
  [.register "opacity" (.int 10) true, .register "width" (.int 1) false,
    .insert { (default : Element) with typeName := "Button" },
    .addSheet
      { rules :=
          [⟨"Button", [{ key := "width", payload := some (.literal (.int 7)) }]⟩,
            ⟨"Button:hover", [{ key := "opacity", payload := some (.literal (.int 5)) }]⟩] },
    .registerOverlay ⟨0, 0⟩ "hover"]

/-- The overlay holds the opacity, and leaves the width to the element. -/
theorem previews_hoverButton :
    let g : Engine := { config := {} }
    (ofConfig {} = .ok g ∧ g.Proper none hoverButton ∧ g.unnotedRun none hoverButton = none) ∧
    ∃ s o, ((g.run hoverButton).styles.get? ⟨0, 0⟩ = some s ∧ o ∈ s.overlays) ∧
      (o.name = "hover" ∧ o.values.get? "opacity" = some (.int 5) ∧
        o.values.get? "width" = none) ∧
      ((g.run hoverButton).perform (.edit ⟨0, 0⟩ (.activate o.name))).1 = .ok .done ∧
      (g.run hoverButton).Previews ((g.run hoverButton).after (.edit ⟨0, 0⟩ (.activate o.name)))
        ⟨0, 0⟩ o := by
  intro g
  have hg : ofConfig {} = .ok g := rfl
  have hp : g.Proper none hoverButton := .of_bounds rfl (room_empty {} (by decide) (by decide))
  have hn : g.unnotedRun none hoverButton = none := by decide +kernel
  have hfound : ((g.run hoverButton).styles.get? ⟨0, 0⟩).any (fun s => s.overlays.any fun o =>
      decide (o.name = "hover" ∧ o.values.get? "opacity" = some (.int 5) ∧
        o.values.get? "width" = none)) = true := by decide +kernel
  obtain ⟨s, hs, hfound⟩ := (Option.any_eq_true _ _).1 hfound
  obtain ⟨o, ho, hvalues⟩ := List.any_eq_true.1 hfound
  exact ⟨⟨hg, hp, hn⟩, s, o, ⟨hs, ho⟩, of_decide_eq_true hvalues, previews_run hg hp hn hs ho⟩

end Engine
end Cascade
