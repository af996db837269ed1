import Cascade.Proofs.Engine.Preview
import Cascade.Proofs.Selector.Subject

/-!
# Which rules fill an overlay

The winner of a property gets into an overlay if its selector asks for the pseudo-class.  Whether
the selector applies to the element is not looked at.  So there are two ways in: the rule applies to
the element while the pseudo-class counts as active on it, or the property is inheritable and the
rule applies to an ancestor alone, as it may if the ancestor really has the pseudo-class.  What
comes in that way has nothing to do with the pseudo-class of the element: the same declaration wins
without it.

## Main definitions

* `Scene.Reaches` — the two ways in which the rule of a winner reaches the element.
* `Engine.Fills` — a rule puts a property into an overlay.

## Main results

* `Scene.reaches_of_winner` — a rule that asks for the pseudo-class reaches the element if it wins.
* `Engine.fills_run` — **what an overlay holds comes from the element or from above,** and from the
  element if no ancestor has the pseudo-class.
-/

namespace Cascade

/-! ### The two ways in -/

namespace Scene

variable {s : Scene} {as : List Handle} {pseudo : String} {p : Property} {c : Candidate}
  {σ : Selector}

/-- How the rule of a winner, which has the selector `σ`, reaches the element while `pseudo` counts
as active on it. -/
inductive Reaches (s : Scene) (pseudo : String) (p : Property) (c : Candidate) (σ : Selector) :
    Prop where
  /-- The selector applies to the element. -/
  | element (exact : c.exact = true) (applies : (s.force pseudo).Applies σ)
  /-- The selector applies to an ancestor alone.  Nothing is forced on the ancestor, and the
  declaration wins in any case. -/
  | ancestor (a : Handle) (exact : c.exact = false) (inheritable : p.inheritable = true)
      (not_applies : ¬ (s.force pseudo).Applies σ) (mem : a ∈ s.context.ancestors s.element)
      (holds : σ.holds s.context a = true) (winner : s.ranking.winner p = some c)

/-- A rule that requires the pseudo-class reaches the element itself, if no ancestor has it. -/
theorem Reaches.exact_of_requires (hσ : s.Reaches pseudo p c σ) (hr : σ.requires pseudo = true)
    (ha : ∀ a ∈ s.context.ancestors s.element,
      (Selector.ofPseudo pseudo).holds s.context a = false) : c.exact = true := by
  cases hσ with
  | element hexact _ => exact hexact
  | ancestor a _ _ _ hm hholds _ =>
    have hactive := Selector.holds_of_requires hr hholds
    rw [ha a hm] at hactive
    cases hactive

/-- **A rule that asks for the pseudo-class wins in one of the two ways.** -/
theorem reaches_of_winner (hl : s.context.forest.Lineage s.element as)
    (hf : s.context.forced = none) (hp : s.registry.lookup p.key = some p)
    (hw : (s.force pseudo).ranking.winner p = some c)
    (hd : s.isDeclaredFor pseudo c.origin = true) :
    ∃ r ∈ s.rules, (∃ d ∈ declarationsOf p.key r.rule.declarations, reference c.exact r d = c) ∧
      r.rule.selector.selector.asksFor pseudo = true ∧
      s.Reaches pseudo p c r.rule.selector.selector := by
  have hw' := hw
  rw [winner_eq_or, Option.or_eq_some_iff, Option.or_eq_some_iff] at hw
  rcases hw with hw | ⟨hinline, hw | ⟨hmatched, hw⟩⟩
  · -- inline declarations do not ask for anything
    have hm := List.mem_of_find?_eq_some hw
    rw [group, group_inline (s := s.force pseudo) hp, List.mem_reverse] at hm
    obtain ⟨d, -, rfl⟩ := List.mem_map.1 hm
    cases hd
  · obtain ⟨r, hr, hσ, d, hdm, rfl⟩ := (mem_group_matched (s := s.force pseudo) hp).1
      (List.mem_of_find?_eq_some hw)
    have hr : r ∈ s.rules := hr
    rw [isDeclaredFor_reference hr] at hd
    exact ⟨r, hr, ⟨d, hdm, rfl⟩, hd, .element rfl hσ⟩
  · have hm := List.mem_of_find?_eq_some hw
    obtain ⟨r, hr, hσ, d, hdm, rfl⟩ := of_mem_group_inherited (s := s.force pseudo) hp hm
    have hr : r ∈ s.rules := hr
    rw [isDeclaredFor_reference hr] at hd
    have hinheritable : p.inheritable = true := by
      rw [group, group_inherited (s := s.force pseudo) hp] at hm
      by_contra hi
      rw [if_neg hi] at hm
      cases hm
    obtain ⟨hnot, -, a, ha, hholds⟩ := (appliesAbove_force_iff hl hf).1 hσ
    refine ⟨r, hr, ⟨d, hdm, rfl⟩, hd, .ancestor a rfl hinheritable hnot ha hholds ?_⟩
    -- no declaration in front of it was lost, and it was there before
    have hplain : (s.group p.key .matched).find? (·.declaration.provides p) = none := by
      rw [find?_matched_force hl hf hp fun c hc => ?_, hmatched]
      rw [hmatched] at hc
      cases hc
    rw [group_inline_force hp] at hinline
    rw [winner_eq_or, hinline, hplain, Option.none_or, Option.none_or,
      find?_inherited_force hl hf hp hmatched, hw]

end Scene

namespace Engine

variable {g : Engine} {h : Handle} {s : Styling} {o : Overlay} {cs : List Command}

/-- A rule puts a property into the overlay of a pseudo-class. -/
structure Fills (g : Engine) (h : Handle) (pseudo : String) (p : Property) (c : Candidate)
    (r : PlacedRule) : Prop where
  /-- The reference to it wins while the pseudo-class counts as active on the element. -/
  winner : (g.forcedSources h pseudo).ranking.winner p = some c
  /-- It is one of the rules that are looked at. -/
  rule : r ∈ (g.scene h (g.inline h)).rules
  /-- It has the declaration. -/
  declared : ∃ d ∈ Scene.declarationsOf p.key r.rule.declarations, Scene.reference c.exact r d = c
  /-- Its selector asks for the pseudo-class on its subject. -/
  asks : r.rule.selector.selector.asksFor pseudo = true
  /-- It reaches the element in one of the two ways. -/
  reaches : (g.scene h (g.inline h)).Reaches pseudo p c r.rule.selector.selector

/-- **What an overlay holds comes from a rule that asks for its pseudo-class,** after every proper
run that has noted all changes.  The rule applies to the element with the pseudo-class, or else to
an ancestor; it applies to the element if it requires the pseudo-class and no ancestor has it. -/
theorem fills_run {config : Config} (hg : ofConfig config = .ok g) (hp : g.Proper none cs)
    (hn : g.unnotedRun none cs = none) (hs : (g.run cs).styles.get? h = some s)
    (ho : o ∈ s.overlays) {key : String} {v : Value} (hv : o.values.get? key = some v) :
    ∃ p c r, (g.run cs).registry.lookup key = some p ∧ (g.run cs).Fills h o.name p c r ∧
      (r.rule.selector.selector.requires o.name = true →
        (∀ a ∈ ((g.run cs).forest.ancestors h).take (g.run cs).config.maxAncestorDepth,
          ∀ e, (g.run cs).forest.get? a = some e → e.pseudoClasses.contains o.name = false) →
        c.exact = true) := by
  have hcoherent : (g.run cs).Coherent := by
    obtain rfl := eq_of_ofConfig hg
    exact hp.coherent (coherent_empty config)
  obtain ⟨hl, s₁, hs₁, hsettled⟩ := hp.exists_settled hg hn (hcoherent.contains_of_get? hs)
  obtain rfl : s₁ = s := Option.some.inj (hs₁.symm.trans hs)
  generalize g.run cs = g at *
  obtain ⟨p, hk, hw, -⟩ := (hsettled.get?_overlay ho key v).1 hv
  obtain ⟨c, hw, hd⟩ := (Option.any_eq_true _ _).1 hw
  have hkey : g.registry.lookup p.key = some p := (Registry.lookup_eq_some_iff.1 hk).2.symm ▸ hk
  obtain ⟨r, hr, hdeclared, hasks, hreaches⟩ :=
    Scene.reaches_of_winner (s := g.scene h (g.inline h)) hl rfl hkey hw hd
  refine ⟨p, c, r, hk, ⟨hw, hr, hdeclared, hasks, hreaches⟩, fun hrequires hnone => ?_⟩
  refine hreaches.exact_of_requires hrequires fun a ha => ?_
  obtain ⟨e, he⟩ : ∃ e, g.forest.get? a = some e :=
    Forest.contains_iff.1 (hl.contains_of_mem (List.mem_cons_of_mem h (List.mem_of_mem_take ha)))
  show ((g.forest.get? a).any fun e => e.pseudoClasses.contains o.name || _) = false
  rw [he, Option.any_some, hnone a ha e he]
  rfl

/-- A panel that is hovered, with a button in it that has overlays of its own. -/
def hoveredPanel : List Command :=
  [.register "opacity" (.int 100) true,
    .insert { (default : Element) with typeName := "Panel" },
    .insert { (default : Element) with typeName := "Button" }, .attach ⟨1, 0⟩ ⟨0, 0⟩,
    .addSheet
      { rules :=
          [⟨"Panel:hover", [{ key := "opacity", payload := some (.literal (.int 40)) }]⟩,
            ⟨"Button:focus", [{ key := "opacity", payload := some (.literal (.int 80)) }]⟩] },
    .edit ⟨0, 0⟩ (.activate "hover"), .registerOverlay ⟨1, 0⟩ "focus",
    .registerOverlay ⟨1, 0⟩ "hover"]

/-- The overlay for the focus holds the opacity that the rule about the button has. -/
theorem fills_hoveredPanel :
    let g : Engine := { config := {} }
    (ofConfig {} = .ok g ∧ g.Proper none hoveredPanel ∧ g.unnotedRun none hoveredPanel = none) ∧
    ∃ s o, ((g.run hoveredPanel).styles.get? ⟨1, 0⟩ = some s ∧ o ∈ s.overlays ∧
      o.values.get? "opacity" = some (.int 80)) ∧ o.name = "focus" ∧
      ∃ p c r, (g.run hoveredPanel).registry.lookup "opacity" = some p ∧
        (g.run hoveredPanel).Fills ⟨1, 0⟩ o.name p c r ∧
        (r.rule.selector.selector.requires o.name = true →
          (∀ a ∈ ((g.run hoveredPanel).forest.ancestors ⟨1, 0⟩).take
              (g.run hoveredPanel).config.maxAncestorDepth,
            ∀ e, (g.run hoveredPanel).forest.get? a = some e →
              e.pseudoClasses.contains o.name = false) →
          c.exact = true) := by
  intro g
  have hg : ofConfig {} = .ok g := rfl
  have hp : g.Proper none hoveredPanel := .of_bounds rfl (room_empty {} (by decide) (by decide))
  have hn : g.unnotedRun none hoveredPanel = none := by decide +kernel
  have hfound : ((g.run hoveredPanel).styles.get? ⟨1, 0⟩).any (fun s => s.overlays.any fun o =>
      decide (o.values.get? "opacity" = some (.int 80) ∧ o.name = "focus")) = true := by
    decide +kernel
  obtain ⟨s, hs, hfound⟩ := (Option.any_eq_true _ _).1 hfound
  obtain ⟨o, ho, hvalues⟩ := List.any_eq_true.1 hfound
  obtain ⟨hv, hname⟩ := of_decide_eq_true hvalues
  exact ⟨⟨hg, hp, hn⟩, s, o, ⟨hs, ho, hv⟩, hname, fills_run hg hp hn hs ho hv⟩

/-- The overlay for hovering holds the opacity of the panel, although the rule about the panel does
not apply to the button. -/
theorem not_exact_hoveredPanel :
    let g : Engine := { config := {} }
    (ofConfig {} = .ok g ∧ g.Proper none hoveredPanel ∧ g.unnotedRun none hoveredPanel = none) ∧
    (∃ s o, (g.run hoveredPanel).styles.get? ⟨1, 0⟩ = some s ∧ o ∈ s.overlays ∧ o.name = "hover" ∧
      o.values.get? "opacity" = some (.int 40)) ∧
    ∃ p c, (g.run hoveredPanel).registry.lookup "opacity" = some p ∧
      ((g.run hoveredPanel).forcedSources ⟨1, 0⟩ "hover").ranking.winner p = some c ∧
      c.exact = false := by
  intro g
  have hp : g.Proper none hoveredPanel := .of_bounds rfl (room_empty {} (by decide) (by decide))
  have hfound : ((g.run hoveredPanel).styles.get? ⟨1, 0⟩).any (fun s => s.overlays.any fun o =>
      decide (o.name = "hover" ∧ o.values.get? "opacity" = some (.int 40))) = true := by
    decide +kernel
  obtain ⟨s, hs, hfound⟩ := (Option.any_eq_true _ _).1 hfound
  obtain ⟨o, ho, hvalues⟩ := List.any_eq_true.1 hfound
  obtain ⟨hname, hv⟩ := of_decide_eq_true hvalues
  have hwinner : ((g.run hoveredPanel).registry.lookup "opacity").any (fun p =>
      (((g.run hoveredPanel).forcedSources ⟨1, 0⟩ "hover").ranking.winner p).any fun c =>
        decide (c.exact = false)) = true := by decide +kernel
  obtain ⟨p, hk, hwinner⟩ := (Option.any_eq_true _ _).1 hwinner
  obtain ⟨c, hw, hexact⟩ := (Option.any_eq_true _ _).1 hwinner
  exact ⟨⟨rfl, hp, by decide +kernel⟩, ⟨s, o, hs, ho, hname, hv⟩, p, c, hk, hw,
    of_decide_eq_true hexact⟩

end Engine
end Cascade
