import Cascade.Proofs.Engine.Kinds
import Cascade.Proofs.Engine.RootPath
import Mathlib.Data.List.Find

/-!
# Inheritance reaches any depth

Selectors look up a bounded number of ancestors, but values go down step by step: every element
takes over the inheritable values of its parent, whoever they come from.  So an inheritable
property has the value of the nearest element on the way up that has a declaration for it, however
far away that element is, and its initial value if there is none.

## Main definitions

* `Engine.hasProvider` — a declaration of those that reach an element provides a value.
* `Engine.Inherits` — where the value of a property comes from.

## Main results

* `Sources.settle_of_winner_eq_none` — the value of a property that nothing provides.
* `Engine.scratchBase_nearest`, `Engine.scratchBase_initial` — one way up from an element.
* `Engine.inherits_run` — **values are inherited over any distance.**
-/

namespace Cascade

/-- What nothing provides is taken over or initial; what is taken over has the right kind. -/
theorem Sources.settle_of_winner_eq_none {s : Sources} {p : Property} (hr : s.registry.Kinded)
    (hs : s.snapshot.Kinded s.registry) (hp : s.registry.lookup p.key = some p)
    (hw : s.ranking.winner p = none) : (s.settle p).1 = s.fallback p := by
  have hmem := (Registry.lookup_eq_some_iff.1 hp).1
  have hterminal : s.Terminal p (s.fallback p) := by
    unfold fallback
    split
    · next hi =>
      cases hv : s.snapshot.get? p.key with
      | none => exact .initial hw fun _ => hv
      | some v => exact .inherited hw hi hv
    · next hi => exact .initial hw fun hi' => absurd hi' hi
  have hkind := hterminal.kind_eq hr hs hmem
  rw [(Outcome.value .start List.not_mem_nil hterminal hkind).settle_eq hp]

namespace Engine

variable {g : Engine} {h a : Handle} {as : List Handle} {s : Styling} {p : Property}
  {cs : List Command}

/-- Among the declarations that reach the element, one provides a value for the property. -/
def hasProvider (g : Engine) (p : Property) (h : Handle) : Bool :=
  (g.trace h p.key).any fun c => c.declaration.provides p

theorem Settled.hasProvider_eq (hs : g.styles.get? h = some s) (hsettled : g.Settled h s)
    (p : Property) : g.hasProvider p h = ((g.scratchRanking h).winner p).isSome := by
  rw [hasProvider, trace, hs, Ranking.winner, List.isSome_find?, ← hsettled.ranking]

/-! ### One step up -/

theorem kinded_scratchBase (hr : g.registry.Kinded) (hs : List Handle) :
    (g.scratchBase hs).Kinded g.registry := by
  cases hs with
  | nil => exact Values.kinded_empty _
  | cons h as => exact Sources.kinded_resolveAll (s := ⟨h, g.registry, _, _⟩) hr

/-- An element without a provider has what the element above has. -/
theorem get?_scratchBase_of_winner_eq_none (hr : g.registry.Kinded)
    (hp : g.registry.lookup p.key = some p) (hw : (g.scratchRanking h).winner p = none) :
    (g.scratchBase (h :: as)).get? p.key =
      some (if p.inheritable then ((g.scratchBase as).get? p.key).getD p.initial
        else p.initial) := by
  have hsnap : ((g.scratchBase as).inheritable g.registry).Kinded g.registry :=
    (kinded_scratchBase hr as).inheritable _
  have hsettle := Sources.settle_of_winner_eq_none
    (s := ⟨h, g.registry, g.scratchRanking h, (g.scratchBase as).inheritable g.registry⟩) hr hsnap
    hp hw
  rw [scratchBase, Sources.get?_resolveAll, hp, Option.map_some, hsettle, Sources.fallback,
    Values.inheritable, Table.get?_filter_key, Registry.isInheritable, hp, Option.any_some]
  cases hi : p.inheritable <;> rfl

theorem isSome_scratchBase (hp : g.registry.lookup p.key = some p) (h : Handle)
    (as : List Handle) : ∃ v, (g.scratchBase (h :: as)).get? p.key = some v :=
  ⟨_, by rw [scratchBase, Sources.get?_resolveAll, hp]; rfl⟩

/-! ### The way up -/

/-- An inheritable property has the value of the nearest element with a provider. -/
theorem scratchBase_nearest (hl : g.forest.Lineage h as) (hr : g.registry.Kinded)
    (hp : g.registry.lookup p.key = some p) (hi : p.inheritable = true)
    (ha : (h :: as).find? (fun a => ((g.scratchRanking a).winner p).isSome) = some a) :
    (g.scratchBase (h :: as)).get? p.key =
      (g.scratchBase (a :: g.forest.ancestors a)).get? p.key := by
  induction hl with
  | @root h hh hroot =>
    obtain ⟨-, rfl⟩ : ((g.scratchRanking h).winner p).isSome = true ∧ h = a := by simpa using ha
    rw [Forest.Linked.ancestors_root hh hroot]
  | @child h q as hq hl ih =>
    rw [List.find?_cons] at ha
    split at ha
    · -- the element has a provider itself
      cases ha
      rw [(Forest.Lineage.child hq hl).ancestors_eq]
    · next hn =>
      have hw : (g.scratchRanking h).winner p = none := by simpa using hn
      obtain ⟨v, hv⟩ := isSome_scratchBase hp q as
      rw [get?_scratchBase_of_winner_eq_none hr hp hw, if_pos hi, ← ih ha, hv]
      rfl

/-- A property for which no element on the way has a provider has its initial value. -/
theorem scratchBase_initial (hl : g.forest.Lineage h as) (hr : g.registry.Kinded)
    (hp : g.registry.lookup p.key = some p)
    (ha : ∀ a ∈ h :: as, (g.scratchRanking a).winner p = none) :
    (g.scratchBase (h :: as)).get? p.key = some p.initial := by
  induction hl with
  | root =>
    rw [get?_scratchBase_of_winner_eq_none hr hp (ha _ List.mem_cons_self)]
    exact congrArg some (ite_self _)
  | child _ _ ih =>
    have hup := ih fun a hm => ha a (List.mem_cons_of_mem _ hm)
    rw [get?_scratchBase_of_winner_eq_none hr hp (ha _ List.mem_cons_self), hup]
    exact congrArg some (ite_self _)

/-! ### Runs -/

/-- Where the value of a property comes from: the way up is searched for an element with a
provider, all the way to the root. -/
structure Inherits (g : Engine) (h : Handle) (p : Property) : Prop where
  /-- An inheritable property has the value of the nearest element with a provider. -/
  nearest : p.inheritable = true → ∀ a,
    (h :: g.forest.ancestors h).find? (g.hasProvider p) = some a →
    ∃ v, g.baseValue? h p.key = some v ∧ g.baseValue? a p.key = some v
  /-- A property has its initial value if no element on the way has a provider, or if the element
  has none and there is nothing to inherit. -/
  initial : (h :: g.forest.ancestors h).find? (g.hasProvider p) = none ∨
      p.inheritable = false ∧ g.hasProvider p h = false →
    g.baseValue? h p.key = some p.initial

/-- **Values are inherited over any distance,** after every proper run that has noted all
changes. -/
theorem inherits_run {config : Config} (hg : ofConfig config = .ok g) (hp : g.Proper none cs)
    (hn : g.unnotedRun none cs = none) (hh : (g.run cs).forest.contains h = true)
    {key : String} (hk : (g.run cs).registry.lookup key = some p) : (g.run cs).Inherits h p := by
  obtain rfl := eq_of_ofConfig hg
  have hr := (hp.fitting.kinded (coherent_empty config) (kinded_empty config)).registry
  obtain ⟨hmem, rfl⟩ := Registry.lookup_eq_some_iff.1 hk
  -- all that is asked about the engine can be asked about styles from scratch
  have hsettled := fun a ha => hp.exists_settled (h := a) hg hn ha
  generalize run { config } cs = g at *
  obtain ⟨hl, s, hs, hst⟩ := hsettled h hh
  have hprovider : ∀ a ∈ h :: g.forest.ancestors h,
      g.hasProvider p a = ((g.scratchRanking a).winner p).isSome := by
    intro a ha
    obtain ⟨-, sa, hsa, hsta⟩ := hsettled a (hl.contains_of_mem ha)
    exact hsta.hasProvider_eq hsa p
  have hbase : ∀ a ∈ h :: g.forest.ancestors h, g.baseValue? a p.key =
      (g.scratchBase (a :: g.forest.ancestors a)).get? p.key := by
    intro a ha
    obtain ⟨-, sa, hsa, hsta⟩ := hsettled a (hl.contains_of_mem ha)
    rw [baseValue?, hsa, Option.bind_some, hsta.base]
  have hself : h ∈ h :: g.forest.ancestors h := List.mem_cons_self
  refine ⟨fun hi a ha => ?_, fun hnone => ?_⟩
  · have ham := List.mem_of_find?_eq_some ha
    rw [List.find?_congr hprovider] at ha
    obtain ⟨v, hv⟩ := isSome_scratchBase hk h (g.forest.ancestors h)
    refine ⟨v, (hbase h hself).trans hv, ?_⟩
    rw [hbase a ham, ← scratchBase_nearest hl hr hk hi ha, hv]
  · rw [hbase h hself]
    rcases hnone with hnone | ⟨hi, hnone⟩
    · refine scratchBase_initial hl hr hk fun a ha => ?_
      have hna := List.find?_eq_none.1 hnone a ha
      rw [hprovider a ha] at hna
      simpa using hna
    · rw [hprovider h hself] at hnone
      have hw : (g.scratchRanking h).winner p = none := by simpa using hnone
      rw [get?_scratchBase_of_winner_eq_none hr hk hw, hi]
      rfl

/-- A window, a panel in it, and a label in the panel, of which only the window has a declaration,
one of its own. -/
def windowLabel : List Command :=
  [.register "opacity" (.int 10) true, .register "width" (.int 1) false,
    .insert { (default : Element) with typeName := "Window" },
    .insert { (default : Element) with typeName := "Panel" },
    .insert { (default : Element) with typeName := "Label" },
    .attach ⟨2, 0⟩ ⟨1, 0⟩, .attach ⟨1, 0⟩ ⟨0, 0⟩,
    .setInline ⟨0, 0⟩ [{ key := "opacity", payload := some (.literal (.int 5)) }]]

/-- No declaration reaches the label, further down than a selector can look up, and it has the
opacity of the window all the same. -/
theorem inherits_windowLabel :
    let g : Engine := { config := { maxAncestorDepth := 1 } }
    let p : Property := ⟨"opacity", .int, true, .int 10⟩
    (ofConfig { maxAncestorDepth := 1 } = .ok g ∧ g.Proper none windowLabel ∧
      g.unnotedRun none windowLabel = none ∧ (g.run windowLabel).forest.contains ⟨2, 0⟩ = true ∧
      (g.run windowLabel).registry.lookup "opacity" = some p) ∧
    (g.run windowLabel).trace ⟨2, 0⟩ "opacity" = [] ∧
    ∃ v, (g.run windowLabel).baseValue? ⟨2, 0⟩ "opacity" = some v ∧
      (g.run windowLabel).baseValue? ⟨0, 0⟩ "opacity" = some v := by
  intro g p
  have hg : ofConfig { maxAncestorDepth := 1 } = .ok g := rfl
  have hp : g.Proper none windowLabel := .of_bounds rfl (room_empty _ (by decide) (by decide))
  have hn : g.unnotedRun none windowLabel = none := by decide +kernel
  have hh : (g.run windowLabel).forest.contains ⟨2, 0⟩ = true := by decide +kernel
  have hk : (g.run windowLabel).registry.lookup "opacity" = some p := by decide +kernel
  have htrace : (g.run windowLabel).trace ⟨2, 0⟩ "opacity" = [] := by decide +kernel
  have ha : (⟨2, 0⟩ :: (g.run windowLabel).forest.ancestors ⟨2, 0⟩).find?
      ((g.run windowLabel).hasProvider p) = some ⟨0, 0⟩ := by decide +kernel
  exact ⟨⟨hg, hp, hn, hh, hk⟩, htrace, (inherits_run hg hp hn hh hk).nearest rfl _ ha⟩

end Engine
end Cascade
