import Cascade.Proofs.Engine.Coherence
import Cascade.Proofs.Scene.Agreement

/-!
# Styles from scratch

What the style of an element has to be is said here without reference to any style that the
engine keeps: by recursion along the path from the root, from the elements, the sheets, the
inline declarations and the properties alone.  It follows that changes elsewhere do not matter.

## Main definitions

* `Engine.scratchRanking`, `Engine.scratchBase`, `Engine.scratchSnapshot` — a style from scratch.
* `Engine.Settled` — a style is what it would be from scratch.
* `Engine.SameView` — two engines agree on all that the style of an element comes from.

## Main results

* `Engine.settled_computed` — a style computed after that of the parent is settled.
* `Engine.SameView.settled` — a settled style stays settled where nothing has changed.
-/

namespace Cascade
namespace Engine

variable {g g' g'' : Engine} {h k : Handle} {s : Styling} {as : List Handle}

/-! ### From scratch -/

/-- The ranked candidates of an element, as matching gives them now. -/
def scratchRanking (g : Engine) (h : Handle) : Ranking := (g.scene h (g.inline h)).ranking

/-- The values of the element at the head of a path up to a root: each element takes over the
inheritable values of the next one on the way. -/
def scratchBase (g : Engine) : List Handle → Values
  | [] => {}
  | h :: as =>
    (Sources.resolveAll
      ⟨h, g.registry, g.scratchRanking h, (scratchBase g as).inheritable g.registry⟩).1

/-- The values that an element takes over. -/
def scratchSnapshot (g : Engine) (h : Handle) : Values :=
  (g.scratchBase (g.forest.ancestors h)).inheritable g.registry

/-- A style is what it would be from scratch. -/
structure Settled (g : Engine) (h : Handle) (s : Styling) : Prop where
  ranking : s.ranking = g.scratchRanking h
  snapshot : s.snapshot = g.scratchSnapshot h
  base : s.base = g.scratchBase (h :: g.forest.ancestors h)
  /-- Computing an overlay again changes nothing. -/
  overlays : ∀ o ∈ s.overlays,
    (o.recompute (g.scene h (g.inline h)) (g.scratchSnapshot h)).1 = o

theorem scratchBase_cons (g : Engine) (h : Handle) :
    g.scratchBase (h :: g.forest.ancestors h) =
      (Sources.resolveAll ⟨h, g.registry, g.scratchRanking h, g.scratchSnapshot h⟩).1 := rfl

/-- What an overlay computes depends on its name. -/
theorem recompute_idem (o : Overlay) (s : Scene) (snapshot : Values) :
    ((o.recompute s snapshot).1.recompute s snapshot).1 = (o.recompute s snapshot).1 := rfl

/-- **A style that is computed from the right snapshot is settled.** -/
theorem settled_computed (hs : g.styles.get? h = some s)
    (hsnap : g.snapshot h = g.scratchSnapshot h) :
    g.Settled h (g.computed h s (g.scene h s.inline).ranking).1 := by
  have hinline : g.inline h = s.inline := by rw [inline, hs]; rfl
  have hranking : g.scratchRanking h = (g.scene h s.inline).ranking := by
    rw [scratchRanking, hinline]
  refine ⟨hranking.symm, hsnap, ?_, ?_⟩
  · rw [scratchBase_cons, hranking, ← hsnap]
    rfl
  · intro o ho
    rw [hinline, ← hsnap]
    -- the overlay has been computed just now
    obtain ⟨r, hr, rfl⟩ := List.mem_map.1 ho
    obtain ⟨o, -, rfl⟩ := List.mem_map.1 hr
    exact recompute_idem o _ _

/-- The values of a settled parent are the ones to take over. -/
theorem snapshot_eq_of_child {p : Handle} {sp : Styling} (hl : g.forest.Linked)
    (hp : g.forest.parent? h = some p) (hs : g.styles.get? p = some sp) (hsp : g.Settled p sp) :
    g.snapshot h = g.scratchSnapshot h := by
  unfold snapshot scratchSnapshot
  rw [hl.ancestors_child hp, ← hsp.base, hp, Option.bind_some, hs]

/-- A root takes over nothing. -/
theorem snapshot_eq_of_root (hh : g.forest.contains h = true) (hp : g.forest.parent? h = none) :
    g.snapshot h = g.scratchSnapshot h := by
  unfold snapshot scratchSnapshot
  rw [Forest.Linked.ancestors_root hh hp, hp]
  rfl

/-! ### The same view -/

/-- A sheet reaches an element if it is global, or local to an element on the path. -/
def Reaches (g : Engine) (h : Handle) (id : SheetId) : Prop :=
  id ∈ g.catalogue.globalOrder ∨ ∃ a ∈ h :: g.forest.ancestors h, g.localSheet? a = some id

/-- Two engines agree on all that the style of an element comes from. -/
structure SameView (g g' : Engine) (h : Handle) : Prop where
  maxDepth : g'.config.maxAncestorDepth = g.config.maxAncestorDepth
  registry : g'.registry = g.registry
  path : g.forest.SamePath g'.forest h
  inline : ∀ a ∈ h :: g.forest.ancestors h, g'.inline a = g.inline a
  localSheet : ∀ a ∈ h :: g.forest.ancestors h, g'.localSheet? a = g.localSheet? a
  order : g'.catalogue.globalOrder = g.catalogue.globalOrder
  sheet : ∀ id, g.Reaches h id → g'.catalogue.get? id = g.catalogue.get? id

theorem Restyled.sameView (hr : g.Restyled g') (hl : g.forest.Linked)
    (hh : g.forest.contains h = true) : g.SameView g' h where
  maxDepth := by rw [hr.config]
  registry := hr.registry
  path := by rw [hr.forest]; exact .refl hl hh
  inline := fun a _ => hr.inline_eq a
  localSheet := fun a _ => hr.localSheet?_eq a
  order := by rw [hr.catalogue]
  sheet := fun _ _ => by rw [hr.catalogue]

namespace SameView

/-- An element sees nothing that its descendants do not see. -/
theorem of_mem (hl : g.forest.Linked) (hv : g.SameView g' h) (hk : k ∈ h :: g.forest.ancestors h) :
    g.SameView g' k where
  maxDepth := hv.maxDepth
  registry := hv.registry
  path := hv.path.of_mem hk
  inline := fun a ha => hv.inline a (hl.path_subset hk ha)
  localSheet := fun a ha => hv.localSheet a (hl.path_subset hk ha)
  order := hv.order
  sheet := fun i hi => hv.sheet i (hi.imp_right fun ⟨a, ha, has⟩ => ⟨a, hl.path_subset hk ha, has⟩)

/-- The same sheets reach the element. -/
theorem reaches_iff (hv : g.SameView g' h) {id : SheetId} : g'.Reaches h id ↔ g.Reaches h id := by
  unfold Reaches
  rw [hv.order, hv.path.ancestors_eq]
  refine or_congr_right (exists_congr fun a => and_congr_right ?_)
  intro ha
  rw [hv.localSheet a ha]

theorem trans (hv : g.SameView g' h) (hv' : g'.SameView g'' h) : g.SameView g'' h where
  maxDepth := hv'.maxDepth.trans hv.maxDepth
  registry := hv'.registry.trans hv.registry
  path := hv.path.trans hv'.path
  inline := fun a ha =>
    (hv'.inline a (by rwa [hv.path.ancestors_eq])).trans (hv.inline a ha)
  localSheet := fun a ha =>
    (hv'.localSheet a (by rwa [hv.path.ancestors_eq])).trans (hv.localSheet a ha)
  order := hv'.order.trans hv.order
  sheet := fun id hid => (hv'.sheet id (hv.reaches_iff.2 hid)).trans (hv.sheet id hid)

/-- The sheets stay, and so do the settings and the links along the path. -/
theorem of_styles (hd : g'.config.maxAncestorDepth = g.config.maxAncestorDepth)
    (hr : g'.registry = g.registry)
    (hcat : g'.catalogue = g.catalogue) (hp : g.forest.SamePath g'.forest h)
    (hs : ∀ a ∈ h :: g.forest.ancestors h, g'.styles.get? a = g.styles.get? a) :
    g.SameView g' h where
  maxDepth := hd
  registry := hr
  path := hp
  inline := fun a ha => by rw [Engine.inline, hs a ha, Engine.inline]
  localSheet := fun a ha => by rw [localSheet?, hs a ha, localSheet?]
  order := by rw [hcat]
  sheet := fun _ _ => by rw [hcat]

theorem localSheets_eq (hv : g.SameView g' h) : g'.localSheets h = g.localSheets h := by
  unfold localSheets
  rw [hv.path.pathFromRoot_eq]
  exact List.filterMap_congr fun a ha =>
    hv.localSheet a ((Forest.mem_pathFromRoot hv.path.contains.1).1 ha)

/-- The scenes agree. -/
theorem agrees (hv : g.SameView g' h) :
    (g.scene h (g.inline h)).Agrees (g'.scene h (g'.inline h)) where
  element := rfl
  path := hv.path
  maxDepth := hv.maxDepth
  forced := rfl
  order := by
    show g'.catalogue.globalOrder ++ g'.localSheets h = g.catalogue.globalOrder ++ g.localSheets h
    rw [hv.order, hv.localSheets_eq]
  sheet := fun id hid => by
    refine hv.sheet id ((List.mem_append.1 hid).imp_right ?_)
    intro hid
    obtain ⟨a, ha, hid⟩ := List.mem_filterMap.1 hid
    exact ⟨a, (Forest.mem_pathFromRoot hv.path.contains.1).1 ha, hid⟩
  inline := hv.inline h (List.mem_cons_self ..)
  registry := hv.registry

theorem scratchRanking_eq (hv : g.SameView g' h) : g'.scratchRanking h = g.scratchRanking h :=
  hv.agrees.ranking_eq

/-- The values from scratch are the same along the whole path. -/
theorem scratchBase_eq (hl : g.forest.Linked) (hv : g.SameView g' h)
    (hlin : g.forest.Lineage h as) : g'.scratchBase (h :: as) = g.scratchBase (h :: as) := by
  -- from the root down, as the values are taken over
  induction hlin with
  | root =>
    unfold scratchBase
    rw [hv.registry, hv.scratchRanking_eq]
    rfl
  | @child h p as hp hlin ih =>
    have hpath : p ∈ h :: g.forest.ancestors h := by
      rw [hl.ancestors_child hp]
      exact List.mem_cons_of_mem h List.mem_cons_self
    unfold scratchBase
    rw [hv.registry, hv.scratchRanking_eq, ih (hv.of_mem hl hpath)]

theorem scratchSnapshot_eq (hl : g.forest.Linked) (hv : g.SameView g' h) :
    g'.scratchSnapshot h = g.scratchSnapshot h := by
  have hlin := hl.lineage hv.path.contains.1
  unfold scratchSnapshot
  rw [hv.registry, hv.path.ancestors_eq]
  cases hp : g.forest.parent? h with
  | none => rw [Forest.Linked.ancestors_root hv.path.contains.1 hp]; rfl
  | some p =>
    rw [hl.ancestors_child hp] at hlin ⊢
    cases hlin with
    | child hp' hlin =>
      have hpath : p ∈ h :: g.forest.ancestors h := by
        rw [hl.ancestors_child hp]
        exact List.mem_cons_of_mem h List.mem_cons_self
      rw [(hv.of_mem hl hpath).scratchBase_eq hl hlin]

/-- **A settled style stays settled where nothing has changed.** -/
theorem settled (hl : g.forest.Linked) (hv : g.SameView g' h) (hs : g.Settled h s) :
    g'.Settled h s where
  ranking := hs.ranking.trans hv.scratchRanking_eq.symm
  snapshot := hs.snapshot.trans (hv.scratchSnapshot_eq hl).symm
  base := by
    rw [hs.base, hv.path.ancestors_eq,
      hv.scratchBase_eq hl (hl.lineage hv.path.contains.1)]
  overlays := fun o ho => by
    rw [hv.agrees.recompute_eq, hv.scratchSnapshot_eq hl]
    exact hs.overlays o ho

end SameView
end Engine
end Cascade
