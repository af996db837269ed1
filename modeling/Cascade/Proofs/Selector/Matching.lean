import Cascade.Proofs.Forest.Paths
import Cascade.Selector.Matching
import Mathlib.Data.List.Forall2

/-!
# What matching depends on

Whether a selector applies to an element depends on what selectors see of the
element and of its ancestors, and on nothing else: two elements, possibly of
different forests, to which the same holds all the way up, are told apart by no
selector.  What has to be the same on the way is said by a bisimulation, so that
it may also be said of all handles at once.

## Main definitions

* `Alike` — two elements look the same.
* `Twins` — so do all their ancestors, one by one.
* `Bisimulation` — what has to be the same wherever a selector looks.

## Main results

* `Selector.holds_of_bisimulation` — no selector tells related elements apart.
* `Twins.of_lineages` — what has to be compared of two elements.
* `Selector.holds_of_twins`, `Selector.holdsAbove_of_twins` — no selector tells twins apart.
* `Forest.SamePath.twins` — the same path makes twins, whatever is forced.
-/

namespace Cascade

variable {ctx ctx' : MatchContext} {h h' : Handle}

/-- What selectors see of two elements is the same.  Of pseudo-classes they see those that
are active and the one that is forced. -/
def Alike (ctx ctx' : MatchContext) (h h' : Handle) : Prop :=
  ∃ e e' : Element, ctx.forest.get? h = some e ∧ ctx'.forest.get? h' = some e' ∧
    e.typeName = e'.typeName ∧ e.id = e'.id ∧ e.classes = e'.classes ∧
    ∀ name, (e.pseudoClasses.contains name || ctx.forced == some (h, name)) =
      (e'.pseudoClasses.contains name || ctx'.forced == some (h', name))

/-- Elements with the same data look the same, unless something is forced on one of them alone. -/
theorem Alike.of_data? (hd : ctx'.forest.data? h' = ctx.forest.data? h)
    (hh : ctx.forest.contains h = true)
    (hf : ∀ name, (ctx.forced == some (h, name)) = (ctx'.forced == some (h', name))) :
    Alike ctx ctx' h h' := by
  obtain ⟨e, he⟩ := Forest.contains_iff.1 hh
  rw [Forest.data?, Forest.data?, he, Option.map_some, Option.map_eq_some_iff] at hd
  obtain ⟨e', he', hee⟩ := hd
  unfold Element.unlinked at hee
  injection hee with htype hid hclasses hpseudo
  refine ⟨e, e', he, he', htype.symm, hid.symm, hclasses.symm, ?_⟩
  intro name
  rw [hpseudo, hf]

/-- Two elements look the same, and so do their ancestors up to the roots. -/
inductive Twins (ctx ctx' : MatchContext) : Handle → Handle → Prop
  | root {h h' : Handle} : Alike ctx ctx' h h' →
    ctx.forest.parent? h = none → ctx'.forest.parent? h' = none → Twins ctx ctx' h h'
  | child {h h' p p' : Handle} : Alike ctx ctx' h h' →
    ctx.forest.parent? h = some p → ctx'.forest.parent? h' = some p' →
    Twins ctx ctx' p p' → Twins ctx ctx' h h'

namespace Twins

theorem alike (ht : Twins ctx ctx' h h') : Alike ctx ctx' h h' := by
  cases ht with
  | root ha => exact ha
  | child ha => exact ha

theorem contains (ht : Twins ctx ctx' h h') :
    ctx.forest.contains h = true ∧ ctx'.forest.contains h' = true := by
  obtain ⟨e, e', he, he', -⟩ := ht.alike
  exact ⟨Forest.contains_of_get? he, Forest.contains_of_get? he'⟩

/-- Two elements are twins if on the ways up all elements look the same, one by one. -/
theorem of_lineages {as as' : List Handle} (hl : ctx.forest.Lineage h as)
    (hl' : ctx'.forest.Lineage h' as')
    (ha : List.Forall₂ (Alike ctx ctx') (h :: as) (h' :: as')) : Twins ctx ctx' h h' := by
  induction hl generalizing h' as' with
  | root _ hp =>
    cases ha with
    | cons ha hnil =>
      cases hnil
      cases hl' with
      | root _ hp' => exact .root ha hp hp'
  | child hp _ ih =>
    cases ha with
    | cons ha has =>
      cases hl' with
      | root => cases has
      | child hp' hl' => exact .child ha hp hp' (ih hl' has)

/-- The ways up from twins lead through twins. -/
theorem lineages (ht : Twins ctx ctx' h h') : ∃ as as', ctx.forest.Lineage h as ∧
    ctx'.forest.Lineage h' as' ∧ List.Forall₂ (Twins ctx ctx') as as' := by
  induction ht with
  | root ha hp hp' =>
    have hc := (Twins.root ha hp hp').contains
    exact ⟨[], [], .root hc.1 hp, .root hc.2 hp', .nil⟩
  | child _ hp hp' ht ih =>
    obtain ⟨as, as', hl, hl', has⟩ := ih
    exact ⟨_, _, .child hp hl, .child hp' hl', .cons ht has⟩

theorem ancestors (ht : Twins ctx ctx' h h') (hd : ctx.maxDepth = ctx'.maxDepth) :
    List.Forall₂ (Twins ctx ctx') (ctx.ancestors h) (ctx'.ancestors h') := by
  obtain ⟨as, as', hl, hl', has⟩ := ht.lineages
  unfold MatchContext.ancestors
  -- the depth limit cuts both lineages at the same place
  rw [hl.ancestors_eq, hl'.ancestors_eq, hd]
  exact List.forall₂_take _ has

end Twins

/-! ### Bisimulations -/

/-- A test that does not tell two lists apart item by item holds of some item in both or in
neither. -/
theorem any_congr_of_forall₂ {α β : Type} {R : α → β → Prop} {f : α → Bool} {g : β → Bool}
    {xs : List α} {ys : List β} (hxy : List.Forall₂ R xs ys) (hfg : ∀ x y, R x y → f x = g y) :
    xs.any f = ys.any g := by
  induction hxy with
  | nil => rfl
  | cons hr _ ih => rw [List.any_cons, List.any_cons, hfg _ _ hr, ih]

/-- The same for two items that may both be missing. -/
theorem any_congr_of_rel {α β : Type} {R : α → β → Prop} {f : α → Bool} {g : β → Bool}
    {x : Option α} {y : Option β} (hxy : Option.Rel R x y) (hfg : ∀ x y, R x y → f x = g y) :
    x.any f = y.any g := by
  cases hxy with
  | some hr => exact hfg _ _ hr
  | none => rfl

/-- A relation between the handles of two contexts that is kept on all ways that selectors take:
related handles look the same or are both stale, and their parents and ancestors are related
again. -/
structure Bisimulation (ctx ctx' : MatchContext) (R : Handle → Handle → Prop) : Prop where
  look : ∀ {h h' : Handle}, R h h' →
    Alike ctx ctx' h h' ∨ ctx.forest.get? h = none ∧ ctx'.forest.get? h' = none
  parent : ∀ {h h' : Handle}, R h h' →
    Option.Rel R (ctx.forest.parent? h) (ctx'.forest.parent? h')
  ancestors : ∀ {h h' : Handle}, R h h' → List.Forall₂ R (ctx.ancestors h) (ctx'.ancestors h')

namespace Bisimulation

variable {R : Handle → Handle → Prop}

/-- Twins are related by a bisimulation. -/
theorem twins (hd : ctx.maxDepth = ctx'.maxDepth) :
    Bisimulation ctx ctx' (Twins ctx ctx') where
  look := fun ht => .inl ht.alike
  parent := by
    intro h h' ht
    cases ht with
    | root _ hp hp' =>
      rw [hp, hp']
      exact .none
    | child _ hp hp' ht =>
      rw [hp, hp']
      exact .some ht
  ancestors := fun ht => ht.ancestors hd

theorem contains_eq (hR : Bisimulation ctx ctx' R) (hr : R h h') :
    ctx.forest.contains h = ctx'.forest.contains h' := by
  unfold Forest.contains
  rcases hR.look hr with ⟨e, e', he, he', -⟩ | ⟨he, he'⟩
  · rw [he, he']
    rfl
  · rw [he, he']

/-- A test on element data that sees what selectors see holds of both or of neither. -/
theorem any_get? (hR : Bisimulation ctx ctx' R) (hr : R h h') {f g : Element → Bool}
    (hfg : ∀ e e' : Element, e.typeName = e'.typeName → e.id = e'.id → e.classes = e'.classes →
      (∀ name, (e.pseudoClasses.contains name || ctx.forced == some (h, name)) =
        (e'.pseudoClasses.contains name || ctx'.forced == some (h', name))) → f e = g e') :
    (ctx.forest.get? h).any f = (ctx'.forest.get? h').any g := by
  rcases hR.look hr with ⟨e, e', he, he', hty, hid, hcl, hps⟩ | ⟨he, he'⟩
  · rw [he, he', Option.any_some, Option.any_some, hfg e e' hty hid hcl hps]
  · rw [he, he', Option.any_none, Option.any_none]

end Bisimulation

namespace Selector

variable {R : Handle → Handle → Prop}

mutual

/-- **No selector tells related elements apart.** -/
theorem holds_of_bisimulation (hR : Bisimulation ctx ctx' R) : ∀ (σ : Selector) (h h' : Handle),
    R h h' → σ.holds ctx h = σ.holds ctx' h'
  | .universal, h, h', hr => by rw [holds, holds, hR.contains_eq hr]
  | .ofType name, h, h', hr => by
    rw [holds, holds]
    exact hR.any_get? hr fun e e' hty _ _ _ => by rw [hty]
  | .ofId name, h, h', hr => by
    rw [holds, holds]
    exact hR.any_get? hr fun e e' _ hid _ _ => by rw [hid]
  | .ofClass name, h, h', hr => by
    rw [holds, holds]
    exact hR.any_get? hr fun e e' _ _ hcl _ => by rw [hcl]
  | .ofPseudo name, h, h', hr => by
    rw [holds, holds]
    exact hR.any_get? hr fun e e' _ _ _ hps => hps name
  | .all terms, h, h', hr => by
    rw [holds, holds, hR.contains_eq hr, holdsAll_of_bisimulation hR terms h h' hr]
  | .within base ancestor direct, h, h', hr => by
    have habove : ∀ a a', R a a' → ancestor.holds ctx a = ancestor.holds ctx' a' :=
      holds_of_bisimulation hR ancestor
    rw [holds, holds, hR.contains_eq hr, holds_of_bisimulation hR base h h' hr,
      any_congr_of_forall₂ (hR.ancestors hr) habove, any_congr_of_rel (hR.parent hr) habove]
  | .oneOf options, h, h', hr => by
    rw [holds, holds, hR.contains_eq hr, holdsAny_of_bisimulation hR options h h' hr]
  | .invalid, _, _, _ => by rw [holds, holds]

theorem holdsAll_of_bisimulation (hR : Bisimulation ctx ctx' R) : ∀ (ss : List Selector)
    (h h' : Handle), R h h' → holdsAll ctx h ss = holdsAll ctx' h' ss
  | [], _, _, _ => rfl
  | σ :: ss, h, h', hr => by
    rw [holdsAll, holdsAll, holds_of_bisimulation hR σ h h' hr,
      holdsAll_of_bisimulation hR ss h h' hr]

theorem holdsAny_of_bisimulation (hR : Bisimulation ctx ctx' R) : ∀ (ss : List Selector)
    (h h' : Handle), R h h' → holdsAny ctx h ss = holdsAny ctx' h' ss
  | [], _, _, _ => rfl
  | σ :: ss, h, h', hr => by
    rw [holdsAny, holdsAny, holds_of_bisimulation hR σ h h' hr,
      holdsAny_of_bisimulation hR ss h h' hr]

end

theorem holdsAbove_of_bisimulation (hR : Bisimulation ctx ctx' R) (σ : Selector) (hr : R h h') :
    σ.holdsAbove ctx h = σ.holdsAbove ctx' h' :=
  any_congr_of_forall₂ (hR.ancestors hr) (holds_of_bisimulation hR σ)

/-- **No selector tells twins apart.** -/
theorem holds_of_twins (hd : ctx.maxDepth = ctx'.maxDepth) (σ : Selector) (h h' : Handle)
    (ht : Twins ctx ctx' h h') : σ.holds ctx h = σ.holds ctx' h' :=
  σ.holds_of_bisimulation (.twins hd) h h' ht

theorem holdsAbove_of_twins (hd : ctx.maxDepth = ctx'.maxDepth) (σ : Selector)
    (ht : Twins ctx ctx' h h') : σ.holdsAbove ctx h = σ.holdsAbove ctx' h' :=
  σ.holdsAbove_of_bisimulation (.twins hd) ht

end Selector

/-! ### The same handle in two forests -/

namespace Forest

/-- **The same path makes twins,** if the same is forced in both contexts. -/
theorem SamePath.twins (hs : ctx.forest.SamePath ctx'.forest h) (hf : ctx'.forced = ctx.forced) :
    Twins ctx ctx' h h := by
  obtain ⟨as, hl, hl', hdata⟩ := hs
  refine .of_lineages hl hl' (List.forall₂_same.2 ?_)
  intro a ha
  exact .of_data? (hdata a ha) (hl.contains_of_mem ha) fun name => by rw [hf]

end Forest
end Cascade
