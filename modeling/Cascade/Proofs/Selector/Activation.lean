import Cascade.Proofs.Forest.Links
import Cascade.Proofs.Selector.Matching

/-!
# Forcing a pseudo-class and activating it

A pseudo-class that is forced on an element is looked up wherever a selector tests that element:
as its subject, as its parent, or as an ancestor that a descendant relation comes by.  Activating
the pseudo-class changes the element itself.  Selectors see the same of every handle in both cases,
and both leave the links alone, so no selector tells the one from the other, on whatever element.

## Main results

* `NameSet.contains_insert_eq_forced` — the one test that sees the pseudo-class.
* `MatchContext.bisimulation_force` — the same is seen wherever a selector looks.
* `Selector.holds_force` — **forcing is activating,** for every selector on every element.
-/

namespace Cascade

/-- A name is found among the active pseudo-classes and the forced one if and only if it is found
once the forced one is active. -/
theorem NameSet.contains_insert_eq_forced (s : NameSet) (h : Handle) (pseudo name : String) :
    (s.insert pseudo).contains name = (s.contains name || some (h, pseudo) == some (h, name)) := by
  have hforced : (some (h, pseudo) == some (h, name)) = decide (name = pseudo) := by
    rw [Bool.eq_iff_iff, beq_iff_eq, decide_eq_true_eq, Option.some_inj, Prod.mk.injEq]
    exact ⟨fun hname => hname.2.symm, fun hname => ⟨rfl, hname.symm⟩⟩
  rw [contains_insert, hforced, Bool.or_comm]

namespace MatchContext

/-- The context in which nothing is forced and `pseudo` is active on `h`. -/
def activate (ctx : MatchContext) (h : Handle) (pseudo : String) : MatchContext :=
  { ctx with forest := ctx.forest.update h (·.edit (.activate pseudo)), forced := none }

/-- Of every handle a selector sees the same while `pseudo` is forced on `h` and after it has been
activated there. -/
theorem bisimulation_force (ctx : MatchContext) (h : Handle) (pseudo : String) :
    Bisimulation (ctx.force h pseudo) (ctx.activate h pseudo) (· = ·) where
  look := by
    rintro k _ rfl
    have hget : (ctx.activate h pseudo).forest.get? k =
        if h = k then (ctx.forest.get? h).map (·.edit (.activate pseudo)) else ctx.forest.get? k :=
      Forest.get?_update _ _ _ _
    cases he : ctx.forest.get? k with
    | none =>
      refine .inr ⟨he, ?_⟩
      rw [hget]
      split
      · next hk => rw [hk, he, Option.map_none]
      · exact he
    | some e =>
      refine .inl ?_
      by_cases hk : h = k
      · subst hk
        rw [if_pos rfl, he, Option.map_some] at hget
        refine ⟨e, e.edit (.activate pseudo), he, hget, rfl, rfl, rfl, fun name => ?_⟩
        exact (e.pseudoClasses.contains_insert_eq_forced h pseudo name).symm.trans
          (Bool.or_false _).symm
      · rw [if_neg hk, he] at hget
        refine ⟨e, e, he, hget, rfl, rfl, rfl, fun name => ?_⟩
        -- nothing is forced on another element
        have hother : (some (h, pseudo) == some (k, name)) = false := by simp [hk]
        show (_ || some (h, pseudo) == some (k, name)) = (_ || none == some (k, name))
        rw [hother]
        rfl
  parent := by
    rintro k _ rfl
    have hparent : (ctx.activate h pseudo).forest.parent? k = ctx.forest.parent? k :=
      Forest.parent?_edit _ _ _ _
    rw [hparent]
    show Option.Rel _ (ctx.forest.parent? k) _
    cases ctx.forest.parent? k with
    | none => exact .none
    | some p => exact .some rfl
  ancestors := by
    rintro k _ rfl
    have hancestors : (ctx.activate h pseudo).forest.ancestors k = ctx.forest.ancestors k :=
      Forest.ancestors_edit _ _ _ _
    rw [List.forall₂_eq_eq_eq]
    unfold MatchContext.ancestors
    rw [hancestors]
    rfl

end MatchContext

namespace Selector

/-- **Forcing a pseudo-class on an element is activating it there.**  Whatever the selector and
whichever the element that it is asked about, it applies to that element, or above it, while the
pseudo-class is forced if and only if it does so once the pseudo-class is active and nothing is
forced. -/
theorem holds_force (ctx : MatchContext) (h : Handle) (pseudo : String) (σ : Selector)
    (k : Handle) :
    σ.holds (ctx.force h pseudo) k = σ.holds (ctx.activate h pseudo) k ∧
      σ.holdsAbove (ctx.force h pseudo) k = σ.holdsAbove (ctx.activate h pseudo) k :=
  ⟨σ.holds_of_bisimulation (ctx.bisimulation_force h pseudo) k k rfl,
    σ.holdsAbove_of_bisimulation (ctx.bisimulation_force h pseudo) rfl⟩

end Selector
end Cascade
