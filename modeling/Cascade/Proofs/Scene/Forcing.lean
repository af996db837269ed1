import Cascade.Proofs.Scene.Correspondence
import Mathlib.Data.List.Find

/-!
# What a forced pseudo-class changes

While a pseudo-class counts as active on an element, more selectors apply to the element, and
those that do not ask for the pseudo-class on their subject apply as before.  Nothing changes
above.  So a rule comes to the front only if it asks for the pseudo-class, and where no such rule
wins, the winner is the one without it.

## Main definitions

* `Gains` — how an answer changes.
* `Scene.group` — the candidates of a property in one group.

## Main results

* `Selector.gains_holds` — what applies still applies, and what does not ask applies as before.
* `Scene.group_matched_force`, `Scene.group_inherited_force` — each group is part of the other.
* `Scene.winner_force` — **a rule that asks for the pseudo-class wins, or the winner stays.**
-/

namespace Cascade

/-! ### Selectors -/

/-- An answer that was `x` is `y` now: a yes stays a yes, and a no stays a no unless `q`. -/
structure Gains (q x y : Bool) : Prop where
  stays : x = true → y = true
  eq : q = false → y = x

namespace Gains

variable {q q' x x' y y' : Bool}

theorem refl (q x : Bool) : Gains q x x := ⟨id, fun _ => rfl⟩

theorem and (hg : Gains q x y) (hg' : Gains q' x' y') : Gains (q || q') (x && x') (y && y') := by
  refine ⟨fun hx => ?_, fun hq => ?_⟩
  · rw [Bool.and_eq_true] at hx ⊢
    exact hx.imp hg.stays hg'.stays
  · rw [Bool.or_eq_false_iff] at hq
    rw [hg.eq hq.1, hg'.eq hq.2]

theorem or (hg : Gains q x y) (hg' : Gains q' x' y') : Gains (q || q') (x || x') (y || y') := by
  refine ⟨fun hx => ?_, fun hq => ?_⟩
  · rw [Bool.or_eq_true] at hx ⊢
    exact hx.imp hg.stays hg'.stays
  · rw [Bool.or_eq_false_iff] at hq
    rw [hg.eq hq.1, hg'.eq hq.2]

/-- An answer that does not change makes no difference. -/
theorem and_self (hg : Gains q x y) (z : Bool) : Gains q (x && z) (y && z) := by
  have hz := hg.and (.refl false z)
  rwa [Bool.or_false] at hz

end Gains

namespace Selector

variable {ctx : MatchContext} {h a : Handle} {as : List Handle} {pseudo : String}

/-- Above the element all is as before. -/
theorem holds_force_of_mem (hl : ctx.forest.Lineage h as) (hf : ctx.forced = none) (ha : a ∈ as)
    (σ : Selector) : σ.holds (ctx.force h pseudo) a = σ.holds ctx a := by
  obtain ⟨bs, cs, rfl, hla⟩ := hl.of_mem ha
  have halike : ∀ x ∈ a :: cs, Alike ctx (ctx.force h pseudo) x x := by
    intro x hx
    -- no element is its own ancestor
    have hne : h ≠ x := by
      rintro rfl
      exact hl.notMem (List.mem_append_right bs hx)
    refine .of_data? rfl (hla.contains_of_mem hx) fun name => ?_
    rw [hf]
    simp [MatchContext.force, hne]
  have hd : ctx.maxDepth = (ctx.force h pseudo).maxDepth := rfl
  exact (σ.holds_of_twins hd a a (.of_lineages hla hla (List.forall₂_same.2 halike))).symm

theorem holdsAbove_force (hl : ctx.forest.Lineage h as) (hf : ctx.forced = none) (σ : Selector) :
    σ.holdsAbove (ctx.force h pseudo) h = σ.holdsAbove ctx h := by
  refine any_congr_of_forall₂ (List.forall₂_same.2 ?_) fun a b hab => hab
  intro a ha
  have ha : a ∈ as := hl.ancestors_eq ▸ List.mem_of_mem_take ha
  exact holds_force_of_mem hl hf ha σ

/-- Of a relation only the base tells the difference. -/
theorem holds_within_force (hl : ctx.forest.Lineage h as) (hf : ctx.forced = none)
    (base ancestor : Selector) (direct : Bool) :
    (within base ancestor direct).holds (ctx.force h pseudo) h =
      (base.holds (ctx.force h pseudo) h &&
        if direct then (ctx.forest.parent? h).any fun p => ancestor.holds ctx p
        else ancestor.holdsAbove ctx h) := by
  have hparent : ((ctx.forest.parent? h).any fun p => ancestor.holds (ctx.force h pseudo) p) =
      (ctx.forest.parent? h).any fun p => ancestor.holds ctx p := by
    cases hl with
    | root _ hp => rw [hp, Option.any_none, Option.any_none]
    | child hp hl =>
      rw [hp, Option.any_some, Option.any_some]
      exact holds_force_of_mem (.child hp hl) hf List.mem_cons_self ancestor
  rw [← hparent, ← holdsAbove_force hl hf, holds]
  show (ctx.forest.contains h && _ && _) = _
  rw [hl.contains, Bool.true_and]
  rfl

mutual

/-- **More selectors apply to the element, but only such as ask for the pseudo-class.** -/
theorem gains_holds (hl : ctx.forest.Lineage h as) (hf : ctx.forced = none) : ∀ σ : Selector,
    Gains (σ.asksFor pseudo) (σ.holds ctx h) (σ.holds (ctx.force h pseudo) h)
  | .universal | .ofType _ | .ofId _ | .ofClass _ | .invalid => by
    rw [holds, holds]
    exact .refl _ _
  | .ofPseudo name => by
    obtain ⟨e, he⟩ := Forest.contains_iff.1 hl.contains
    have he' : (ctx.force h pseudo).forest.get? h = some e := he
    rw [asksFor, holds, holds, he, he', hf, Option.any_some, Option.any_some]
    by_cases hname : name = pseudo
    · subst hname
      exact ⟨fun _ => by simp [MatchContext.force], fun hq => by simp at hq⟩
    · have hne : ((ctx.force h pseudo).forced == some (h, name)) = false := by
        simp [MatchContext.force, Ne.symm hname]
      rw [hne]
      exact .refl _ _
  | .all terms => by
    rw [asksFor, holds, holds, hl.contains, Bool.true_and]
    show Gains _ _ (ctx.forest.contains h && _)
    rw [hl.contains, Bool.true_and]
    exact gains_holdsAll hl hf terms
  | .within base ancestor direct => by
    rw [asksFor, holds_within_force hl hf, holds, hl.contains, Bool.true_and]
    exact (gains_holds hl hf base).and_self _
  | .oneOf options => by
    rw [asksFor, holds, holds, hl.contains, Bool.true_and]
    show Gains _ _ (ctx.forest.contains h && _)
    rw [hl.contains, Bool.true_and]
    exact gains_holdsAny hl hf options

theorem gains_holdsAll (hl : ctx.forest.Lineage h as) (hf : ctx.forced = none) :
    ∀ ss : List Selector, Gains (anyAsksFor pseudo ss) (holdsAll ctx h ss)
      (holdsAll (ctx.force h pseudo) h ss)
  | [] => .refl _ _
  | σ :: ss => by
    rw [anyAsksFor, holdsAll, holdsAll]
    exact (gains_holds hl hf σ).and (gains_holdsAll hl hf ss)

theorem gains_holdsAny (hl : ctx.forest.Lineage h as) (hf : ctx.forced = none) :
    ∀ ss : List Selector, Gains (anyAsksFor pseudo ss) (holdsAny ctx h ss)
      (holdsAny (ctx.force h pseudo) h ss)
  | [] => .refl _ _
  | σ :: ss => by
    rw [anyAsksFor, holdsAny, holdsAny]
    exact (gains_holds hl hf σ).or (gains_holdsAny hl hf ss)

end

end Selector

/-! ### Scenes -/

namespace Scene

variable {s : Scene} {as : List Handle} {key pseudo : String} {p : Property} {σ : Selector}
  {c : Candidate}

theorem Applies.force (hl : s.context.forest.Lineage s.element as) (hf : s.context.forced = none)
    (hσ : s.Applies σ) : (s.force pseudo).Applies σ :=
  (Selector.gains_holds hl hf σ).stays hσ

theorem applies_force_iff (hl : s.context.forest.Lineage s.element as)
    (hf : s.context.forced = none) (hσ : σ.asksFor pseudo = false) :
    (s.force pseudo).Applies σ ↔ s.Applies σ :=
  Bool.eq_iff_iff.1 ((Selector.gains_holds hl hf σ).eq hσ)

/-- A selector applies above the element alone if it did and does not apply to the element now. -/
theorem appliesAbove_force_iff (hl : s.context.forest.Lineage s.element as)
    (hf : s.context.forced = none) :
    (s.force pseudo).AppliesAbove σ ↔ ¬ (s.force pseudo).Applies σ ∧ s.AppliesAbove σ := by
  have habove : (s.force pseudo).answer σ .above = s.answer σ .above :=
    Selector.holdsAbove_force hl hf σ
  rw [AppliesAbove, ← answer_above_iff, habove, AppliesAbove, ← answer_above_iff, ← and_assoc]
  refine and_congr_left fun _ => (and_iff_left_of_imp ?_).symm
  exact fun hn hσ => hn (hσ.force hl hf)

/-! ### References -/

theorem mem_references {exact : Bool} {f : Selector → Prop} [DecidablePred f] :
    c ∈ s.references key exact f ↔ ∃ r ∈ s.rules, f r.rule.selector.selector ∧
      ∃ d ∈ declarationsOf key r.rule.declarations, reference exact r d = c := by
  unfold references
  rw [List.mem_flatMap]
  refine exists_congr fun r => and_congr_right fun _ => ?_
  split
  · next hr => rw [List.mem_map, and_iff_right hr]
  · next hr => exact iff_of_false List.not_mem_nil fun h => hr h.1

/-- The references to fewer rules are found among those to more. -/
theorem filter_references (exact : Bool) (f f' : Selector → Prop) [DecidablePred f]
    [DecidablePred f'] (hf : ∀ σ, f' σ → f σ) :
    (s.references key exact f).filter (fun c => (s.selectorBehind? c.origin).any (f' ·)) =
      s.references key exact f' := by
  unfold references
  rw [List.filter_flatMap]
  refine List.flatMap_congr fun r hr => ?_
  have hbehind : ∀ d, (s.selectorBehind? (reference exact r d).origin).any (f' ·) =
      decide (f' r.rule.selector.selector) := by
    intro d
    rw [selectorBehind?_reference hr, Option.any_some]
  by_cases hfr : f' r.rule.selector.selector
  · rw [if_pos (hf _ hfr), if_pos hfr, List.filter_map, List.filter_eq_self.2]
    intro d _
    exact (hbehind d).trans (decide_eq_true hfr)
  · rw [if_neg hfr]
    split
    · rw [List.filter_map, List.filter_eq_nil_iff.2, List.map_nil]
      intro d _ hd
      exact hfr (of_decide_eq_true ((hbehind d).symm.trans hd))
    · rfl

/-! ### Groups -/

/-- The candidates of a property in one of the groups. -/
def group (s : Scene) (key : String) (γ : Group) : List Candidate :=
  (s.ranking.standing key).group γ

/-- The winner is looked for in one group after the other. -/
theorem winner_eq_or (s : Scene) (p : Property) :
    s.ranking.winner p = ((s.group p.key .inline).find? (·.declaration.provides p)).or
      (((s.group p.key .matched).find? (·.declaration.provides p)).or
        ((s.group p.key .inherited).find? (·.declaration.provides p))) := by
  unfold Ranking.winner group
  rw [Ranking.candidates_eq, List.find?_append, List.find?_append, Option.or_assoc]

theorem group_inline_force (hp : s.registry.lookup key = some p) :
    (s.force pseudo).group key .inline = s.group key .inline :=
  (group_inline (s := s.force pseudo) hp).trans (group_inline hp).symm

/-- The rules that apply to the element are among those that do with the pseudo-class. -/
theorem group_matched_force (hl : s.context.forest.Lineage s.element as)
    (hf : s.context.forced = none) (hp : s.registry.lookup key = some p) :
    s.group key .matched = ((s.force pseudo).group key .matched).filter fun c =>
      (s.selectorBehind? c.origin).any (s.Applies ·) := by
  have hforced : (s.force pseudo).group key .matched =
      Standing.placeAll (s.references key true (s.force pseudo).Applies) := group_matched hp
  rw [hforced, ← Standing.placeAll_filter,
    filter_references true _ s.Applies fun _ hσ => hσ.force hl hf]
  exact group_matched hp

/-- The rules that apply above the element with the pseudo-class are among those that do. -/
theorem group_inherited_force (hl : s.context.forest.Lineage s.element as)
    (hf : s.context.forced = none) (hp : s.registry.lookup key = some p) :
    (s.force pseudo).group key .inherited = (s.group key .inherited).filter fun c =>
      (s.selectorBehind? c.origin).any ((s.force pseudo).AppliesAbove ·) := by
  have hforced : (s.force pseudo).group key .inherited = Standing.placeAll
      (if p.inheritable then s.references key false (s.force pseudo).AppliesAbove else []) :=
    group_inherited hp
  have hplain : s.group key .inherited = Standing.placeAll
      (if p.inheritable then s.references key false s.AppliesAbove else []) := group_inherited hp
  rw [hforced, hplain, ← Standing.placeAll_filter]
  split
  · rw [filter_references false _ (s.force pseudo).AppliesAbove fun _ hσ =>
      ((appliesAbove_force_iff hl hf).1 hσ).2]
  · rfl

theorem mem_group_matched (hp : s.registry.lookup key = some p) :
    c ∈ s.group key .matched ↔ ∃ r ∈ s.rules, s.Applies r.rule.selector.selector ∧
      ∃ d ∈ declarationsOf key r.rule.declarations, reference true r d = c := by
  rw [group, group_matched hp, (Standing.placeAll_perm _).mem_iff, mem_references]

theorem of_mem_group_inherited (hp : s.registry.lookup key = some p)
    (hc : c ∈ s.group key .inherited) :
    ∃ r ∈ s.rules, s.AppliesAbove r.rule.selector.selector ∧
      ∃ d ∈ declarationsOf key r.rule.declarations, reference false r d = c := by
  rw [group, group_inherited hp, (Standing.placeAll_perm _).mem_iff] at hc
  split at hc
  · exact mem_references.1 hc
  · cases hc

/-! ### Winners -/

/-- The candidate that is found is still found if others are left out. -/
theorem find?_filter_of_find? {f keep : Candidate → Bool} {xs : List Candidate}
    (hc : xs.find? f = some c) (hkeep : keep c = true) : (xs.filter keep).find? f = some c := by
  obtain ⟨hfc, front, back, rfl, hfront⟩ := List.find?_eq_some_iff_append.1 hc
  refine List.find?_eq_some_iff_append.2 ⟨hfc, front.filter keep, back.filter keep, ?_, ?_⟩
  · rw [List.filter_append, List.filter_cons, if_pos hkeep]
  · intro b hb
    exact hfront b (List.mem_filter.1 hb).1

/-- Of the rules that apply to the element one that does not ask for the forced pseudo-class comes
first both with and without it. -/
theorem find?_matched_force (hl : s.context.forest.Lineage s.element as)
    (hf : s.context.forced = none) (hp : s.registry.lookup key = some p) {f : Candidate → Bool}
    (hw : ∀ c, ((s.force pseudo).group key .matched).find? f = some c →
      s.isDeclaredFor pseudo c.origin = false) :
    (s.group key .matched).find? f = ((s.force pseudo).group key .matched).find? f := by
  rw [group_matched_force hl hf hp]
  cases hc : ((s.force pseudo).group key .matched).find? f with
  | none =>
    rw [List.find?_eq_none] at hc ⊢
    exact fun c hm => hc c (List.mem_filter.1 hm).1
  | some c =>
    have hnot := hw c hc
    have hm := List.mem_of_find?_eq_some hc
    obtain ⟨r, hr, hσ, d, -, rfl⟩ := (mem_group_matched (s := s.force pseudo) hp).1 hm
    have hr : r ∈ s.rules := hr
    rw [isDeclaredFor_reference hr] at hnot
    refine find?_filter_of_find? hc ?_
    rw [selectorBehind?_reference hr, Option.any_some, decide_eq_true_eq]
    exact (applies_force_iff hl hf hnot).1 hσ

/-- Rules that apply above the element still do, but for those that now apply to the element; if
these provide nothing, neither did they before. -/
theorem find?_inherited_force (hl : s.context.forest.Lineage s.element as)
    (hf : s.context.forced = none) (hp : s.registry.lookup key = some p)
    (hn : ((s.force pseudo).group key .matched).find? (·.declaration.provides p) = none) :
    (s.group key .inherited).find? (·.declaration.provides p) =
      ((s.force pseudo).group key .inherited).find? (·.declaration.provides p) := by
  rw [group_inherited_force hl hf hp, List.find?_filter]
  refine List.find?_congr fun c hm => ?_
  obtain ⟨r, hr, hσ, d, hd, rfl⟩ := of_mem_group_inherited hp hm
  rw [Bool.eq_iff_iff, decide_eq_true_eq, selectorBehind?_reference hr, Option.any_some,
    decide_eq_true_eq]
  refine (and_iff_right_of_imp fun hprovides => ?_).symm
  refine (appliesAbove_force_iff hl hf).2 ⟨fun hσ' => ?_, hσ⟩
  -- otherwise the same declaration is now one of a rule that applies to the element
  have hm' : reference true r d ∈ (s.force pseudo).group key .matched :=
    (mem_group_matched (s := s.force pseudo) hp).2 ⟨r, hr, hσ', d, hd, rfl⟩
  exact List.find?_eq_none.1 hn _ hm' hprovides

/-- **If no rule that asks for a forced pseudo-class wins, the winner is the one without it.** -/
theorem winner_force (hl : s.context.forest.Lineage s.element as) (hf : s.context.forced = none)
    (hp : s.registry.lookup p.key = some p)
    (hw : ((s.force pseudo).ranking.winner p).any (fun c => s.isDeclaredFor pseudo c.origin) =
      false) :
    (s.force pseudo).ranking.winner p = s.ranking.winner p := by
  rw [winner_eq_or, group_inline_force hp] at hw ⊢
  rw [winner_eq_or s]
  -- the first group that provides a value with the pseudo-class
  cases hinline : (s.group p.key .inline).find? (·.declaration.provides p) with
  | some c => rw [Option.some_or, Option.some_or]
  | none =>
    rw [hinline, Option.none_or] at hw
    have hdeclared : ∀ c, ((s.force pseudo).group p.key .matched).find?
        (·.declaration.provides p) = some c → s.isDeclaredFor pseudo c.origin = false := by
      intro c hc
      rwa [hc, Option.some_or, Option.any_some] at hw
    rw [Option.none_or, Option.none_or, find?_matched_force hl hf hp hdeclared]
    cases hmatched : ((s.force pseudo).group p.key .matched).find? (·.declaration.provides p) with
    | some c => rw [Option.some_or, Option.some_or]
    | none => rw [find?_inherited_force hl hf hp hmatched]

end Scene
end Cascade
