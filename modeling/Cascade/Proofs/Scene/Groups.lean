import Cascade.Proofs.Ranking
import Cascade.Scene

/-!
# The groups of a scene

Which candidates stand in the groups of a registered property: its inline
declarations, its declarations in rules that apply to the element, and, if it is
inheritable, those in rules that apply to an ancestor only.

## Main definitions

* `Scene.Applies`, `Scene.AppliesAbove` — how a selector applies.
* `Scene.references` — the declarations of a property in rules that apply.

## Main results

* `Scene.group_inline`, `Scene.group_matched`, `Scene.group_inherited` — each group by itself.
* `Scene.group_unregistered` — other properties have no candidates.
-/

namespace Cascade
namespace Scene

variable (s : Scene)

/-! ### Selectors -/

/-- The selector applies to the element. -/
def Applies (σ : Selector) : Prop := σ.holds s.context s.element = true

/-- The selector applies to an ancestor, as far as ancestors are looked at, but not to
the element. -/
def AppliesAbove (σ : Selector) : Prop :=
  ¬ s.Applies σ ∧
    ∃ a ∈ (s.context.forest.ancestors s.element).take s.context.maxDepth,
      σ.holds s.context a = true

instance : DecidablePred s.Applies := fun _ => inferInstanceAs (Decidable (_ = _))

instance : DecidablePred s.AppliesAbove := fun _ => inferInstanceAs (Decidable (_ ∧ _))

variable {s}

/-- What malformed text means applies nowhere, so the order needs no case for it. -/
theorem holds_of_isInvalid {σ : Selector} (hσ : σ.isInvalid = true) (ctx : MatchContext)
    (h : Handle) : σ.holds ctx h = false := by
  cases σ with
  | invalid => rw [Selector.holds]
  | _ => simp [Selector.isInvalid] at hσ

theorem answer_itself_iff {σ : Selector} : s.answer σ .itself = true ↔ s.Applies σ := Iff.rfl

theorem answer_above_iff {σ : Selector} : s.answer σ .above = true ↔
    ∃ a ∈ (s.context.forest.ancestors s.element).take s.context.maxDepth,
      σ.holds s.context a = true := List.any_eq_true

theorem reach_of_applies {σ : Selector} (hσ : s.Applies σ) : s.reach σ = some .itself := by
  have hi : ¬ σ.isInvalid = true := by
    intro hi
    rw [Applies, holds_of_isInvalid hi] at hσ
    exact absurd hσ (by decide)
  rw [reach, if_neg hi, if_pos (answer_itself_iff.2 hσ)]

theorem reach_of_appliesAbove {σ : Selector} (hσ : s.AppliesAbove σ) :
    s.reach σ = some .above := by
  obtain ⟨hn, a, ha, hσ⟩ := hσ
  have hi : ¬ σ.isInvalid = true := by
    intro hi
    rw [holds_of_isInvalid hi] at hσ
    exact absurd hσ (by decide)
  rw [reach, if_neg hi, if_neg (mt answer_itself_iff.1 hn),
    if_pos (answer_above_iff.2 ⟨a, ha, hσ⟩)]

theorem reach_eq_none {σ : Selector} (hn : ¬ s.Applies σ) (ha : ¬ s.AppliesAbove σ) :
    s.reach σ = none := by
  have ha : ¬ s.answer σ .above = true := fun hσ => ha ⟨hn, answer_above_iff.1 hσ⟩
  rw [reach, if_neg (mt answer_itself_iff.1 hn), if_neg ha, ite_self]

/-! ### References -/

/-- The reference to a declaration in a rule. -/
def reference (exact : Bool) (r : PlacedRule) (d : Declaration) : Candidate where
  key := d.key
  origin := .rule r.sheet r.index r.rule.selector.id
  declaration := d
  specificity := r.rule.selector.selector.specificity
  exact := exact

/-- The reference to an inline declaration. -/
def inlineReference (d : Declaration) : Candidate where
  key := d.key
  origin := .inline
  declaration := d
  specificity := .zero
  exact := true

/-- The declarations of a property. -/
def declarationsOf (key : String) (ds : List Declaration) : List Declaration :=
  ds.filter fun d => decide (d.key = key)

/-- The references to the declarations of a property in the rules whose selector is among
`f`, in the order in which they are looked at. -/
def references (s : Scene) (key : String) (exact : Bool) (f : Selector → Prop) [DecidablePred f] :
    List Candidate :=
  s.rules.flatMap fun r =>
    if f r.rule.selector.selector then
      (declarationsOf key r.rule.declarations).map (reference exact r)
    else []

/-- The group of rules that apply in the way of a question. -/
def groupOf : Question → Group
  | .itself => .matched
  | .above => .inherited

variable {key : String} {p : Property}

/-- A declaration in a rule becomes the reference to it, in the group of the way in which the
rule applies, unless the property is not taken over from there. -/
theorem filter_candidate? (hp : s.registry.lookup key = some p) (r : PlacedRule) (q q' : Question)
    (d : Declaration) :
    ((s.candidate? r q' d).filter fun c => decide (c.key = key ∧ c.group = groupOf q)) =
      if d.key = key ∧ q' = q ∧ (q = .above → p.inheritable = true) then
        some (reference (decide (q = .itself)) r d)
      else none := by
  by_cases hk : d.key = key
  · rw [candidate?, hk, hp]
    -- whether a rule reaches in the way asked for, and whether the property is taken over
    cases q <;> cases q' <;> cases hi : p.inheritable <;>
      simp [reference, groupOf, Candidate.group, hk, hi]
  · rw [if_neg fun h => hk h.1, Option.filter_eq_none_iff]
    rintro c hc ht
    rw [candidate?] at hc
    split at hc
    · cases hc
    · split at hc
      · cases hc
      · cases hc
        simp [hk] at ht

/-- The same for all declarations of a rule. -/
theorem filter_candidates_rule (hp : s.registry.lookup key = some p) (r : PlacedRule)
    (q q' : Question) :
    ((r.rule.declarations.filterMap (s.candidate? r q')).filter fun c =>
        decide (c.key = key ∧ c.group = groupOf q)) =
      if q' = q ∧ (q = .above → p.inheritable = true) then
        (declarationsOf key r.rule.declarations).map (reference (decide (q = .itself)) r)
      else [] := by
  rw [List.filter_filterMap, funext fun d => filter_candidate? hp r q q' d]
  split
  · next hq =>
    unfold declarationsOf
    rw [← List.filterMap_eq_map', List.filterMap_filter]
    simp only [eq_true hq, and_true, decide_eq_true_eq]
  · next hq =>
    rw [List.filterMap_eq_nil_iff]
    exact fun d _ => if_neg fun h => hq h.2

/-- A list built from blocks, some of which are left out. -/
theorem flatMap_filterMap {α β γ : Type} (f : α → Option β) (g : β → List γ) (xs : List α) :
    (xs.filterMap f).flatMap g = xs.flatMap fun x => (f x).elim [] g := by
  induction xs with
  | nil => rfl
  | cons x xs ih =>
    rw [List.filterMap_cons, List.flatMap_cons, ← ih]
    cases f x <;> rfl

/-- The candidates of one property in one of the groups of rules are the references in the
rules that apply in one way. -/
theorem filter_candidates_applying (hp : s.registry.lookup key = some p) (q : Question)
    (f : Selector → Prop) [DecidablePred f] (hf : ∀ σ, s.reach σ = some q ↔ f σ) :
    ((s.applying.flatMap fun (r, q') => r.rule.declarations.filterMap (s.candidate? r q')).filter
        fun c => decide (c.key = key ∧ c.group = groupOf q)) =
      if q = .above → p.inheritable = true then s.references key (decide (q = .itself)) f
      else [] := by
  have hrule : ∀ r : PlacedRule,
      (((s.reach r.rule.selector.selector).map (r, ·)).elim [] fun (r, q') =>
        (r.rule.declarations.filterMap (s.candidate? r q')).filter fun c =>
          decide (c.key = key ∧ c.group = groupOf q)) =
      if f r.rule.selector.selector ∧ (q = .above → p.inheritable = true) then
        (declarationsOf key r.rule.declarations).map (reference (decide (q = .itself)) r)
      else [] := by
    intro r
    -- a rule reaches in one way at most, so it gives to one group
    simp only [← hf]
    cases hr : s.reach r.rule.selector.selector with
    | none => simp
    | some q' =>
      rw [Option.map_some, Option.elim_some, filter_candidates_rule hp]
      simp only [Option.some.injEq]
  -- both sides are now put together rule by rule, in the same order
  rw [List.filter_flatMap, applying, flatMap_filterMap, funext hrule]
  unfold references
  split
  · next hq => simp only [eq_true hq, and_true]
  · next hq => exact List.flatMap_eq_nil_iff.2 fun r _ => if_neg fun h => hq h.2

/-- No rule contributes to the inline declarations. -/
theorem filter_inline_applying (s : Scene) (key : String) :
    ((s.applying.flatMap fun (r, q) => r.rule.declarations.filterMap (s.candidate? r q)).filter
        fun c => decide (c.key = key ∧ c.group = .inline)) = [] := by
  refine List.filter_eq_nil_iff.2 ?_
  intro c hc
  obtain ⟨⟨r, q⟩, -, hc⟩ := List.mem_flatMap.1 hc
  obtain ⟨d, -, hc⟩ := List.mem_filterMap.1 hc
  rw [candidate?] at hc
  split at hc
  · cases hc
  · split at hc
    · cases hc
    · cases hc
      cases q <;> simp [Candidate.group]

/-- Inline declarations of a registered property form their own group. -/
theorem filter_inline (hp : s.registry.lookup key = some p) (γ : Group) :
    ((s.inline.filterMap s.inlineCandidate?).filter fun c =>
        decide (c.key = key ∧ c.group = γ)) =
      if γ = .inline then (declarationsOf key s.inline).map inlineReference else [] := by
  have hd : ∀ d, ((s.inlineCandidate? d).filter fun c => decide (c.key = key ∧ c.group = γ)) =
      if d.key = key ∧ γ = .inline then some (inlineReference d) else none := by
    intro d
    by_cases hk : d.key = key
    · have hc : s.registry.contains key = true := by rw [Registry.contains, hp, Option.isSome_some]
      cases γ <;> simp [inlineCandidate?, inlineReference, Candidate.group, hk, hc]
    · rw [if_neg fun h => hk h.1, Option.filter_eq_none_iff]
      rintro c hc ht
      rw [inlineCandidate?] at hc
      split at hc
      · cases hc
        simp [hk] at ht
      · cases hc
  rw [List.filter_filterMap, funext hd]
  split
  · next hγ =>
    unfold declarationsOf
    rw [← List.filterMap_eq_map', List.filterMap_filter]
    simp only [eq_true hγ, and_true, decide_eq_true_eq]
  · next hγ =>
    rw [List.filterMap_eq_nil_iff]
    exact fun d _ => if_neg fun h => hγ h.2

/-! ### The groups of a scene -/

theorem reach_eq_itself_iff {σ : Selector} : s.reach σ = some .itself ↔ s.Applies σ := by
  by_cases hσ : s.Applies σ
  · exact iff_of_true (reach_of_applies hσ) hσ
  · refine iff_of_false ?_ hσ
    by_cases ha : s.AppliesAbove σ
    · rw [reach_of_appliesAbove ha]
      decide
    · rw [reach_eq_none hσ ha]
      decide

theorem reach_eq_above_iff {σ : Selector} : s.reach σ = some .above ↔ s.AppliesAbove σ := by
  by_cases ha : s.AppliesAbove σ
  · exact iff_of_true (reach_of_appliesAbove ha) ha
  · refine iff_of_false ?_ ha
    by_cases hσ : s.Applies σ
    · rw [reach_of_applies hσ]
      decide
    · rw [reach_eq_none hσ ha]
      decide

theorem group_ranking (s : Scene) (key : String) (γ : Group) :
    (s.ranking.standing key).group γ = Standing.placeAll
      (((s.applying.flatMap fun (r, q) => r.rule.declarations.filterMap (s.candidate? r q)).filter
          fun c => decide (c.key = key ∧ c.group = γ)) ++
        (s.inline.filterMap s.inlineCandidate?).filter fun c =>
          decide (c.key = key ∧ c.group = γ)) := by
  rw [ranking, Ranking.group_ofCandidates, candidates, List.filter_append]

theorem group_inline (hp : s.registry.lookup key = some p) :
    (s.ranking.standing key).group .inline =
      ((declarationsOf key s.inline).map inlineReference).reverse := by
  rw [group_ranking, filter_inline_applying, filter_inline hp, if_pos rfl, List.nil_append]
  -- inline declarations all have the same rank
  refine Standing.placeAll_eq_reverse (w := .zero) ?_
  intro c hc
  obtain ⟨d, -, rfl⟩ := List.mem_map.1 hc
  rfl

theorem group_matched (hp : s.registry.lookup key = some p) :
    (s.ranking.standing key).group .matched =
      Standing.placeAll (s.references key true s.Applies) := by
  have hr := filter_candidates_applying hp .itself s.Applies fun σ => reach_eq_itself_iff
  rw [if_pos fun h => by cases h] at hr
  rw [group_ranking, filter_inline hp, if_neg (by decide), List.append_nil]
  exact congrArg _ hr

theorem group_inherited (hp : s.registry.lookup key = some p) :
    (s.ranking.standing key).group .inherited =
      Standing.placeAll (if p.inheritable then s.references key false s.AppliesAbove else []) := by
  have hr := filter_candidates_applying hp .above s.AppliesAbove fun σ => reach_eq_above_iff
  simp only [true_implies] at hr
  rw [group_ranking, filter_inline hp, if_neg (by decide), List.append_nil]
  exact congrArg _ hr

/-- Only registered properties have candidates. -/
theorem contains_of_mem_candidates {l : List (PlacedRule × Question)} {c : Candidate}
    (hc : c ∈ s.candidates l) : s.registry.lookup c.key ≠ none := by
  rcases List.mem_append.1 hc with hc | hc
  · obtain ⟨⟨r, q⟩, -, hc⟩ := List.mem_flatMap.1 hc
    obtain ⟨d, -, hc⟩ := List.mem_filterMap.1 hc
    rw [candidate?] at hc
    split at hc
    · cases hc
    · next hp =>
      split at hc
      · cases hc
      · cases hc
        rw [hp]
        exact Option.some_ne_none _
  · -- an inline declaration is dropped if its key is not registered
    obtain ⟨d, -, hc⟩ := List.mem_filterMap.1 hc
    rw [inlineCandidate?] at hc
    split at hc
    · next hk =>
      cases hc
      exact Option.isSome_iff_ne_none.1 hk
    · cases hc

theorem group_unregistered (hn : s.registry.lookup key = none) (γ : Group) :
    (s.ranking.standing key).group γ = [] := by
  rw [ranking, Ranking.group_ofCandidates, List.filter_eq_nil_iff.2]
  · rfl
  · intro c hc hk
    have hk := (of_decide_eq_true hk).1
    exact contains_of_mem_candidates hc (hk ▸ hn)

end Scene
end Cascade
