import Cascade.Overlay
import Cascade.Proofs.Ranking
import Cascade.Proofs.Selector.Matching

/-!
# What a scene depends on

Two scenes that agree on the path of the element, on the sheets that are looked at
and on the declarations give the same ranking and the same values of overlays.
Nothing else of a forest or a catalogue matters: other elements and other sheets may
differ in every respect.

## Main definitions

* `Scene.Agrees` — agreement on all that matters.

## Main results

* `Scene.ranking_congr` — what a ranking depends on.
* `Scene.Agrees.ranking_eq`, `Scene.Agrees.recompute_eq` — the same ranking, the same overlays.
-/

namespace Cascade
namespace Scene

/-- Two scenes agree on all that decides which declarations reach the element. -/
structure Agrees (s s' : Scene) : Prop where
  element : s'.element = s.element
  /-- The element and its ancestors. -/
  path : s.context.forest.SamePath s'.context.forest s.element
  maxDepth : s'.context.maxDepth = s.context.maxDepth
  forced : s'.context.forced = s.context.forced
  /-- The sheets in the order in which they are looked at. -/
  order : s'.catalogue.globalOrder ++ s'.localSheets = s.catalogue.globalOrder ++ s.localSheets
  /-- What these sheets hold. -/
  sheet : ∀ id ∈ s.catalogue.globalOrder ++ s.localSheets,
    s'.catalogue.get? id = s.catalogue.get? id
  inline : s'.inline = s.inline
  registry : s'.registry = s.registry

variable {s s' : Scene}

/-- Answers do not tell related elements apart. -/
theorem answer_of_bisimulation {R : Handle → Handle → Prop}
    (hR : Bisimulation s.context s'.context R) (hr : R s.element s'.element) (σ : Selector)
    (q : Question) : s'.answer σ q = s.answer σ q := by
  cases q with
  | itself => exact (σ.holds_of_bisimulation hR _ _ hr).symm
  | above => exact (σ.holdsAbove_of_bisimulation hR hr).symm

/-- Answers about an element depend on its path and on what is forced. -/
theorem answer_congr (s s' : Scene) (he : s'.element = s.element)
    (hp : s.context.forest.SamePath s'.context.forest s.element)
    (hd : s'.context.maxDepth = s.context.maxDepth) (hf : s'.context.forced = s.context.forced)
    (σ : Selector) (q : Question) : s'.answer σ q = s.answer σ q := by
  have ht : Twins s.context s'.context s.element s.element := hp.twins hf
  exact answer_of_bisimulation (.twins hd.symm) (by rwa [he]) σ q

/-- The same sheets in the same order give the same rules. -/
theorem rules_congr
    (horder : s'.catalogue.globalOrder ++ s'.localSheets = s.catalogue.globalOrder ++ s.localSheets)
    (hsheet : ∀ id ∈ s.catalogue.globalOrder ++ s.localSheets,
      s'.catalogue.get? id = s.catalogue.get? id) : s'.rules = s.rules := by
  unfold rules
  rw [horder]
  refine List.flatMap_congr ?_
  intro id hid
  rw [rulesOf, rulesOf, hsheet id hid]

/-- The same rules that apply in the same way, and the same declarations on the element, give the
same ranking. -/
theorem ranking_congr (hrules : s'.rules = s.rules)
    (hanswer : ∀ σ q, s'.answer σ q = s.answer σ q) (hinline : s'.inline = s.inline)
    (hregistry : s'.registry = s.registry) : s'.ranking = s.ranking := by
  have hreach : ∀ σ, s'.reach σ = s.reach σ := by
    intro σ
    rw [reach, reach, hanswer, hanswer]
  have happlying : s'.applying = s.applying := by
    unfold applying
    rw [hrules]
    simp only [hreach]
  have hcandidate : s'.candidate? = s.candidate? := by
    funext r q d
    rw [candidate?, candidate?, hregistry]
  have hown : s'.inlineCandidate? = s.inlineCandidate? := by
    funext d
    rw [inlineCandidate?, inlineCandidate?, hregistry]
  unfold ranking candidates
  rw [happlying, hinline, hcandidate, hown]

/-- A rule that is looked at stands at its place in a sheet that is looked at. -/
theorem exists_sheet_of_mem_rules {r : PlacedRule} (hr : r ∈ s.rules) :
    r.sheet ∈ s.catalogue.globalOrder ++ s.localSheets ∧
      ∃ sheet, s.catalogue.get? r.sheet = some sheet ∧ sheet.rules[r.index]? = some r.rule := by
  obtain ⟨id, hid, hr⟩ := List.mem_flatMap.1 hr
  unfold rulesOf at hr
  split at hr
  · cases hr
  · next sheet hs =>
    obtain ⟨⟨rule, n⟩, hm, rfl⟩ := List.mem_map.1 hr
    exact ⟨hid, sheet, hs, List.mem_zipIdx_iff_getElem?.1 hm⟩

/-- A candidate from a rule names the place of the rule and its selector, and it is one of its
declarations. -/
theorem exists_rule_of_mem_candidates {key : String} {c : Candidate} {id : SheetId} {n : Nat}
    {σ : SelectorId} (hc : c ∈ s.ranking.candidates key) (ho : c.origin = .rule id n σ) :
    ∃ r ∈ s.rules, r.sheet = id ∧ r.index = n ∧ r.rule.selector.id = σ ∧
      c.declaration ∈ r.rule.declarations := by
  rw [ranking, Ranking.mem_candidates_ofCandidates] at hc
  rcases List.mem_append.1 hc.1 with hc | hc
  · obtain ⟨⟨r, q⟩, hr, hc⟩ := List.mem_flatMap.1 hc
    obtain ⟨d, hd, hc⟩ := List.mem_filterMap.1 hc
    obtain ⟨r', hr', hrr⟩ := List.mem_filterMap.1 hr
    obtain ⟨q', -, hqq⟩ := Option.map_eq_some_iff.1 hrr
    injection hqq with hqq _
    subst hqq
    refine ⟨r', hr', ?_⟩
    rw [candidate?] at hc
    split at hc
    · cases hc
    · split at hc
      · cases hc
      · cases hc
        injection ho with hid hn hσ
        exact ⟨hid, hn, hσ, hd⟩
  · -- an inline declaration is in no rule
    obtain ⟨d, -, hc⟩ := List.mem_filterMap.1 hc
    rw [inlineCandidate?] at hc
    split at hc
    · cases hc
      cases ho
    · cases hc

/-- A candidate from a rule names a sheet that is looked at. -/
theorem sheet_mem_of_mem_candidates {key : String} {c : Candidate} {id : SheetId} {n : Nat}
    {σ : SelectorId} (hc : c ∈ s.ranking.candidates key) (ho : c.origin = .rule id n σ) :
    id ∈ s.catalogue.globalOrder ++ s.localSheets := by
  obtain ⟨r, hr, rfl, -⟩ := exists_rule_of_mem_candidates hc ho
  exact (exists_sheet_of_mem_rules hr).1

namespace Agrees

theorem rules_eq (ha : s.Agrees s') : s'.rules = s.rules := rules_congr ha.order ha.sheet

theorem answer_eq (ha : s.Agrees s') (σ : Selector) (q : Question) :
    s'.answer σ q = s.answer σ q :=
  answer_congr s s' ha.element ha.path ha.maxDepth ha.forced σ q

/-- **Scenes that agree rank the same candidates.** -/
theorem ranking_eq (ha : s.Agrees s') : s'.ranking = s.ranking :=
  ranking_congr ha.rules_eq ha.answer_eq ha.inline ha.registry

theorem force (ha : s.Agrees s') (pseudo : String) : (s.force pseudo).Agrees (s'.force pseudo) where
  element := ha.element
  path := ha.path
  maxDepth := ha.maxDepth
  forced := by
    show some (s'.element, pseudo) = some (s.element, pseudo)
    rw [ha.element]
  order := ha.order
  sheet := ha.sheet
  inline := ha.inline
  registry := ha.registry

/-- **Scenes that agree give overlays the same values.** -/
theorem recompute_eq (ha : s.Agrees s') (o : Overlay) (snapshot : Values) :
    o.recompute s' snapshot = o.recompute s snapshot := by
  have hranking := (ha.force o.name).ranking_eq
  have hdeclared : ∀ p : Property,
      ((s.force o.name).ranking.winner p).any (fun c => s'.isDeclaredFor o.name c.origin) =
        ((s.force o.name).ranking.winner p).any fun c => s.isDeclaredFor o.name c.origin := by
    intro p
    cases hw : (s.force o.name).ranking.winner p with
    | none => rfl
    | some c =>
      rw [Option.any_some, Option.any_some]
      cases ho : c.origin with
      | inline => rfl
      | rule id n σ =>
        -- the winner comes from a sheet that is looked at, where the scenes agree
        have hid := sheet_mem_of_mem_candidates (List.mem_of_find?_eq_some hw) ho
        rw [isDeclaredFor, isDeclaredFor, ha.sheet id hid]
  unfold Overlay.recompute
  rw [hranking, ha.registry, ha.element]
  simp only [hdeclared]

end Agrees
end Scene
end Cascade
