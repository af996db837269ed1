import Cascade.Overlay
import Cascade.Proofs.Resolution
import Cascade.Proofs.Scene.Groups
import Cascade.Proofs.Selector.Matching

/-!
# Scenes that say the same

Two scenes, possibly of two engines, in which twins see rules of the same content in the same
order rank candidates that say the same, and give the same values.  Where the rules stand, in
which sheets and under which numbers, makes no difference, though the candidates name it.

## Main definitions

* `PlacedRule.content` — what a rule says.
* `Scene.selectorBehind?` — the selector of the rule that a candidate comes from.
* `Scene.Counterpart` — two candidates say the same.
* `Scene.Corresponds` — two scenes say the same.

## Main results

* `Scene.selectorBehind?_reference` — a rule is found again under the place it is named by.
* `Scene.Corresponds.winner` — counterparts win.
* `Scene.Corresponds.sources`, `Scene.Corresponds.get?_recompute` — the same values.
-/

namespace Cascade

/-! ### Lists item by item -/

section

variable {α β γ δ : Type} {R : α → β → Prop} {S : γ → δ → Prop} {xs : List α} {ys : List β}

/-- Items that are related one by one are related in any way that follows for items of the two
lists. -/
theorem forall₂_imp_of_mem {T : α → β → Prop} (hxy : List.Forall₂ R xs ys)
    (himp : ∀ x ∈ xs, ∀ y ∈ ys, R x y → T x y) : List.Forall₂ T xs ys := by
  induction hxy with
  | nil => exact .nil
  | cons hr _ ih =>
    refine .cons (himp _ List.mem_cons_self _ List.mem_cons_self hr) (ih ?_)
    intro x hx y hy
    exact himp x (List.mem_cons_of_mem _ hx) y (List.mem_cons_of_mem _ hy)

/-- Blocks that are related one by one make up lists that are. -/
theorem forall₂_flatMap {f : α → List γ} {g : β → List δ} (hxy : List.Forall₂ R xs ys)
    (hfg : ∀ x ∈ xs, ∀ y ∈ ys, R x y → List.Forall₂ S (f x) (g y)) :
    List.Forall₂ S (xs.flatMap f) (ys.flatMap g) :=
  List.rel_flatMap (forall₂_imp_of_mem hxy hfg) fun _ _ h => h

/-- A test that does not tell related items apart finds related items. -/
theorem rel_find? {f : α → Bool} {g : β → Bool} (hxy : List.Forall₂ R xs ys)
    (hfg : ∀ x y, R x y → g y = f x) : Option.Rel R (xs.find? f) (ys.find? g) := by
  induction hxy with
  | nil => exact .none
  | @cons x y _ _ hr _ ih =>
    rw [List.find?_cons, List.find?_cons, hfg x y hr]
    cases f x with
    | true => exact .some hr
    | false => exact ih

/-- Of two related options either none or both have a value. -/
theorem rel_cases {a : Option α} {b : Option β} (hab : Option.Rel R a b) :
    a = none ∧ b = none ∨ ∃ x y, a = some x ∧ b = some y ∧ R x y := by
  cases hab with
  | none => exact .inl ⟨rfl, rfl⟩
  | some hr => exact .inr ⟨_, _, rfl, rfl, hr⟩

/-- What does not tell related values apart is the same of both. -/
theorem map_eq_of_rel {f : α → γ} {g : β → γ} {a : Option α} {b : Option β}
    (hab : Option.Rel R a b) (hfg : ∀ x y, R x y → g y = f x) : b.map g = a.map f := by
  cases hab with
  | none => rfl
  | some hr => exact congrArg some (hfg _ _ hr)

end

/-- What a rule says, wherever it stands. -/
def PlacedRule.content (r : PlacedRule) : Selector × List Declaration :=
  (r.rule.selector.selector, r.rule.declarations)

namespace Scene

variable {s s' : Scene} {key : String} {p : Property}

/-- The selector of the rule behind an origin. -/
def selectorBehind? (s : Scene) : Origin → Option Selector
  | .inline => none
  | .rule sheet index _ =>
    ((s.catalogue.get? sheet).bind (·.rules[index]?)).map (·.selector.selector)

theorem isDeclaredFor_eq (s : Scene) (pseudo : String) (o : Origin) :
    s.isDeclaredFor pseudo o = (s.selectorBehind? o).any (·.asksFor pseudo) := by
  cases o with
  | inline => rfl
  | rule sheet index _ => exact Option.any_map.symm

/-- A rule is found again under the place that its references name. -/
theorem selectorBehind?_reference {r : PlacedRule} (hr : r ∈ s.rules) (exact : Bool)
    (d : Declaration) :
    s.selectorBehind? (reference exact r d).origin = some r.rule.selector.selector := by
  obtain ⟨id, -, hr⟩ := List.mem_flatMap.1 hr
  unfold rulesOf at hr
  split at hr
  · cases hr
  · next sheet hs =>
    obtain ⟨⟨rule, index⟩, hmem, rfl⟩ := List.mem_map.1 hr
    rw [List.mem_zipIdx_iff_getElem?] at hmem
    show ((s.catalogue.get? id).bind (·.rules[index]?)).map _ = _
    rw [hs, Option.bind_some, hmem, Option.map_some]

theorem isDeclaredFor_reference {r : PlacedRule} (hr : r ∈ s.rules) (exact : Bool)
    (d : Declaration) (pseudo : String) :
    s.isDeclaredFor pseudo (reference exact r d).origin =
      r.rule.selector.selector.asksFor pseudo := by
  rw [isDeclaredFor_eq, selectorBehind?_reference hr, Option.any_some]

/-! ### Candidates that say the same -/

/-- Two candidates say the same: they have the same declaration and rank, and the rules behind
them ask for the same pseudo-classes. -/
structure Counterpart (s s' : Scene) (c c' : Candidate) : Prop where
  declaration : c'.declaration = c.declaration
  specificity : c'.specificity = c.specificity
  declared : ∀ pseudo, s'.isDeclaredFor pseudo c'.origin = s.isDeclaredFor pseudo c.origin

/-! ### Scenes that say the same -/

/-- Two scenes say the same: the elements are twins, the rules have the same content in the same
order, the inline declarations are the same, and so are the properties, in whatever order. -/
structure Corresponds (s s' : Scene) : Prop where
  twins : Twins s.context s'.context s.element s'.element
  maxDepth : s.context.maxDepth = s'.context.maxDepth
  rules : s'.rules.map PlacedRule.content = s.rules.map PlacedRule.content
  inline : s'.inline = s.inline
  registry : s.registry.Same s'.registry

namespace Corresponds

theorem applies_iff (hc : s.Corresponds s') (σ : Selector) : s'.Applies σ ↔ s.Applies σ := by
  rw [Applies, Applies, σ.holds_of_twins hc.maxDepth _ _ hc.twins]

theorem appliesAbove_iff (hc : s.Corresponds s') (σ : Selector) :
    s'.AppliesAbove σ ↔ s.AppliesAbove σ := by
  have habove : s'.answer σ .above = s.answer σ .above :=
    (σ.holdsAbove_of_twins hc.maxDepth hc.twins).symm
  rw [AppliesAbove, AppliesAbove, hc.applies_iff, ← answer_above_iff, ← answer_above_iff, habove]

/-- The references to rules that apply are counterparts, one by one. -/
theorem references (hc : s.Corresponds s') (key : String) (exact : Bool)
    {f f' : Selector → Prop} [DecidablePred f] [DecidablePred f'] (hf : ∀ σ, f' σ ↔ f σ) :
    List.Forall₂ (Counterpart s s') (s.references key exact f) (s'.references key exact f') := by
  -- the numbers of sheets may differ, so rules are paired by what they say
  have hrules : List.Forall₂ (fun r r' => r'.content = r.content) s.rules s'.rules := by
    have hmap := hc.rules.symm
    rw [← List.forall₂_eq_eq_eq, List.forall₂_map_left_iff, List.forall₂_map_right_iff] at hmap
    exact hmap.imp fun _ _ h => h.symm
  refine forall₂_flatMap hrules ?_
  intro r hr r' hr' hcontent
  have hselector : r'.rule.selector.selector = r.rule.selector.selector :=
    congrArg Prod.fst hcontent
  have hdeclarations : r'.rule.declarations = r.rule.declarations := congrArg Prod.snd hcontent
  by_cases hfr : f r.rule.selector.selector
  · rw [if_pos hfr, if_pos (hselector ▸ (hf _).2 hfr), hdeclarations, List.forall₂_map_left_iff,
      List.forall₂_map_right_iff, List.forall₂_same]
    intro d _
    refine ⟨rfl, ?_, ?_⟩
    · show r'.rule.selector.selector.specificity = r.rule.selector.selector.specificity
      rw [hselector]
    · intro pseudo
      rw [isDeclaredFor_reference hr', isDeclaredFor_reference hr, hselector]
  · rw [if_neg hfr, if_neg fun h => hfr ((hf _).1 (hselector ▸ h))]
    exact .nil

/-- **The candidates of a property are counterparts,** one by one. -/
theorem candidates (hc : s.Corresponds s') (hp : s.registry.lookup key = some p) :
    List.Forall₂ (Counterpart s s') (s.ranking.candidates key) (s'.ranking.candidates key) := by
  have hp' : s'.registry.lookup key = some p := (hc.registry.lookup_eq key).trans hp
  -- group by group; the same declarations are placed in each, in the same order
  rw [Ranking.candidates_eq, Ranking.candidates_eq, group_inline hp, group_inline hp',
    group_matched hp, group_matched hp', group_inherited hp, group_inherited hp', hc.inline]
  refine List.rel_append (List.rel_append ?_ ?_) ?_
  · rw [List.forall₂_same]
    intro c hm
    obtain ⟨d, -, rfl⟩ := List.mem_map.1 (List.mem_reverse.1 hm)
    exact ⟨rfl, rfl, fun _ => rfl⟩
  · exact Standing.forall₂_placeAll (fun _ _ h => h.specificity)
      (hc.references key true hc.applies_iff)
  · split
    · exact Standing.forall₂_placeAll (fun _ _ h => h.specificity)
        (hc.references key false hc.appliesAbove_iff)
    · exact .nil

/-- **Counterparts win.** -/
theorem winner (hc : s.Corresponds s') (hp : s.registry.lookup p.key = some p) :
    Option.Rel (Counterpart s s') (s.ranking.winner p) (s'.ranking.winner p) := by
  refine rel_find? (hc.candidates hp) ?_
  intro c c' hcc
  rw [hcc.declaration]

theorem declaration_winner (hc : s.Corresponds s') (hp : s.registry.lookup p.key = some p) :
    (s'.ranking.winner p).map (·.declaration) = (s.ranking.winner p).map (·.declaration) :=
  map_eq_of_rel (hc.winner hp) fun _ _ hcc => hcc.declaration

theorem isDeclaredFor_winner (hc : s.Corresponds s') (hp : s.registry.lookup p.key = some p)
    (pseudo : String) :
    ((s'.ranking.winner p).any fun c => s'.isDeclaredFor pseudo c.origin) =
      (s.ranking.winner p).any fun c => s.isDeclaredFor pseudo c.origin := by
  have hw := hc.winner hp
  generalize s.ranking.winner p = w, s'.ranking.winner p = w' at hw ⊢
  cases hw with
  | none => rfl
  | some hcc => exact hcc.declared pseudo

/-- What values come from is the same, if the values taken over are. -/
theorem sources (hc : s.Corresponds s') {v v' : Values} (hv : ∀ key, v'.get? key = v.get? key) :
    Sources.Agrees ⟨s.element, s.registry, s.ranking, v⟩
      ⟨s'.element, s'.registry, s'.ranking, v'⟩ where
  registry := hc.registry
  winner := fun _ hp => hc.declaration_winner hp
  snapshot := hv

end Corresponds

/-! ### Overlays -/

/-- An overlay has values of just those properties that a rule asking for its pseudo-class wins
while the pseudo-class is active; they are the values that come out then. -/
theorem get?_recompute (s : Scene) (o : Overlay) (v : Values) (key : String) (value : Value) :
    (o.recompute s v).1.values.get? key = some value ↔
      ∃ p, s.registry.lookup key = some p ∧
        (((s.force o.name).ranking.winner p).any fun c => s.isDeclaredFor o.name c.origin) = true ∧
        (Sources.settle ⟨s.element, s.registry, (s.force o.name).ranking, v⟩ p).1 = value := by
  refine (Sources.get?_resolveEach ?_ key value).trans ?_
  · intro p hp
    exact Registry.lookup_of_mem (List.mem_filter.1 hp).1
  · simp only [List.mem_filter, Registry.lookup_eq_some_iff, and_assoc, and_left_comm]

/-- **Overlays of the same name have the same values,** if the scenes say the same while the
pseudo-class is active. -/
theorem Corresponds.get?_recompute_eq {o o' : Overlay} (ho : o'.name = o.name)
    (hc : (s.force o.name).Corresponds (s'.force o.name)) {v v' : Values}
    (hv : ∀ key, v'.get? key = v.get? key) (key : String) :
    (o'.recompute s' v').1.values.get? key = (o.recompute s v).1.values.get? key := by
  have hlookup : s'.registry.lookup key = s.registry.lookup key := hc.registry.lookup_eq key
  refine Option.ext fun value => ?_
  rw [get?_recompute, get?_recompute, ho, hlookup]
  refine exists_congr fun p => and_congr_right ?_
  intro hp
  have hkey : s.registry.lookup p.key = some p := by
    rw [(Registry.lookup_eq_some_iff.1 hp).2, hp]
  have hdeclared := hc.isDeclaredFor_winner hkey o.name
  have hsettle := (hc.sources hv).settle_eq hkey
  exact and_congr (Bool.eq_iff_iff.1 hdeclared) (Iff.of_eq (congrArg (·.1 = value) hsettle))

end Scene
end Cascade
