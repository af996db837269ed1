import Cascade.Proofs.Forest.Runs
import Cascade.Proofs.Selector.Printing
import Cascade.Selector.Matching

/-!
# Pseudo-classes that a selector requires

To ask for a pseudo-class is not yet to require it.  A conjunction requires what one of its tests
requires, a relation what its base does, but alternatives require only what all of them require,
while they ask for what one of them asks for.  So the two are the same within a group, and part in
a list of groups: `.primary:hover, .selected` asks for `hover` and applies to what is selected.

## Main definitions

* `Selector.requires` — a selector asks for a pseudo-class in each of its alternatives.
* `Selector.options` — the alternatives of a selector.

## Main results

* `Selector.holds_of_requires` — what requires a pseudo-class applies where it is active only.
* `Selector.IsGroup.requires_eq` — a group requires what it asks for.
* `Selector.active_or_option` — **a selector that asks for a pseudo-class applies where it is
  active,** or through another alternative that does not ask for it.
-/

namespace Cascade
namespace Selector

variable {ctx : MatchContext} {h : Handle} {pseudo : String} {t : Selector}

/-! ### Requiring -/

mutual

/-- Whether the selector asks for `:pseudo` on its subject, and does so in each of its
alternatives. -/
def requires (pseudo : String) : Selector → Bool
  | .ofPseudo p => p == pseudo
  | .all terms => anyRequires pseudo terms
  | .within base _ _ => base.requires pseudo
  | .oneOf options => eachRequires pseudo options
  | .universal | .ofType _ | .ofId _ | .ofClass _ | .invalid => false

/-- Whether one of several selectors requires `:pseudo`. -/
def anyRequires (pseudo : String) : List Selector → Bool
  | [] => false
  | s :: ss => s.requires pseudo || anyRequires pseudo ss

/-- Whether each of several selectors requires `:pseudo`. -/
def eachRequires (pseudo : String) : List Selector → Bool
  | [] => true
  | s :: ss => s.requires pseudo && eachRequires pseudo ss

end

mutual

/-- **A selector that requires a pseudo-class applies only where it is active.** -/
theorem holds_of_requires : ∀ {σ : Selector}, σ.requires pseudo = true → σ.holds ctx h = true →
    (ofPseudo pseudo).holds ctx h = true
  | .ofPseudo name, hr, hσ => by
    rw [requires, beq_iff_eq] at hr
    rwa [← hr]
  | .all terms, hr, hσ => by
    rw [requires] at hr
    rw [holds, Bool.and_eq_true] at hσ
    exact holds_of_anyRequires hr hσ.2
  | .within base ancestor direct, hr, hσ => by
    rw [requires] at hr
    rw [holds, Bool.and_eq_true, Bool.and_eq_true] at hσ
    exact holds_of_requires hr hσ.1.2
  | .oneOf options, hr, hσ => by
    rw [requires] at hr
    rw [holds, Bool.and_eq_true] at hσ
    exact holds_of_eachRequires hr hσ.2
  | .universal, hr, _ | .ofType _, hr, _ | .ofId _, hr, _ | .ofClass _, hr, _
  | .invalid, hr, _ => by
    rw [requires] at hr
    cases hr

theorem holds_of_anyRequires : ∀ {ss : List Selector}, anyRequires pseudo ss = true →
    holdsAll ctx h ss = true → (ofPseudo pseudo).holds ctx h = true
  | [], hr, _ => by cases hr
  | σ :: ss, hr, hσ => by
    rw [anyRequires, Bool.or_eq_true] at hr
    rw [holdsAll, Bool.and_eq_true] at hσ
    rcases hr with hr | hr
    · exact holds_of_requires hr hσ.1
    · exact holds_of_anyRequires hr hσ.2

theorem holds_of_eachRequires : ∀ {ss : List Selector}, eachRequires pseudo ss = true →
    holdsAny ctx h ss = true → (ofPseudo pseudo).holds ctx h = true
  | [], _, hσ => by cases hσ
  | σ :: ss, hr, hσ => by
    rw [eachRequires, Bool.and_eq_true] at hr
    rw [holdsAny, Bool.or_eq_true] at hσ
    rcases hσ with hσ | hσ
    · exact holds_of_requires hr.1 hσ
    · exact holds_of_eachRequires hr.2 hσ

end

/-! ### Requiring and asking -/

theorem anyRequires_eq {ss : List Selector} (h : ∀ s ∈ ss, s.requires pseudo = s.asksFor pseudo) :
    anyRequires pseudo ss = anyAsksFor pseudo ss := by
  induction ss with
  | nil => rfl
  | cons s ss ih =>
    rw [anyRequires, anyAsksFor, h s List.mem_cons_self,
      ih fun u hu => h u (List.mem_cons_of_mem s hu)]

theorem IsMark.requires_eq (h : IsMark t) : t.requires pseudo = t.asksFor pseudo := by
  cases h <;> rw [requires, asksFor]

theorem IsTest.requires_eq (h : IsTest t) : t.requires pseudo = t.asksFor pseudo := by
  cases h with
  | universal => rw [requires, asksFor]
  | type _ => rw [requires, asksFor]
  | mark h => exact h.requires_eq

theorem IsCompound.requires_eq (h : IsCompound t) : t.requires pseudo = t.asksFor pseudo := by
  cases h with
  | single h => exact h.requires_eq
  | several h hms _ =>
    rw [requires, asksFor]
    refine anyRequires_eq fun u hu => ?_
    rcases List.mem_cons.mp hu with rfl | hu
    · exact h.requires_eq
    · exact (hms u hu).requires_eq

/-- **A group requires what it asks for:** there are no alternatives in it, and of a relation both
look at the base. -/
theorem IsGroup.requires_eq (h : IsGroup t) : t.requires pseudo = t.asksFor pseudo := by
  cases h with
  | compound h => exact h.requires_eq
  | within _ hb =>
    rw [requires, asksFor]
    exact hb.requires_eq

/-! ### Alternatives -/

/-- The alternatives of a selector.  One that is not put together from alternatives is its only
one. -/
def options : Selector → List Selector
  | .oneOf ss => ss
  | s => [s]

/-- Where nothing is forced, the test for a pseudo-class asks whether it is active. -/
theorem holds_ofPseudo_iff (hf : ctx.forced = none) : (ofPseudo pseudo).holds ctx h = true ↔
    ∃ e, ctx.forest.get? h = some e ∧ e.pseudoClasses.contains pseudo = true := by
  rw [holds, Option.any_eq_true, hf]
  refine exists_congr fun e => and_congr_right fun _ => ?_
  exact Bool.eq_iff_iff.mp (Bool.or_false _)

theorem IsGroup.active_of_asksFor (ht : IsGroup t) (hf : ctx.forced = none)
    (ha : t.asksFor pseudo = true) (hh : t.holds ctx h = true) :
    ∃ e, ctx.forest.get? h = some e ∧ e.pseudoClasses.contains pseudo = true :=
  (holds_ofPseudo_iff hf).mp (holds_of_requires (ht.requires_eq.trans ha) hh)

/-- There is a comma between two groups. -/
theorem comma_mem_intercalate {gs : List (List Char)} (hlen : 2 ≤ gs.length) :
    ',' ∈ [','].intercalate gs := by
  match gs, hlen with
  | g :: g' :: gs, _ =>
    rw [intercalate_comma, List.flatMap_cons]
    exact List.mem_append_right g List.mem_cons_self

/-- **A selector that asks for a pseudo-class applies where it is active, or through another of its
alternatives.**  The latter takes a comma in the text, and an alternative that applies without
asking for the pseudo-class. -/
theorem active_or_option {text : String} (ha : (parse text).asksFor pseudo = true)
    (hf : ctx.forced = none) (hh : (parse text).holds ctx h = true) :
    (∃ e, ctx.forest.get? h = some e ∧ e.pseudoClasses.contains pseudo = true) ∨
      (',' ∈ text.toList ∧
        ∃ s ∈ (parse text).options, s.asksFor pseudo = false ∧ s.holds ctx h = true) := by
  -- what malformed text means asks for nothing
  have hvalid : parse text ≠ .invalid := by
    intro hi
    rw [hi, asksFor] at ha
    cases ha
  have hdenotes := denotes_parse hvalid
  generalize parse text = s at ha hh hdenotes ⊢
  generalize text.toList = cs at hdenotes ⊢
  cases hdenotes with
  | one hg => exact .inl (hg.isGroup.active_of_asksFor hf ha hh)
  | several hgs hlen =>
    rw [holds, holdsAny_eq, Bool.and_eq_true, List.any_eq_true] at hh
    -- the alternative that applies asks for the pseudo-class, or it is the one we look for
    obtain ⟨-, t, ht, hholds⟩ := hh
    cases hasks : t.asksFor pseudo with
    | true => exact .inl ((isGroup_of_groupTexts hgs t ht).active_of_asksFor hf hasks hholds)
    | false => exact .inr ⟨comma_mem_intercalate hlen, t, ht, hasks, hholds⟩

/-- A button that is selected, and not hovered. -/
def selectedButton : Forest :=
  ({} : Forest).run [.insert { (default : Element) with typeName := "Button" },
    .edit ⟨0, 0⟩ (.addClass "selected")]

/-- The selected button is found by the alternative that says nothing about hovering. -/
theorem active_or_option_selectedButton :
    let ctx : MatchContext := { forest := selectedButton }
    let text := ".primary:hover, .selected"
    ((parse text).asksFor "hover" = true ∧ ctx.forced = none ∧
      (parse text).holds ctx ⟨0, 0⟩ = true) ∧
    ((∃ e, ctx.forest.get? ⟨0, 0⟩ = some e ∧ e.pseudoClasses.contains "hover" = true) ∨
      (',' ∈ text.toList ∧
        ∃ s ∈ (parse text).options, s.asksFor "hover" = false ∧ s.holds ctx ⟨0, 0⟩ = true)) := by
  intro ctx text
  have hasks : (parse text).asksFor "hover" = true := by decide +kernel
  have hholds : (parse text).holds ctx ⟨0, 0⟩ = true := by decide +kernel
  exact ⟨⟨hasks, rfl, hholds⟩, active_or_option hasks rfl hholds⟩

/-- To ask for a pseudo-class is not to require it: the selector asks for `hover` and applies to the
selected button, on which it is not active. -/
theorem not_active_selectedButton :
    let ctx : MatchContext := { forest := selectedButton }
    let text := ".primary:hover, .selected"
    (parse text).asksFor "hover" = true ∧ ctx.forced = none ∧
      (parse text).holds ctx ⟨0, 0⟩ = true ∧
      ¬ ∃ e, ctx.forest.get? ⟨0, 0⟩ = some e ∧ e.pseudoClasses.contains "hover" = true := by
  intro ctx text
  refine ⟨by decide +kernel, rfl, by decide +kernel, ?_⟩
  have hnot : ((ctx.forest.get? ⟨0, 0⟩).any fun e => e.pseudoClasses.contains "hover") = false := by
    decide +kernel
  rintro ⟨e, he, hactive⟩
  rw [he, Option.any_some, hactive] at hnot
  cases hnot

end Selector
end Cascade
