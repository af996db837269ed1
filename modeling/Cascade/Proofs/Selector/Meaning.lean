import Cascade.Proofs.Forest.Runs
import Cascade.Proofs.Selector.Printing
import Cascade.Selector.Matching
import Mathlib.Logic.Function.Basic

/-!
# The meaning of a selector text

A text applies to an element if, for one of its groups, elements can be found for the compounds of
the group, one for each, the last being the element itself: each passes all tests of its compound,
and each is where the separator wants it, seen from the next one.  Nothing is said about how they
are found.  The matcher looks for them from the last compound to the first, on each way up anew, so
it has to come back to a choice that leads nowhere; that it misses none is what is proved here.

## Main definitions

* `Selector.Sequence`, `Selector.Lists` — the groups of a text, compound by compound.
* `Selector.Passes`, `Selector.Joined` — what a test and a separator ask for.
* `Selector.Fits` — there are elements for the compounds of a group.

## Main results

* `Selector.fits_step` — a place for the last compound and places for those before it.
* `Selector.holds_parse` — **a text applies to the elements that one of its groups fits.**
-/

namespace Cascade
namespace Selector

variable {ctx : MatchContext} {h a : Handle} {cs : List Char} {s t : Selector}
  {ts : List Selector}

/-! ### Texts, compound by compound -/

/-- A further compound of a group, with the separator in front of it. -/
structure Step where
  /-- Whether the separator has a `>`. -/
  direct : Bool
  /-- The tests of the compound. -/
  tests : List Selector

/-- The compounds of a group in the order in which they are written. -/
structure Sequence where
  /-- The tests of the first compound. -/
  first : List Selector
  /-- The compounds after it. -/
  steps : List Step

/-- What a sequence of compounds is written as. -/
inductive Spells : List Char → Sequence → Prop where
  | first {cs : List Char} {ts : List Selector} (h : Tests cs ts) (hne : ts ≠ []) :
    Spells cs ⟨ts, []⟩
  | step {as sep cs : List Char} {g : Sequence} {direct : Bool} {ts : List Selector}
    (ha : Spells as g) (hs : Separator sep direct) (h : Tests cs ts) (hne : ts ≠ []) :
    Spells (as ++ sep ++ cs) ⟨g.first, g.steps ++ [⟨direct, ts⟩]⟩

/-- A group as it is written, with blanks around it. -/
def SpellsGroup (text : List Char) (g : Sequence) : Prop :=
  ∃ bs cs bs', Blanks bs ∧ Spells cs g ∧ Blanks bs' ∧ text = bs ++ cs ++ bs'

/-- A text lists its groups between commas, one at least. -/
def Lists (text : List Char) (gs : List Sequence) : Prop :=
  ∃ parts, parts ≠ [] ∧ text = [','].intercalate parts ∧ List.Forall₂ SpellsGroup parts gs

/-! ### What is asked of elements -/

/-- An element passes a test: its data are as the test says, or the test is for the pseudo-class
that is forced on this very element. -/
inductive Passes (ctx : MatchContext) (h : Handle) : Selector → Prop where
  | universal {e : Element} (he : ctx.forest.get? h = some e) : Passes ctx h .universal
  | type {e : Element} (he : ctx.forest.get? h = some e) : Passes ctx h (.ofType e.typeName)
  | id {e : Element} {name : String} (he : ctx.forest.get? h = some e) (hid : e.id = some name) :
    Passes ctx h (.ofId name)
  | class {e : Element} {name : String} (he : ctx.forest.get? h = some e)
    (hc : e.classes.contains name = true) : Passes ctx h (.ofClass name)
  | active {e : Element} {name : String} (he : ctx.forest.get? h = some e)
    (hp : e.pseudoClasses.contains name = true) : Passes ctx h (.ofPseudo name)
  | forced {e : Element} {name : String} (he : ctx.forest.get? h = some e)
    (hf : ctx.forced = some (h, name)) : Passes ctx h (.ofPseudo name)

/-- Where the element `a` of one compound is, seen from the element `h` of the next. -/
inductive Joined (ctx : MatchContext) (a h : Handle) : Bool → Prop where
  /-- With a `>` it is the parent. -/
  | child (hp : ctx.forest.parent? h = some a) : Joined ctx a h true
  /-- Without it is one of the nearest ancestors, as many as the context allows. -/
  | descendant (hn : ctx.forest.Near ctx.maxDepth a h) : Joined ctx a h false

/-- The elements `x 0`, `x 1`, … are in place for the compounds of a group, in order. -/
structure Places (ctx : MatchContext) (g : Sequence) (x : Nat → Handle) : Prop where
  first : ∀ t ∈ g.first, Passes ctx (x 0) t
  passes : ∀ i s, g.steps[i]? = some s → ∀ t ∈ s.tests, Passes ctx (x (i + 1)) t
  joined : ∀ i s, g.steps[i]? = some s → Joined ctx (x i) (x (i + 1)) s.direct

/-- A group fits an element: there are elements for its compounds, this one for the last. -/
def Fits (ctx : MatchContext) (g : Sequence) (h : Handle) : Prop :=
  ∃ x : Nat → Handle, Places ctx g x ∧ x g.steps.length = h

/-! ### One compound -/

theorem contains_of_holds (hs : s.holds ctx h = true) : ctx.forest.contains h = true := by
  have hany : ∀ {f : Element → Bool}, (ctx.forest.get? h).any f = true →
      ctx.forest.contains h = true := by
    intro f hf
    obtain ⟨e, he, -⟩ := (Option.any_eq_true _ _).mp hf
    exact Forest.contains_of_get? he
  cases s with
  | universal => rwa [holds] at hs
  | ofType name => exact hany hs
  | ofId name => exact hany hs
  | ofClass name => exact hany hs
  | ofPseudo name => exact hany hs
  | all terms =>
    rw [holds, Bool.and_eq_true] at hs
    exact hs.1
  | within base ancestor direct =>
    rw [holds, Bool.and_eq_true, Bool.and_eq_true] at hs
    exact hs.1.1
  | oneOf options =>
    rw [holds, Bool.and_eq_true] at hs
    exact hs.1
  | invalid => rw [holds] at hs; cases hs

theorem Passes.contains (hp : Passes ctx h t) : ctx.forest.contains h = true := by
  cases hp with
  | universal he => exact Forest.contains_of_get? he
  | type he => exact Forest.contains_of_get? he
  | id he _ => exact Forest.contains_of_get? he
  | «class» he _ => exact Forest.contains_of_get? he
  | active he _ => exact Forest.contains_of_get? he
  | forced he _ => exact Forest.contains_of_get? he

/-- A test applies to the elements that pass it. -/
theorem IsTest.holds_iff (ht : IsTest t) : t.holds ctx h = true ↔ Passes ctx h t := by
  constructor
  · intro hh
    obtain ⟨e, he⟩ := Forest.contains_iff.mp (contains_of_holds hh)
    cases ht with
    | universal => exact .universal he
    | type _ =>
      rw [holds, he, Option.any_some, beq_iff_eq] at hh
      exact hh ▸ .type he
    | mark ht =>
      cases ht with
      | id _ =>
        rw [holds, he, Option.any_some, beq_iff_eq] at hh
        exact .id he hh
      | «class» _ =>
        rw [holds, he, Option.any_some] at hh
        exact .class he hh
      | pseudo _ =>
        rw [holds, he, Option.any_some, Bool.or_eq_true, beq_iff_eq] at hh
        exact hh.elim (.active he) (.forced he)
  · intro hp
    cases hp with
    | universal he => exact Forest.contains_of_get? he
    | type he => rw [holds, he, Option.any_some, beq_self_eq_true]
    | id he hid => rw [holds, he, Option.any_some, hid, beq_self_eq_true]
    | «class» he hc => rw [holds, he, Option.any_some, hc]
    | active he hp => rw [holds, he, Option.any_some, hp, Bool.true_or]
    | forced he hf => rw [holds, he, Option.any_some, hf, beq_self_eq_true, Bool.or_true]

/-- The tests that a compound is written with make up a compound, which applies where they pass. -/
theorem Tests.exists_compound (hts : Tests cs ts) (hne : ts ≠ []) :
    ∃ t, Compound cs t ∧ ∀ ctx h, t.holds ctx h = true ↔ ∀ u ∈ ts, Passes ctx h u := by
  obtain ⟨t, ms, rfl, ht, hms⟩ := hts.exists_cons hne
  have htests : ∀ u ∈ t :: ms, IsTest u := by
    intro u hu
    rcases List.mem_cons.mp hu with rfl | hu
    · exact ht
    · exact .mark (hms u hu)
  cases ms with
  | nil =>
    refine ⟨t, .single hts, fun ctx h => ?_⟩
    rw [ht.holds_iff, List.forall_mem_singleton]
  | cons m ms =>
    refine ⟨.all (t :: m :: ms), .several hts (Nat.le_add_left 2 _), fun ctx h => ?_⟩
    rw [holds, holdsAll_eq, Bool.and_eq_true, List.all_eq_true]
    constructor
    · intro hall u hu
      exact (htests u hu).holds_iff.mp (hall.2 u hu)
    · intro hall
      exact ⟨(hall t List.mem_cons_self).contains,
        fun u hu => (htests u hu).holds_iff.mpr (hall u hu)⟩

/-! ### Sequences of compounds -/

theorem fits_first : Fits ctx ⟨ts, []⟩ h ↔ ∀ t ∈ ts, Passes ctx h t := by
  constructor
  · rintro ⟨x, hx, rfl⟩
    exact hx.first
  · intro hts
    refine ⟨fun _ => h, ⟨hts, ?_, ?_⟩, rfl⟩
    · intro i s hs
      cases hs
    · intro i s hs
      cases hs

/-- **One more compound.**  A group fits an element if the element passes the tests of the last
compound, and the group without that compound fits some element where the separator wants one. -/
theorem fits_step {g : Sequence} {direct : Bool} :
    Fits ctx ⟨g.first, g.steps ++ [⟨direct, ts⟩]⟩ h ↔
      (∀ t ∈ ts, Passes ctx h t) ∧ ∃ a, Joined ctx a h direct ∧ Fits ctx g a := by
  have hlast : (g.steps ++ [⟨direct, ts⟩])[g.steps.length]? = some ⟨direct, ts⟩ :=
    List.getElem?_concat_length
  constructor
  · rintro ⟨x, hx, rfl⟩
    have hinit : ∀ {i : Nat} {s : Step}, g.steps[i]? = some s →
        (g.steps ++ [⟨direct, ts⟩])[i]? = some s := fun hs => by
      rwa [List.getElem?_append_left (List.getElem?_eq_some_iff.mp hs).1]
    rw [List.length_append]
    -- the same places without the last one fit the group without its last compound
    refine ⟨hx.passes _ _ hlast, x g.steps.length, hx.joined _ _ hlast, x, ⟨hx.first, ?_, ?_⟩, rfl⟩
    · intro i s hs
      exact hx.passes i s (hinit hs)
    · intro i s hs
      exact hx.joined i s (hinit hs)
  · rintro ⟨hts, a, ha, x, hx, rfl⟩
    -- the places stay, and the element takes the next one
    let y : Nat → Handle := Function.update x (g.steps.length + 1) h
    have hold : ∀ i ≤ g.steps.length, y i = x i := fun i hi =>
      Function.update_of_ne (by omega) h x
    have hnew : y (g.steps.length + 1) = h := Function.update_self _ h x
    have hsplit : ∀ {i : Nat} {s : Step}, (g.steps ++ [⟨direct, ts⟩])[i]? = some s →
        (i < g.steps.length ∧ g.steps[i]? = some s) ∨ (i = g.steps.length ∧ s = ⟨direct, ts⟩) := by
      intro i s hs
      rcases Nat.lt_trichotomy i g.steps.length with hi | rfl | hi
      · rw [List.getElem?_append_left hi] at hs
        exact .inl ⟨hi, hs⟩
      · rw [hlast] at hs
        exact .inr ⟨rfl, (Option.some.inj hs).symm⟩
      · rw [List.getElem?_eq_none (by rw [List.length_append]; exact hi)] at hs
        cases hs
    refine ⟨y, ⟨?_, ?_, ?_⟩, ?_⟩
    · rw [hold 0 (Nat.zero_le _)]
      exact hx.first
    · intro i s hs
      rcases hsplit hs with ⟨hi, hs⟩ | ⟨rfl, rfl⟩
      · rw [hold (i + 1) hi]
        exact hx.passes i s hs
      · rw [hnew]
        exact hts
    · intro i s hs
      rcases hsplit hs with ⟨hi, hs⟩ | ⟨rfl, rfl⟩
      · rw [hold i (Nat.le_of_lt hi), hold (i + 1) hi]
        exact hx.joined i s hs
      · rw [hold _ (Nat.le_refl _), hnew]
        exact ha
    · rw [List.length_append]
      exact hnew

/-- A selector applies above an element if it applies to one of the nearest ancestors. -/
theorem holdsAbove_iff : s.holdsAbove ctx h = true ↔
    ∃ a, ctx.forest.Near ctx.maxDepth a h ∧ s.holds ctx a = true := by
  rw [holdsAbove, List.any_eq_true]
  refine exists_congr fun a => and_congr_left fun ha => ?_
  exact Forest.mem_take_ancestors (contains_of_holds ha)

/-- A relation applies where its base does, if its ancestor applies where the separator wants it. -/
theorem holds_within_iff {direct : Bool} : (within s t direct).holds ctx h = true ↔
    s.holds ctx h = true ∧ ∃ a, Joined ctx a h direct ∧ t.holds ctx a = true := by
  -- the matcher looks where the separator says: at the parent, or at the ancestors within the limit
  have hjoined : (if direct then (ctx.forest.parent? h).any fun p => t.holds ctx p
      else t.holdsAbove ctx h) = true ↔ ∃ a, Joined ctx a h direct ∧ t.holds ctx a = true := by
    cases direct with
    | false =>
      rw [if_neg Bool.false_ne_true, holdsAbove_iff]
      refine exists_congr fun a => and_congr_left fun _ => ⟨.descendant, fun ha => ?_⟩
      cases ha with
      | descendant hn => exact hn
    | true =>
      rw [if_pos rfl, Option.any_eq_true]
      refine exists_congr fun a => and_congr_left fun _ => ⟨.child, fun ha => ?_⟩
      cases ha with
      | child hp => exact hp
  rw [← hjoined, holds, Bool.and_eq_true, Bool.and_eq_true]
  exact and_congr_left fun _ => and_iff_right_of_imp contains_of_holds

/-- What a sequence of compounds is written as is a chain, and its term applies to the elements
that the sequence fits. -/
theorem Spells.exists_chain {g : Sequence} (hg : Spells cs g) :
    ∃ t, Chain cs t ∧ ∀ ctx h, t.holds ctx h = true ↔ Fits ctx g h := by
  induction hg with
  | first h hne =>
    obtain ⟨t, ht, hholds⟩ := h.exists_compound hne
    exact ⟨t, .compound ht, fun ctx h => (hholds ctx h).trans fits_first.symm⟩
  | @step as sep cs g direct ts _ hs h hne ih =>
    obtain ⟨ancestor, ha, hancestor⟩ := ih
    obtain ⟨base, hb, hbase⟩ := h.exists_compound hne
    refine ⟨.within base ancestor direct, .within ha hs hb, fun ctx h => ?_⟩
    rw [holds_within_iff, fits_step, hbase]
    exact and_congr_right fun _ => exists_congr fun a => and_congr_right fun _ => hancestor ctx a

/-- Every chain is what some sequence of compounds is written as. -/
theorem Chain.exists_spells (hc : Chain cs t) : ∃ g, Spells cs g := by
  induction hc with
  | compound h =>
    obtain ⟨ts, hts, hne⟩ := h.exists_tests
    exact ⟨_, .first hts hne⟩
  | within _ hs h ih =>
    obtain ⟨g, hg⟩ := ih
    obtain ⟨ts, hts, hne⟩ := h.exists_tests
    exact ⟨_, .step hg hs hts hne⟩

/-! ### Lists of groups -/

/-- A term for each group of a list. -/
theorem exists_groupTexts {parts : List (List Char)} {gs : List Sequence}
    (h : List.Forall₂ SpellsGroup parts gs) :
    ∃ ts, List.Forall₂ GroupText parts ts ∧
      List.Forall₂ (fun t g => ∀ ctx h, t.holds ctx h = true ↔ Fits ctx g h) ts gs := by
  induction h with
  | nil => exact ⟨[], .nil, .nil⟩
  | cons hg _ ih =>
    obtain ⟨bs, cs, bs', hb, hspells, hb', rfl⟩ := hg
    obtain ⟨t, hchain, hholds⟩ := hspells.exists_chain
    obtain ⟨ts, htexts, hfits⟩ := ih
    exact ⟨t :: ts, .cons ⟨bs, cs, bs', hb, hchain, hb', rfl⟩ htexts, .cons hholds hfits⟩

theorem GroupText.exists_spellsGroup (h : GroupText cs t) : ∃ g, SpellsGroup cs g := by
  obtain ⟨bs, cs, bs', hb, hchain, hb', rfl⟩ := h
  obtain ⟨g, hg⟩ := hchain.exists_spells
  exact ⟨g, bs, cs, bs', hb, hg, hb', rfl⟩

/-- Every text of the grammar lists its groups. -/
theorem Denotes.exists_lists (h : Denotes cs t) : ∃ gs, Lists cs gs := by
  cases h with
  | one h =>
    obtain ⟨g, hg⟩ := h.exists_spellsGroup
    exact ⟨[g], [cs], List.cons_ne_nil _ _, List.intercalate_singleton.symm, .cons hg .nil⟩
  | @several parts ts h hlen =>
    have hgroups : ∃ gs, List.Forall₂ SpellsGroup parts gs := by
      -- an induction on all groups, of which there may then be fewer than two
      clear hlen
      induction h with
      | nil => exact ⟨[], .nil⟩
      | cons ht _ ih =>
        obtain ⟨g, hg⟩ := ht.exists_spellsGroup
        obtain ⟨gs, hgs⟩ := ih
        exact ⟨g :: gs, .cons hg hgs⟩
    obtain ⟨gs, hgs⟩ := hgroups
    exact ⟨gs, parts, List.ne_nil_of_length_pos (Nat.zero_lt_of_lt hlen), rfl, hgs⟩

/-- Alternatives apply where one of them does. -/
theorem holds_alternatives_iff (ts : List Selector) :
    (alternatives ts).holds ctx h = true ↔ ∃ t ∈ ts, t.holds ctx h = true := by
  unfold alternatives
  split
  · next t => simp only [List.mem_singleton, exists_eq_left]
  · rw [holds, holdsAny_eq, Bool.and_eq_true, List.any_eq_true]
    refine and_iff_right_of_imp ?_
    rintro ⟨t, -, ht⟩
    exact contains_of_holds ht

/-- A text that lists groups stands for alternatives, one for each. -/
theorem denotes_alternatives {parts : List (List Char)} (hne : parts ≠ [])
    (h : List.Forall₂ GroupText parts ts) :
    Denotes ([','].intercalate parts) (alternatives ts) := by
  cases h with
  | nil => exact absurd rfl hne
  | cons ht hts =>
    cases hts with
    | nil =>
      rw [List.intercalate_singleton]
      exact .one ht
    | cons ht' hts => exact .several (.cons ht (.cons ht' hts)) (Nat.le_add_left 2 _)

/-- A text that lists groups is read as a selector that applies to the elements which one of them
fits. -/
theorem Lists.exists_denotes {gs : List Sequence} (hl : Lists cs gs) :
    ∃ s, Denotes cs s ∧ ∀ ctx h, s.holds ctx h = true ↔ ∃ g ∈ gs, Fits ctx g h := by
  obtain ⟨parts, hne, rfl, hgroups⟩ := hl
  obtain ⟨ts, htexts, hfits⟩ := exists_groupTexts hgroups
  refine ⟨alternatives ts, denotes_alternatives hne htexts, fun ctx h => ?_⟩
  rw [holds_alternatives_iff]
  clear htexts hgroups
  induction hfits with
  | nil => simp only [List.not_mem_nil, false_and, exists_false]
  | cons hfit _ ih => simp only [List.mem_cons, exists_eq_or_imp, hfit ctx h, ih]

/-- **The meaning of a text.**  A text that is not malformed lists groups.  It applies to an
element if and only if the element is live and one of the groups fits it, and above an element if
and only if it applies to one of the nearest ancestors. -/
theorem holds_parse (text : String) :
    (parse text ≠ .invalid ↔ ∃ gs, Lists text.toList gs) ∧
      ∀ gs, Lists text.toList gs → ∀ (ctx : MatchContext) (h : Handle),
        ((parse text).holds ctx h = true ↔
          ctx.forest.contains h = true ∧ ∃ g ∈ gs, Fits ctx g h) ∧
        ((parse text).holdsAbove ctx h = true ↔
          ∃ a, ctx.forest.Near ctx.maxDepth a h ∧ (parse text).holds ctx a = true) := by
  refine ⟨⟨fun hp => (denotes_parse hp).exists_lists, ?_⟩, ?_⟩
  · rintro ⟨gs, hgs⟩
    obtain ⟨s, hs, -⟩ := hgs.exists_denotes
    rw [parse_of_denotes hs]
    exact hs.ne_invalid
  · intro gs hgs ctx h
    obtain ⟨s, hs, hholds⟩ := hgs.exists_denotes
    rw [parse_of_denotes hs, ← hholds]
    exact ⟨(and_iff_right_of_imp contains_of_holds).symm, holdsAbove_iff⟩

/-- A label in a panel in a panel in a window, with an icon in the label. -/
def nestedPanels : Forest :=
  ({} : Forest).run [.insert { (default : Element) with typeName := "Window" },
    .insert { (default : Element) with typeName := "Panel" },
    .insert { (default : Element) with typeName := "Panel" },
    .insert { (default : Element) with typeName := "Label" },
    .insert { (default : Element) with typeName := "Icon" },
    .attach ⟨1, 0⟩ ⟨0, 0⟩, .attach ⟨2, 0⟩ ⟨1, 0⟩, .attach ⟨3, 0⟩ ⟨2, 0⟩, .attach ⟨4, 0⟩ ⟨3, 0⟩]

/-- The nearest panel is not a child of the window.  The label is found nevertheless, by the panel
around that one, and so is what the text applies to above the icon. -/
theorem holds_parse_nestedPanels :
    let ctx : MatchContext := { forest := nestedPanels }
    let text := "Window > Panel Label, #main"
    let gs : List Sequence := [⟨[.ofType "Window"], [⟨true, [.ofType "Panel"]⟩,
      ⟨false, [.ofType "Label"]⟩]⟩, ⟨[.ofId "main"], []⟩]
    Lists text.toList gs ∧ (ctx.forest.contains ⟨3, 0⟩ = true ∧ ∃ g ∈ gs, Fits ctx g ⟨3, 0⟩) ∧
      ∃ a, ctx.forest.Near ctx.maxDepth a ⟨4, 0⟩ ∧ (parse text).holds ctx a = true := by
  intro ctx text gs
  have hwindow : IsTest (.ofType "Window") := .type (by decide)
  have hpanel : IsTest (.ofType "Panel") := .type (by decide)
  have hlabel : IsTest (.ofType "Label") := .type (by decide)
  have hmain : IsTest (.ofId "main") := .mark (.id (by decide))
  have hfirst := Spells.first hwindow.tests_singleton (List.cons_ne_nil _ _)
  have hchild := hfirst.step (.child blanks_space blanks_space) hpanel.tests_singleton
    (List.cons_ne_nil _ _)
  have hnested := hchild.step (.gap (List.cons_ne_nil _ _) blanks_space) hlabel.tests_singleton
    (List.cons_ne_nil _ _)
  have hsecond := Spells.first hmain.tests_singleton (List.cons_ne_nil _ _)
  have hlists : Lists text.toList gs :=
    ⟨["Window > Panel Label".toList, " #main".toList], List.cons_ne_nil _ _, by decide,
      .cons ⟨[], _, [], .nil, hnested, .nil, by decide⟩
        (.cons ⟨[' '], _, [], blanks_space, hsecond, .nil, by decide⟩ .nil)⟩
  obtain ⟨-, hmeaning⟩ := holds_parse text
  exact ⟨hlists, (hmeaning gs hlists ctx ⟨3, 0⟩).1.mp (by decide +kernel),
    (hmeaning gs hlists ctx ⟨4, 0⟩).2.mp (by decide +kernel)⟩

end Selector
end Cascade
