import Cascade.Proofs.Selector.Reading

/-!
# Printing is read back

The written form of a selector has no brackets: a conjunction is its tests without a gap, a
relation is two texts side by side.  So most terms are read back as others, or as nothing.  The
terms that a text can stand for are those whose shape follows the grammar, and their written form
is the plainest text of the grammar for them: one space or ` > ` between compounds, a comma and a
space between groups, nothing at either end.

## Main definitions

* `Selector.IsMark`, `Selector.IsTest`, `Selector.IsCompound`, `Selector.IsGroup`,
  `Selector.IsWritable` — the shapes of terms, part by part of the grammar.

## Main results

* `Selector.Denotes.isWritable` — what a text stands for has the shape.
* `Selector.IsWritable.denotes_text` — what has the shape is what its written form stands for.
* `Selector.exists_parse_iff` — what can be read at all.
* `Selector.parse_text` — **printing and reading again changes nothing,** and exactly what can be
  read is read back.
-/

namespace Cascade
namespace Selector

variable {cs : List Char} {s t : Selector} {ts : List Selector}

/-! ### Shapes -/

/-- A test with a mark: an id, a class or a pseudo-class with a proper name. -/
inductive IsMark : Selector → Prop where
  | id {name : String} (hn : IsName name.toList) : IsMark (.ofId name)
  | class {name : String} (hn : IsName name.toList) : IsMark (.ofClass name)
  | pseudo {name : String} (hn : IsName name.toList) : IsMark (.ofPseudo name)

/-- A test of one element. -/
inductive IsTest : Selector → Prop where
  | universal : IsTest .universal
  | type {name : String} (hn : IsName name.toList) : IsTest (.ofType name)
  | mark {t : Selector} (h : IsMark t) : IsTest t

/-- A compound: one test, or the conjunction of a test and at least one mark. -/
inductive IsCompound : Selector → Prop where
  | single {t : Selector} (h : IsTest t) : IsCompound t
  | several {t : Selector} {ms : List Selector} (h : IsTest t) (hms : ∀ m ∈ ms, IsMark m)
    (hne : ms ≠ []) : IsCompound (.all (t :: ms))

/-- A group: compounds that are related one to the next, the ancestor always being a group. -/
inductive IsGroup : Selector → Prop where
  | compound {t : Selector} (h : IsCompound t) : IsGroup t
  | within {base ancestor : Selector} {direct : Bool} (ha : IsGroup ancestor)
    (hb : IsCompound base) : IsGroup (.within base ancestor direct)

/-- A selector that a text can stand for: a group, or several as alternatives. -/
inductive IsWritable : Selector → Prop where
  | one {t : Selector} (h : IsGroup t) : IsWritable t
  | several {ts : List Selector} (h : ∀ t ∈ ts, IsGroup t) (hlen : 2 ≤ ts.length) :
    IsWritable (.oneOf ts)

/-! ### What a text stands for -/

theorem Marked.isMark (h : Marked cs t) : IsMark t := by
  cases h with
  | id hn => exact .id (String.toList_ofList ▸ hn)
  | «class» hn => exact .class (String.toList_ofList ▸ hn)
  | pseudo hn => exact .pseudo (String.toList_ofList ▸ hn)

theorem Marks.isMark (h : Marks cs ts) : ∀ t ∈ ts, IsMark t := by
  induction h with
  | nil =>
    intro t ht
    cases ht
  | cons hm _ ih =>
    intro t ht
    rcases List.mem_cons.mp ht with rfl | ht
    · exact hm.isMark
    · exact ih t ht

/-- A test comes first, and then there are marks only. -/
theorem Tests.exists_cons (h : Tests cs ts) (hne : ts ≠ []) :
    ∃ t ms, ts = t :: ms ∧ IsTest t ∧ ∀ m ∈ ms, IsMark m := by
  cases h with
  | bare hms =>
    cases hms with
    | nil => exact absurd rfl hne
    | cons hm hms => exact ⟨_, _, rfl, .mark hm.isMark, hms.isMark⟩
  | star hms => exact ⟨_, _, rfl, .universal, hms.isMark⟩
  | type hn hms => exact ⟨_, _, rfl, .type (String.toList_ofList ▸ hn), hms.isMark⟩

theorem Compound.isCompound (h : Compound cs t) : IsCompound t := by
  cases h with
  | single h =>
    -- one test alone, with no marks after it
    obtain ⟨t, ms, heq, ht, -⟩ := h.exists_cons (List.cons_ne_nil _ _)
    cases heq
    exact .single ht
  | @several ts h hlen =>
    obtain ⟨t, ms, rfl, ht, hms⟩ :=
      h.exists_cons (List.ne_nil_of_length_pos (Nat.zero_lt_of_lt hlen))
    exact .several ht hms (List.ne_nil_of_length_pos (Nat.le_of_succ_le_succ hlen))

theorem Chain.isGroup (h : Chain cs t) : IsGroup t := by
  induction h with
  | compound h => exact .compound h.isCompound
  | within _ _ hc ih => exact .within ih hc.isCompound

theorem GroupText.isGroup (h : GroupText cs t) : IsGroup t := by
  obtain ⟨-, _, -, -, hchain, -, -⟩ := h
  exact hchain.isGroup

theorem isGroup_of_groupTexts {gs : List (List Char)} (h : List.Forall₂ GroupText gs ts) :
    ∀ t ∈ ts, IsGroup t := by
  induction h with
  | nil =>
    intro t ht
    cases ht
  | cons hg _ ih =>
    intro t ht
    rcases List.mem_cons.mp ht with rfl | ht
    · exact hg.isGroup
    · exact ih t ht

/-- **What a text stands for has the shape of the grammar.** -/
theorem Denotes.isWritable (h : Denotes cs t) : IsWritable t := by
  cases h with
  | one h => exact .one h.isGroup
  | several h hlen => exact .several (isGroup_of_groupTexts h) (h.length_eq ▸ hlen)

/-! ### What a written form stands for -/

/-- Each further alternative has a comma and a space in front. -/
theorem toList_afterCommas (ts : List Selector) :
    (afterCommas ts).toList = ts.flatMap fun t => ',' :: ' ' :: t.text.toList := by
  induction ts with
  | nil => rfl
  | cons t ts ih =>
    rw [afterCommas, String.toList_append, String.toList_append, ih, List.flatMap_cons]
    rfl

theorem IsMark.marked_text (h : IsMark t) : Marked t.text.toList t := by
  cases h with
  | id hn =>
    rw [text, String.toList_append]
    have hm := Marked.id hn
    rwa [String.ofList_toList] at hm
  | «class» hn =>
    rw [text, String.toList_append]
    have hm := Marked.class hn
    rwa [String.ofList_toList] at hm
  | pseudo hn =>
    rw [text, String.toList_append]
    have hm := Marked.pseudo hn
    rwa [String.ofList_toList] at hm

theorem marks_text (h : ∀ t ∈ ts, IsMark t) : Marks (gapless ts).toList ts := by
  induction ts with
  | nil => exact .nil
  | cons t ts ih =>
    rw [gapless, String.toList_append]
    exact .cons (h t List.mem_cons_self).marked_text
      (ih fun u hu => h u (List.mem_cons_of_mem t hu))

theorem IsTest.tests_text (h : IsTest t) (hts : ∀ u ∈ ts, IsMark u) :
    Tests (gapless (t :: ts)).toList (t :: ts) := by
  rw [gapless, String.toList_append]
  cases h with
  | universal => exact .star (marks_text hts)
  | type hn =>
    have ht := Tests.type hn (marks_text hts)
    rwa [String.ofList_toList] at ht
  | mark h => exact .bare (.cons h.marked_text (marks_text hts))

theorem IsTest.tests_singleton (h : IsTest t) : Tests t.text.toList [t] := by
  have ht := h.tests_text (List.forall_mem_nil IsMark)
  rwa [gapless, gapless, String.append_empty] at ht

theorem IsCompound.compound_text (h : IsCompound t) : Compound t.text.toList t := by
  cases h with
  | single h => exact .single h.tests_singleton
  | several h hms hne =>
    rw [text]
    exact .several (h.tests_text hms) (Nat.succ_le_succ (List.length_pos_of_ne_nil hne))

theorem blanks_space : Blanks [' '] := Blanks.nil.cons (by decide)

theorem IsGroup.chain_text (h : IsGroup t) : Chain t.text.toList t := by
  induction h with
  | compound h => exact .compound h.compound_text
  | @within base ancestor direct _ hb ih =>
    rw [text, String.toList_append, String.toList_append]
    refine .within ih ?_ hb.compound_text
    cases direct with
    | false => exact .gap (List.cons_ne_nil ' ' []) blanks_space
    | true => exact .child blanks_space blanks_space

theorem IsGroup.groupText_text (h : IsGroup t) : GroupText t.text.toList t :=
  ⟨[], t.text.toList, [], .nil, h.chain_text, .nil, by rw [List.append_nil, List.nil_append]⟩

/-- A space in front is no part of a group. -/
theorem GroupText.space (h : GroupText cs t) : GroupText (' ' :: cs) t := by
  obtain ⟨bs, cs, bs', hb, hchain, hb', rfl⟩ := h
  exact ⟨' ' :: bs, cs, bs', hb.cons (by decide), hchain, hb', rfl⟩

theorem intercalate_comma (g : List Char) (gs : List (List Char)) :
    [','].intercalate (g :: gs) = g ++ gs.flatMap (',' :: ·) := by
  induction gs generalizing g with
  | nil => rw [List.intercalate_singleton, List.flatMap_nil, List.append_nil]
  | cons g' gs ih =>
    rw [List.intercalate_cons_cons, ih, List.flatMap_cons, List.append_assoc]
    rfl

/-- **What has the shape of the grammar is what its written form stands for.** -/
theorem IsWritable.denotes_text (h : IsWritable t) : Denotes t.text.toList t := by
  cases h with
  | one h => exact .one h.groupText_text
  | @several ts h hlen =>
    match ts, hlen with
    | t :: t' :: ts, _ =>
      -- every group but the first has a space in front, which the grammar allows
      have hgroups : List.Forall₂ GroupText ((t' :: ts).map fun u => ' ' :: u.text.toList)
          (t' :: ts) := by
        rw [List.forall₂_map_left_iff, List.forall₂_same]
        intro u hu
        exact (h u (List.mem_cons_of_mem t hu)).groupText_text.space
      have hdenotes := Denotes.several (.cons (h t List.mem_cons_self).groupText_text hgroups)
        (Nat.le_add_left 2 _)
      rw [intercalate_comma, List.flatMap_map] at hdenotes
      rwa [text, String.toList_append, toList_afterCommas]

/-! ### Reading what has been printed -/

/-- The brackets around what is printed for malformed text are in no name, so it is malformed. -/
theorem parse_text_invalid : parse (text .invalid) = .invalid := by decide +kernel

/-- A selector with the shape of the grammar is read back from its written form. -/
theorem parse_text_of_shape (h : s = .invalid ∨ IsWritable s) : parse s.text = s := by
  rcases h with rfl | h
  · exact parse_text_invalid
  · exact parse_of_denotes h.denotes_text

/-- **What can be read at all.**  Every selector with the shape of the grammar is read from some
text, and besides these only the meaning of malformed text. -/
theorem exists_parse_iff : (∃ t, parse t = s) ↔ s = .invalid ∨ IsWritable s := by
  constructor
  · rintro ⟨t, rfl⟩
    by_cases hi : parse t = .invalid
    · exact .inl hi
    · exact .inr (denotes_parse hi).isWritable
  · exact fun h => ⟨s.text, parse_text_of_shape h⟩

/-- **Printing and reading again changes nothing:** the written form of what has been read is read
as the same selector, also if the text was malformed.  Hence a term is read back from its written
form if and only if it can be read from any text. -/
theorem parse_text : (∀ t : String, parse (parse t).text = parse t) ∧
    ∀ s : Selector, parse s.text = s ↔ ∃ t, parse t = s := by
  have hread : ∀ t, parse (parse t).text = parse t := fun t =>
    parse_text_of_shape (exists_parse_iff.mp ⟨t, rfl⟩)
  refine ⟨hread, fun s => ⟨fun h => ⟨s.text, h⟩, ?_⟩⟩
  rintro ⟨t, rfl⟩
  exact hread t

end Selector
end Cascade
