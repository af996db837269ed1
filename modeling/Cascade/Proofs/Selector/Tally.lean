import Cascade.Proofs.Selector.Reading
import Mathlib.Algebra.BigOperators.Group.List.Basic
import Mathlib.Algebra.Group.Prod
import Mathlib.Algebra.GroupWithZero.Nat

/-!
# The rank of a selector can be counted in its text

Ranks are added up along the term, each sum stopping at the greatest count.  Stopping once, at
the end, comes to the same (`Specificity.stop_add`), so the rank of a term is a plain
sum over the compounds that its text is cut into, whatever groups and ancestor parts they are
in: the `#` of a compound are its id tests, the `.` and `:` its class and pseudo-class tests,
and a name at its front is its type test.  A sum does not depend on the order of its terms.

## Main definitions

* `Selector.compounds` — the compounds of a text, from left to right.
* `Selector.counts`, `Selector.tally` — the tests of a compound, and of a text, by kind.
* `Selector.Group`, `Selector.written` — groups as they are written, and the list of them.
* `Selector.Reordering` — the same groups and compounds in another order.

## Main results

* `Selector.Denotes.specificity_eq` — the rank is the sum over the compounds.
* `Selector.denotes_iff_written` — the grammar derives what is written as a list of groups.
* `Selector.specificity_parse` — the rank of a selector, for every text that is read.
-/

namespace Cascade

/-! ### Counts that stop once -/

namespace Specificity

variable (a b c : UInt32)

theorem addCount_assoc : addCount (addCount a b) c = addCount a (addCount b c) := by
  apply UInt32.toNat.inj
  simp only [toNat_addCount]
  omega

theorem addCount_comm : addCount a b = addCount b a := by
  rw [addCount, Nat.add_comm, addCount]

theorem zero_addCount : addCount 0 a = a := by
  apply UInt32.toNat.inj
  have ha := a.toNat_lt
  rw [toNat_addCount, UInt32.toNat_zero]
  omega

instance : Zero Specificity := ⟨zero⟩

theorem zero_def : (0 : Specificity) = ⟨0, 0, 0⟩ := rfl

theorem add_def (v w : Specificity) : v + w =
    ⟨addCount v.ids w.ids, addCount v.classes w.classes, addCount v.types w.types⟩ := rfl

/-- Ranks add up, in whatever order they are taken. -/
instance : AddCommMonoid Specificity where
  add_assoc u v w := by simp only [add_def, addCount_assoc]
  add_comm v w := by simp only [add_def, addCount_comm]
  zero_add v := by simp only [add_def, zero_def, zero_addCount]
  add_zero v := by simp only [add_def, zero_def, addCount_comm _ 0, zero_addCount]
  nsmul := nsmulRec

theorem sum_eq (ws : List Specificity) : sum ws = ws.sum := List.sum_eq_foldl.symm

/-- The greatest number up to 2³² − 1 that is at most `n`. -/
def stop (n : ℕ) : UInt32 := UInt32.ofNat (min n 0xFFFFFFFF)

@[simp] theorem toNat_stop (n : ℕ) : (stop n).toNat = min n 0xFFFFFFFF := by
  rw [stop, UInt32.toNat_ofNat']
  omega

/-- A sum that stops does not see where its terms have stopped. -/
theorem stop_add (m n : ℕ) : stop (m + n) = addCount (stop m) (stop n) := by
  apply UInt32.toNat.inj
  simp only [toNat_addCount, toNat_stop]
  omega

/-- The rank with these counts of ids, of classes and of types, each stopped. -/
def ofCounts : ℕ × ℕ × ℕ →+ Specificity where
  toFun n := ⟨stop n.1, stop n.2.1, stop n.2.2⟩
  map_zero' := rfl
  map_add' m n := by simp only [add_def, Prod.fst_add, Prod.snd_add, stop_add]

end Specificity

namespace Selector

variable {cs as bs sep w m ms name : List Char} {t : Selector} {ts : List Selector}

/-! ### The compounds of a text -/

/-- A character that no compound has in it: a blank, a `>` or a comma. -/
def isBreak (c : Char) : Bool := isBlank c || c == '>' || c == ','

/-- The compounds of a text, from left to right. -/
def compounds (cs : List Char) : List (List Char) :=
  (cs.splitOnP isBreak).filter fun w => !w.isEmpty

theorem Inner.isBreak_eq_false {c : Char} (h : Inner c) : isBreak c = false := by
  simp [isBreak, h.1, h.2.1, h.2.2]

theorem Blanks.isBreak (h : Blanks bs) : ∀ c ∈ bs, isBreak c = true := fun c hc => by
  rw [Selector.isBreak, (isBlank_iff c).mpr (h c hc)]
  rfl

theorem Separator.isBreak {direct : Bool} (h : Separator sep direct) :
    ∀ c ∈ sep, isBreak c = true := by
  cases h with
  | gap _ hb => exact hb.isBreak
  | child hb hb' =>
    intro c hc
    rcases List.mem_append.mp hc with hc | hc
    · exact hb.isBreak c hc
    · rcases List.mem_cons.mp hc with rfl | hc
      · decide
      · exact hb'.isBreak c hc

theorem Separator.ne_nil {direct : Bool} (h : Separator sep direct) : sep ≠ [] := by
  cases h with
  | gap hne _ => exact hne
  | child _ _ => exact List.append_ne_nil_of_right_ne_nil _ (List.cons_ne_nil _ _)

theorem compounds_append_cons {c : Char} (hc : isBreak c = true) (as cs : List Char) :
    compounds (as ++ c :: cs) = compounds as ++ compounds cs := by
  rw [compounds, List.splitOnP_append_cons as cs hc, List.filter_append]
  rfl

theorem compounds_breaks_append (h : ∀ c ∈ bs, isBreak c = true) (cs : List Char) :
    compounds (bs ++ cs) = compounds cs := by
  induction bs with
  | nil => rfl
  | cons b bs ih =>
    -- a break at the front of a text has an empty piece before it, which the filter drops
    have hb := compounds_append_cons (h b List.mem_cons_self) [] (bs ++ cs)
    exact hb.trans (ih fun c hc => h c (List.mem_cons_of_mem b hc))

/-- What stands between two parts of a text cuts it there. -/
theorem compounds_append (hne : sep ≠ []) (h : ∀ c ∈ sep, isBreak c = true)
    (as cs : List Char) : compounds (as ++ sep ++ cs) = compounds as ++ compounds cs := by
  obtain ⟨b, bs, rfl⟩ := List.exists_cons_of_ne_nil hne
  rw [List.append_assoc, List.cons_append, compounds_append_cons (h b List.mem_cons_self),
    compounds_breaks_append fun c hc => h c (List.mem_cons_of_mem b hc)]

theorem compounds_append_breaks (h : ∀ c ∈ bs, isBreak c = true) (cs : List Char) :
    compounds (cs ++ bs) = compounds cs := by
  cases bs with
  | nil => rw [List.append_nil]
  | cons b bs =>
    have hcut := compounds_append (List.cons_ne_nil b bs) h cs []
    rw [List.append_nil] at hcut
    rw [hcut]
    exact List.append_nil _

/-- Groups are cut each on its own. -/
theorem compounds_intercalate (gs : List (List Char)) :
    compounds ([','].intercalate gs) = gs.flatMap compounds := by
  have hcomma : ∀ c ∈ [','], isBreak c = true := by
    intro c hc
    cases List.mem_singleton.mp hc
    rfl
  induction gs with
  | nil => rfl
  | cons g gs ih =>
    -- commas stand between groups, so the last group has none after it
    cases gs with
    | nil => rw [List.intercalate_singleton, List.flatMap_singleton]
    | cons g' gs =>
      rw [List.intercalate_cons_cons, compounds_append (List.cons_ne_nil ',' []) hcomma, ih]
      rfl

/-- A compound is cut nowhere. -/
theorem Compound.compounds_eq (h : Compound w t) : compounds w = [w] := by
  have hw : ∀ c ∈ w, Selector.isBreak c = false := fun c hc => (h.inner c hc).isBreak_eq_false
  have hne : (!w.isEmpty) = true := by simpa using h.ne_nil
  rw [compounds, List.splitOnP_eq_singleton hw, List.filter_cons, if_pos hne, List.filter_nil]

theorem flatten_splitOnP (cs : List Char) :
    (cs.splitOnP isBreak).flatten = cs.filter fun c => !isBreak c := by
  induction cs with
  | nil => rfl
  | cons c cs ih =>
    -- a character that breaks opens an empty piece, and any other goes to the first piece
    rw [List.splitOnP_cons_eq_if_modifyHead]
    obtain ⟨w, ws, hws⟩ := List.exists_cons_of_ne_nil (List.splitOnP_ne_nil isBreak cs)
    cases hc : isBreak c with
    | true => simpa [hc] using ih
    | false => simpa [hc, hws] using ih

/-- The compounds hold all characters of a text but those that it is cut at. -/
theorem flatten_compounds (cs : List Char) :
    (compounds cs).flatten = cs.filter fun c => !isBreak c := by
  rw [compounds, List.flatten_filter_not_isEmpty, flatten_splitOnP]

/-- So characters that a text is not cut at can be counted compound by compound. -/
theorem sum_countP_compounds {q : Char → Bool} (hq : ∀ c, q c = true → isBreak c = false)
    (cs : List Char) : ((compounds cs).map (List.countP q)).sum = cs.countP q := by
  rw [← List.countP_flatten, flatten_compounds, List.countP_filter]
  refine List.countP_congr fun c _ => ?_
  cases hc : q c with
  | true => simp [hq c hc]
  | false => simp

/-! ### The tests of a compound -/

/-- Whether a compound starts with the name of a type. -/
def startsWithType (w : List Char) : Bool := w.head?.any isNameChar

/-- Whether a character marks a class or a pseudo-class. -/
def isClassMark (c : Char) : Bool := c == '.' || c == ':'

theorem eq_of_isClassMark {c : Char} (h : isClassMark c = true) : c = '.' ∨ c = ':' :=
  (Bool.or_eq_true_iff.mp h).imp eq_of_beq eq_of_beq

theorem startsWithType_append (hw : w ≠ []) (cs : List Char) :
    startsWithType (w ++ cs) = startsWithType w := by
  obtain ⟨c, w, rfl⟩ := List.exists_cons_of_ne_nil hw
  rfl

/-- The tests of a compound: on the id, on classes and pseudo-classes, on the type. -/
def counts (w : List Char) : ℕ × ℕ × ℕ :=
  (w.count '#', w.countP isClassMark, if startsWithType w then 1 else 0)

/-- A compound has no type test but at its front. -/
theorem counts_append (hw : w ≠ []) (hms : startsWithType ms = false) :
    counts (w ++ ms) = counts w + counts ms := by
  simp only [counts, List.count_append, List.countP_append, startsWithType_append hw, hms,
    Bool.false_eq_true, if_false, Prod.mk_add_mk, add_zero]

/-- There are no marks in a name. -/
theorem IsName.counts_eq (h : IsName name) : counts name = (0, 0, 1) := by
  have hids : name.count '#' = 0 :=
    List.count_eq_zero_of_not_mem fun hc => absurd (h.2 '#' hc) (by decide)
  have hclasses : name.countP isClassMark = 0 := by
    refine List.countP_eq_zero.mpr fun c hc hmark => ?_
    rcases eq_of_isClassMark hmark with rfl | rfl
    · exact absurd (h.2 '.' hc) (by decide)
    · exact absurd (h.2 ':' hc) (by decide)
  have htype : startsWithType name = true := by
    obtain ⟨c, name, rfl⟩ := List.exists_cons_of_ne_nil h.1
    exact (isNameChar_iff c).mpr (h.2 c List.mem_cons_self)
  rw [counts, hids, hclasses, if_pos htype]

/-- A mark adds to its own count, and hides that a name follows it. -/
theorem counts_mark {mark : Char} (hmark : isNameChar mark = false) (h : IsName name) :
    counts (mark :: name) =
      (if mark = '#' then 1 else 0, if isClassMark mark then 1 else 0, 0) := by
  have hname := h.counts_eq
  simp only [counts, Prod.mk.injEq] at hname
  have hfront : startsWithType (mark :: name) = false := hmark
  simp only [counts, List.count_cons, List.countP_cons, hname.1, hname.2.1, hfront, zero_add,
    beq_iff_eq, Bool.false_eq_true, if_false]

theorem Marked.specificity_eq (h : Marked m t) :
    startsWithType m = false ∧ t.specificity = .ofCounts (counts m) := by
  cases h with
  | id hn =>
    rw [counts_mark (by decide) hn]
    exact ⟨rfl, rfl⟩
  | «class» hn =>
    rw [counts_mark (by decide) hn]
    exact ⟨rfl, rfl⟩
  | pseudo hn =>
    rw [counts_mark (by decide) hn]
    exact ⟨rfl, rfl⟩

theorem Marked.ne_nil (h : Marked m t) : m ≠ [] := by
  cases h <;> exact List.cons_ne_nil _ _

/-- Marks start with no type, and each adds its own test. -/
theorem Marks.specificity_eq (h : Marks ms ts) :
    startsWithType ms = false ∧ (ts.map specificity).sum = .ofCounts (counts ms) := by
  induction h with
  | nil => exact ⟨rfl, rfl⟩
  | @cons m ms t ts hm hms ih =>
    obtain ⟨hfront, ht⟩ := hm.specificity_eq
    obtain ⟨hrest, hts⟩ := ih
    refine ⟨(startsWithType_append hm.ne_nil ms).trans hfront, ?_⟩
    rw [List.map_cons, List.sum_cons, ht, hts, counts_append hm.ne_nil hrest, map_add]

theorem Tests.specificity_eq (h : Tests cs ts) :
    (ts.map specificity).sum = .ofCounts (counts cs) := by
  cases h with
  | bare hms => exact hms.specificity_eq.2
  | @star ms ts hms =>
    obtain ⟨hfront, hts⟩ := hms.specificity_eq
    have hcounts : counts ('*' :: ms) = counts ['*'] + counts ms :=
      counts_append (List.cons_ne_nil '*' []) hfront
    rw [List.map_cons, List.sum_cons, hts, hcounts, map_add]
    rfl
  | type hn hms =>
    obtain ⟨hfront, hts⟩ := hms.specificity_eq
    rw [List.map_cons, List.sum_cons, hts, counts_append hn.1 hfront, hn.counts_eq, map_add]
    rfl

theorem Compound.specificity_eq (h : Compound w t) : t.specificity = .ofCounts (counts w) := by
  cases h with
  | single h =>
    have ht := h.specificity_eq
    rwa [List.map_singleton, List.sum_singleton] at ht
  | several h _ => rw [specificity, specificities_eq, Specificity.sum_eq, h.specificity_eq]

/-! ### The rank of a selector -/

/-- The tests of a text: those of its compounds together. -/
def tally (cs : List Char) : ℕ × ℕ × ℕ := ((compounds cs).map counts).sum

/-- Parts with something between them are counted each on its own. -/
theorem tally_append (hne : sep ≠ []) (h : ∀ c ∈ sep, isBreak c = true) (as cs : List Char) :
    tally (as ++ sep ++ cs) = tally as + tally cs := by
  rw [tally, compounds_append hne h, List.map_append, List.sum_append]
  rfl

/-- Each kind of test is summed up on its own. -/
theorem sum_map_counts (ws : List (List Char)) : (ws.map counts).sum =
    ((ws.map (List.count '#')).sum, (ws.map (List.countP isClassMark)).sum,
      ws.countP startsWithType) := by
  induction ws with
  | nil => rfl
  | cons w ws ih =>
    simp only [List.map_cons, List.sum_cons, ih, counts, Prod.mk_add_mk, List.countP_cons,
      Nat.add_comm (if _ then _ else _)]

/-- The tests are counted without cutting the text, but for those on types. -/
theorem tally_eq (cs : List Char) :
    tally cs = (cs.count '#', cs.countP isClassMark, (compounds cs).countP startsWithType) := by
  have hids : ((compounds cs).map (List.count '#')).sum = cs.count '#' := by
    refine sum_countP_compounds (fun c hc => ?_) cs
    cases eq_of_beq hc
    decide
  have hclasses : ((compounds cs).map (List.countP isClassMark)).sum = cs.countP isClassMark := by
    refine sum_countP_compounds (fun c hc => ?_) cs
    rcases eq_of_isClassMark hc with rfl | rfl <;> decide
  rw [tally, sum_map_counts, hids, hclasses]

theorem Compound.specificity_eq_tally (h : Compound w t) :
    t.specificity = .ofCounts (tally w) := by
  rw [tally, h.compounds_eq, List.map_singleton, List.sum_singleton, h.specificity_eq]

theorem Chain.specificity_eq (h : Chain cs t) : t.specificity = .ofCounts (tally cs) := by
  induction h with
  | compound hc => exact hc.specificity_eq_tally
  -- the term has the last compound in front, the text has it at the end
  | within _ hs hc ih =>
    rw [specificity, hc.specificity_eq_tally, ih, tally_append hs.ne_nil hs.isBreak, map_add,
      add_comm]

theorem GroupText.specificity_eq (h : GroupText cs t) : t.specificity = .ofCounts (tally cs) := by
  obtain ⟨bs, cs, bs', hb, hchain, hb', rfl⟩ := h
  rw [hchain.specificity_eq, tally, tally, compounds_append_breaks hb'.isBreak,
    compounds_breaks_append hb.isBreak]

/-- **The rank is the sum over the compounds of the text.** -/
theorem Denotes.specificity_eq (h : Denotes cs t) : t.specificity = .ofCounts (tally cs) := by
  cases h with
  | one hg => exact hg.specificity_eq
  | several hgs hlen =>
    -- an induction on all groups, of which there may then be fewer than two
    clear hlen
    rw [specificity, specificities_eq, Specificity.sum_eq, tally, compounds_intercalate]
    induction hgs with
    | nil => rfl
    | cons hg _ ih =>
      rw [List.map_cons, List.sum_cons, hg.specificity_eq, ih, List.flatMap_cons, List.map_append,
        List.sum_append, map_add, tally]

/-! ### Groups as they are written -/

/-- A separator with the compound after it. -/
def Further (p : List Char × List Char) : Prop :=
  (∃ direct, Separator p.1 direct) ∧ ∃ t, Compound p.2 t

/-- The text of separators, each with the compound after it. -/
def further (rest : List (List Char × List Char)) : List Char := rest.flatMap fun p => p.1 ++ p.2

/-- A group as it is written: one or more compounds, a separator between neighbours, and blanks
around them all. -/
structure Group where
  /-- The blanks at the front. -/
  front : List Char
  /-- The first compound. -/
  first : List Char
  /-- The separators, each with the compound after it. -/
  rest : List (List Char × List Char)
  /-- The blanks at the end. -/
  back : List Char
  front_blanks : Blanks front
  back_blanks : Blanks back
  first_compound : ∃ t, Compound first t
  rest_further : ∀ p ∈ rest, Further p

namespace Group

/-- The text of the group. -/
def text (g : Group) : List Char := g.front ++ (g.first ++ further g.rest) ++ g.back

/-- The compounds of the group, from left to right. -/
def words (g : Group) : List (List Char) := g.first :: g.rest.map Prod.snd

end Group

/-- The text of a list of groups. -/
def written (gs : List Group) : List Char := [','].intercalate (gs.map Group.text)

/-- The same groups in another order, each with its compounds in another order. -/
def Reordering (gs gs' : List Group) : Prop :=
  ∃ hs, List.Forall₂ (fun g h : Group => g.words.Perm h.words) gs hs ∧ hs.Perm gs'

/-- Further compounds go on with a chain. -/
theorem Chain.extend {rest : List (List Char × List Char)} (ha : Chain as t)
    (hrest : ∀ p ∈ rest, Further p) : ∃ t', Chain (as ++ further rest) t' := by
  induction rest generalizing as t with
  | nil => exact ⟨t, by rwa [further, List.flatMap_nil, List.append_nil]⟩
  | cons p rest ih =>
    obtain ⟨⟨direct, hs⟩, base, hc⟩ := hrest p List.mem_cons_self
    -- the first further compound goes to the chain, and the others extend what it has become
    obtain ⟨t', ht'⟩ := ih (.within ha hs hc) fun q hq => hrest q (List.mem_cons_of_mem p hq)
    refine ⟨t', ?_⟩
    simpa only [further, List.flatMap_cons, List.append_assoc] using ht'

/-- What is written as a group is one. -/
theorem Group.groupText (g : Group) : ∃ t, GroupText g.text t := by
  obtain ⟨first, hfirst⟩ := g.first_compound
  obtain ⟨t, ht⟩ := (Chain.compound hfirst).extend g.rest_further
  exact ⟨t, _, _, _, g.front_blanks, ht, g.back_blanks, rfl⟩

/-- A chain is a first compound and further ones. -/
theorem Chain.exists_rest (h : Chain cs t) : ∃ first rest,
    (∃ t, Compound first t) ∧ (∀ p ∈ rest, Further p) ∧ cs = first ++ further rest := by
  induction h with
  | @compound cs t hc =>
    refine ⟨cs, [], ⟨t, hc⟩, ?_, (List.append_nil cs).symm⟩
    intro p hp
    cases hp
  | @within as sep cs ancestor base direct _ hs hc ih =>
    obtain ⟨first, rest, hfirst, hrest, rfl⟩ := ih
    -- a chain grows at its end, so its last compound is the last of the further ones
    refine ⟨first, rest ++ [(sep, cs)], hfirst, ?_, ?_⟩
    · intro p hp
      rcases List.mem_append.mp hp with hp | hp
      · exact hrest p hp
      · cases List.mem_singleton.mp hp
        exact ⟨⟨direct, hs⟩, base, hc⟩
    · simp only [further, List.flatMap_append, List.flatMap_singleton, List.append_assoc]

/-- Every group is written as one. -/
theorem GroupText.exists_group (h : GroupText cs t) : ∃ g : Group, g.text = cs := by
  obtain ⟨bs, cs, bs', hb, hchain, hb', rfl⟩ := h
  obtain ⟨first, rest, hfirst, hrest, rfl⟩ := hchain.exists_rest
  exact ⟨⟨bs, first, rest, bs', hb, hb', hfirst, hrest⟩, rfl⟩

theorem exists_groups {texts : List (List Char)} (h : List.Forall₂ GroupText texts ts) :
    ∃ gs : List Group, gs.map Group.text = texts := by
  induction h with
  | nil => exact ⟨[], rfl⟩
  | cons hg _ ih =>
    obtain ⟨g, rfl⟩ := hg.exists_group
    obtain ⟨gs, rfl⟩ := ih
    exact ⟨g :: gs, rfl⟩

theorem forall₂_groupText (gs : List Group) :
    ∃ ts, List.Forall₂ GroupText (gs.map Group.text) ts := by
  induction gs with
  | nil => exact ⟨[], .nil⟩
  | cons g gs ih =>
    obtain ⟨t, ht⟩ := g.groupText
    obtain ⟨ts, hts⟩ := ih
    exact ⟨t :: ts, .cons ht hts⟩

/-- **The grammar derives what is written as a list of groups,** one or more. -/
theorem denotes_iff_written : (∃ t, Denotes cs t) ↔ ∃ gs, gs ≠ [] ∧ written gs = cs := by
  constructor
  · rintro ⟨t, ht⟩
    cases ht with
    | one hg =>
      obtain ⟨g, rfl⟩ := hg.exists_group
      exact ⟨[g], List.cons_ne_nil g [], List.intercalate_singleton⟩
    | several hgs hlen =>
      obtain ⟨gs, rfl⟩ := exists_groups hgs
      refine ⟨gs, ?_, rfl⟩
      rintro rfl
      cases hlen
  · rintro ⟨gs, hne, rfl⟩
    match gs, hne with
    | [g], _ =>
      obtain ⟨t, ht⟩ := g.groupText
      exact ⟨t, .one (by rwa [written, List.map_singleton, List.intercalate_singleton])⟩
    | g :: g' :: gs, _ =>
      obtain ⟨ts, hts⟩ := forall₂_groupText (g :: g' :: gs)
      exact ⟨.oneOf ts, .several hts (by simp)⟩

theorem compounds_append_further {rest : List (List Char × List Char)}
    (hrest : ∀ p ∈ rest, Further p) (as : List Char) :
    compounds (as ++ further rest) = compounds as ++ rest.map Prod.snd := by
  induction rest generalizing as with
  | nil => rw [further, List.flatMap_nil, List.append_nil, List.map_nil, List.append_nil]
  | cons p rest ih =>
    obtain ⟨⟨direct, hs⟩, t, ht⟩ := hrest p List.mem_cons_self
    have htext : as ++ further (p :: rest) = as ++ p.1 ++ p.2 ++ further rest := by
      simp only [further, List.flatMap_cons, List.append_assoc]
    rw [htext, ih fun q hq => hrest q (List.mem_cons_of_mem p hq),
      compounds_append hs.ne_nil hs.isBreak, ht.compounds_eq, List.append_assoc]
    rfl

/-- The compounds of a group are those that it is written with. -/
theorem Group.compounds_text (g : Group) : compounds g.text = g.words := by
  obtain ⟨t, ht⟩ := g.first_compound
  rw [text, compounds_append_breaks g.back_blanks.isBreak,
    compounds_breaks_append g.front_blanks.isBreak, compounds_append_further g.rest_further,
    ht.compounds_eq]
  rfl

theorem compounds_written (gs : List Group) : compounds (written gs) = gs.flatMap Group.words := by
  rw [written, compounds_intercalate, List.flatMap_map]
  exact List.flatMap_congr fun g _ => g.compounds_text

namespace Reordering

variable {gs gs' : List Group}

theorem ne_nil (h : Reordering gs gs') (hne : gs ≠ []) : gs' ≠ [] := by
  obtain ⟨hs, hwords, hperm⟩ := h
  rintro rfl
  cases hperm.eq_nil
  cases hwords
  exact hne rfl

/-- No compound gets lost. -/
theorem perm_words (h : Reordering gs gs') :
    (gs.flatMap Group.words).Perm (gs'.flatMap Group.words) := by
  obtain ⟨hs, hwords, hperm⟩ := h
  -- first the compounds change places within each group, then the groups do
  refine List.Perm.trans ?_ (hperm.flatMap_right Group.words)
  clear hperm
  induction hwords with
  | nil => exact .nil
  | cons hg _ ih => exact hg.append ih

theorem tally_eq (h : Reordering gs gs') : tally (written gs) = tally (written gs') := by
  rw [tally, tally, compounds_written, compounds_written]
  exact (h.perm_words.map counts).sum_eq

end Reordering

/-- **The rank of a selector is counted in its text.**  If a text is read as a selector, then
the selector's rank is the number of `#` in the text, the number of `.` and `:` together, and
the number of compounds with a type at the front, each up to 2³² − 1.  The text is written as
a list of groups, and after any reordering of the groups, and of the compounds in each, it is
still read, with the same rank. -/
theorem specificity_parse (text : String) (h : parse text ≠ .invalid) :
    (parse text).specificity.ids.toNat = min (text.toList.count '#') 0xFFFFFFFF ∧
    (parse text).specificity.classes.toNat =
      min (text.toList.countP fun c => c == '.' || c == ':') 0xFFFFFFFF ∧
    (parse text).specificity.types.toNat =
      min ((compounds text.toList).countP startsWithType) 0xFFFFFFFF ∧
    (∃ gs, text.toList = written gs) ∧
    ∀ gs gs', text.toList = written gs → Reordering gs gs' →
      parse (String.ofList (written gs')) ≠ .invalid ∧
        (parse (String.ofList (written gs'))).specificity = (parse text).specificity := by
  have hden := denotes_parse h
  have hrank : (parse text).specificity = .ofCounts (tally text.toList) := hden.specificity_eq
  have hcounts := congrArg Specificity.ofCounts (Selector.tally_eq text.toList)
  rw [← hrank] at hcounts
  refine ⟨?_, ?_, ?_, ?_, ?_⟩
  · rw [hcounts]
    exact Specificity.toNat_stop _
  · rw [hcounts]
    exact Specificity.toNat_stop _
  · rw [hcounts]
    exact Specificity.toNat_stop _
  · obtain ⟨gs, -, hgs⟩ := denotes_iff_written.mp ⟨_, hden⟩
    exact ⟨gs, hgs.symm⟩
  · intro gs gs' htext hre
    have hne : gs ≠ [] := by
      rintro rfl
      cases String.toList_inj.mp (htext.trans String.toList_empty.symm)
      exact h rfl
    -- the other text is written as groups too, so the grammar derives it
    obtain ⟨t, ht⟩ := denotes_iff_written.mpr ⟨gs', hre.ne_nil hne, rfl⟩
    have hparse : parse (String.ofList (written gs')) = t :=
      parse_of_denotes (by rwa [String.toList_ofList])
    rw [hparse, ht.specificity_eq, hrank, htext, hre.tally_eq]
    exact ⟨ht.ne_invalid, rfl⟩

/-- One id, three classes and pseudo-classes and two types, over two groups. -/
theorem specificity_parse_menu :
    (parse "Menu > #file.open:hover, Button .icon").specificity.ids.toNat = 1 ∧
    (parse "Menu > #file.open:hover, Button .icon").specificity.classes.toNat = 3 ∧
    (parse "Menu > #file.open:hover, Button .icon").specificity.types.toNat = 2 := by
  obtain ⟨hids, hclasses, htypes, -, -⟩ :=
    specificity_parse "Menu > #file.open:hover, Button .icon" (by decide +kernel)
  exact ⟨hids.trans (by decide +kernel), hclasses.trans (by decide +kernel),
    htypes.trans (by decide +kernel)⟩

end Selector
end Cascade
