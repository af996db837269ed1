import Cascade.Selector.Parser
import Mathlib.Data.List.Forall2

/-!
# The grammar of selectors

What a well-formed selector text is, and which selector it stands for, told without a
scanner: a text is put together from parts, and its term from theirs.

    list      ::=  group (',' group)*
    group     ::=  blank* compound (separator compound)* blank*
    separator ::=  blank+  |  blank* '>' blank*
    compound  ::=  ('*' | name)? mark*          not empty
    mark      ::=  ('#' | '.' | ':') name
    name      ::=  (letter | digit | '_' | '-')+

## Main definitions

* `Selector.Compound`, `Selector.Chain`, `Selector.GroupText` — the parts of a list.
* `Selector.Denotes` — a text of the grammar with the selector it stands for.

## Main results

* `Selector.compound?_iff` — the compounds are what the reader of compounds accepts.
* `Selector.Compound.inner`, `Selector.Compound.ne_nil` — what a compound looks like from outside.
* `Selector.GroupText.comma_notMem` — a group has no comma in it.
-/

namespace Cascade
namespace Selector

/-! ### Characters -/

/-- The code points with the Unicode property `White_Space`. -/
def whiteSpace : List Nat :=
  [0x9, 0xA, 0xB, 0xC, 0xD, 0x20, 0x85, 0xA0, 0x1680,
    0x2000, 0x2001, 0x2002, 0x2003, 0x2004, 0x2005, 0x2006, 0x2007, 0x2008, 0x2009, 0x200A,
    0x2028, 0x2029, 0x202F, 0x205F, 0x3000]

/-- A text of white space. -/
def Blanks (cs : List Char) : Prop := ∀ c ∈ cs, c.toNat ∈ whiteSpace

/-- A character of `[A-Za-z0-9_-]`. -/
def NameLetter (c : Char) : Prop :=
  ('A' ≤ c ∧ c ≤ 'Z') ∨ ('a' ≤ c ∧ c ≤ 'z') ∨ ('0' ≤ c ∧ c ≤ '9') ∨ c = '_' ∨ c = '-'

/-- A name: one or more letters, digits, underscores and hyphens. -/
def IsName (name : List Char) : Prop := name ≠ [] ∧ ∀ c ∈ name, NameLetter c

theorem isBlank_iff (c : Char) : isBlank c = true ↔ c.toNat ∈ whiteSpace := by
  simp only [isBlank, whiteSpace, Bool.or_eq_true, Bool.and_eq_true, decide_eq_true_eq,
    beq_iff_eq, List.mem_cons, List.not_mem_nil, or_false]
  omega

theorem isNameChar_iff (c : Char) : isNameChar c = true ↔ NameLetter c := by
  delta isNameChar Char.isAlphanum Char.isAlpha Char.isUpper Char.isLower Char.isDigit
  simp only [NameLetter, Bool.or_eq_true, Bool.and_eq_true, decide_eq_true_eq, beq_iff_eq,
    ge_iff_le, Char.le_def]
  tauto

instance : DecidablePred NameLetter := fun c =>
  decidable_of_iff (isNameChar c = true) (isNameChar_iff c)

instance : DecidablePred IsName := fun name =>
  decidable_of_iff ((!name.isEmpty && name.all isNameChar) = true)
    (by simp [IsName, isNameChar_iff])

/-! ### Compounds -/

/-- A mark with its name, and the test on an element that it stands for. -/
inductive Marked : List Char → Selector → Prop where
  | id {name : List Char} (hn : IsName name) : Marked ('#' :: name) (.ofId (String.ofList name))
  | class {name : List Char} (hn : IsName name) :
    Marked ('.' :: name) (.ofClass (String.ofList name))
  | pseudo {name : List Char} (hn : IsName name) :
    Marked (':' :: name) (.ofPseudo (String.ofList name))

/-- Any number of marked names, one right after the other. -/
inductive Marks : List Char → List Selector → Prop where
  | nil : Marks [] []
  | cons {m ms : List Char} {t : Selector} {ts : List Selector} (hm : Marked m t)
    (hms : Marks ms ts) : Marks (m ++ ms) (t :: ts)

/-- What a compound may be written as, with its tests in order. -/
inductive Tests : List Char → List Selector → Prop where
  | bare {ms : List Char} {ts : List Selector} (hms : Marks ms ts) : Tests ms ts
  | star {ms : List Char} {ts : List Selector} (hms : Marks ms ts) :
    Tests ('*' :: ms) (.universal :: ts)
  | type {name ms : List Char} {ts : List Selector} (hn : IsName name) (hms : Marks ms ts) :
    Tests (name ++ ms) (.ofType (String.ofList name) :: ts)

/-- A compound: its single test, or the conjunction of its tests. -/
inductive Compound : List Char → Selector → Prop where
  | single {cs : List Char} {t : Selector} (h : Tests cs [t]) : Compound cs t
  | several {cs : List Char} {ts : List Selector} (h : Tests cs ts) (hlen : 2 ≤ ts.length) :
    Compound cs (.all ts)

/-! ### Groups and lists -/

/-- What stands between two neighbouring compounds, and whether it has the `>`. -/
inductive Separator : List Char → Bool → Prop where
  | gap {bs : List Char} (hne : bs ≠ []) (hb : Blanks bs) : Separator bs false
  | child {bs bs' : List Char} (hb : Blanks bs) (hb' : Blanks bs') :
    Separator (bs ++ '>' :: bs') true

/-- A sequence of compounds.  The last one is the base, all that precedes it the ancestor. -/
inductive Chain : List Char → Selector → Prop where
  | compound {cs : List Char} {t : Selector} (h : Compound cs t) : Chain cs t
  | within {as sep cs : List Char} {ancestor base : Selector} {direct : Bool}
    (ha : Chain as ancestor) (hs : Separator sep direct) (hc : Compound cs base) :
    Chain (as ++ sep ++ cs) (.within base ancestor direct)

/-- A group: a sequence of compounds with blanks around it. -/
def GroupText (text : List Char) (t : Selector) : Prop :=
  ∃ bs cs bs', Blanks bs ∧ Chain cs t ∧ Blanks bs' ∧ text = bs ++ cs ++ bs'

/-- A selector text, and the selector it stands for: the term of its one group, or the
alternatives of its several groups. -/
inductive Denotes : List Char → Selector → Prop where
  | one {g : List Char} {t : Selector} (h : GroupText g t) : Denotes g t
  | several {gs : List (List Char)} {ts : List Selector} (h : List.Forall₂ GroupText gs ts)
    (hlen : 2 ≤ gs.length) : Denotes ([','].intercalate gs) (.oneOf ts)

/-! ### Cutting a compound into its pieces -/

/-- The text that a cut came from. -/
def glue (pieces : List (Char × List Char)) : List Char := pieces.flatMap fun p => p.1 :: p.2

variable {cs name w : List Char} {t : Selector} {ts : List Selector}

/-- A name at the front goes to the lead of the cut. -/
theorem segments_append (hn : ∀ c ∈ name, NameLetter c) (cs : List Char) :
    segments (name ++ cs) = (name ++ (segments cs).1, (segments cs).2) := by
  induction name with
  | nil => rfl
  | cons c name ih =>
    have hc : isNameChar c = true := (isNameChar_iff c).mpr (hn c List.mem_cons_self)
    have ih := ih fun d hd => hn d (List.mem_cons_of_mem c hd)
    simp only [List.cons_append, segments, ih, if_pos hc]

/-- Any other character starts a piece. -/
theorem segments_cons {c : Char} (hc : ¬ NameLetter c) (cs : List Char) :
    segments (c :: cs) = ([], (c, (segments cs).1) :: (segments cs).2) := by
  have hc' : ¬ isNameChar c = true := fun h => hc ((isNameChar_iff c).mp h)
  simp only [segments, if_neg hc']

/-- The cut loses nothing, and its pieces are names after one character each. -/
theorem segments_spec (cs : List Char) :
    (segments cs).1 ++ glue (segments cs).2 = cs ∧ (∀ c ∈ (segments cs).1, NameLetter c) ∧
      ∀ p ∈ (segments cs).2, ∀ c ∈ p.2, NameLetter c := by
  induction cs with
  | nil =>
    refine ⟨rfl, ?_, ?_⟩
    · intro c hc
      cases hc
    · intro p hp
      cases hp
  | cons c cs ih =>
    obtain ⟨hglue, hlead, hpieces⟩ := ih
    -- a letter goes to the lead; before any other character the lead becomes the name of a piece
    by_cases hc : NameLetter c
    · have hname : ∀ d ∈ [c], NameLetter d := fun d hd => by rwa [List.mem_singleton.mp hd]
      have hcut := segments_append hname cs
      rw [List.singleton_append, List.singleton_append] at hcut
      rw [hcut]
      refine ⟨by rw [List.cons_append, hglue], ?_, hpieces⟩
      intro d hd
      rcases List.mem_cons.mp hd with rfl | hd
      · exact hc
      · exact hlead d hd
    · rw [segments_cons hc]
      refine ⟨?_, ?_, ?_⟩
      · show c :: (segments cs).1 ++ glue (segments cs).2 = c :: cs
        rw [List.cons_append, hglue]
      · intro d hd
        cases hd
      · intro p hp
        rcases List.mem_cons.mp hp with rfl | hp
        · exact hlead
        · exact hpieces p hp

/-- A piece is read as the mark it is. -/
theorem marked?_iff {p : Char × List Char} (hp : ∀ c ∈ p.2, NameLetter c) :
    marked? p = some t ↔ Marked (p.1 :: p.2) t := by
  obtain ⟨mark, name⟩ := p
  constructor
  · intro h
    cases name with
    | nil => cases h
    | cons c name =>
      have hn : IsName (c :: name) := ⟨List.cons_ne_nil c name, hp⟩
      unfold marked? at h
      split at h
      · cases h
      · next heq =>
        cases heq
        cases h
        exact .id hn
      · next heq =>
        cases heq
        cases h
        exact .class hn
      · next heq =>
        cases heq
        cases h
        exact .pseudo hn
      · cases h
  · intro h
    cases name with
    | nil =>
      cases h with
      | id hn => exact absurd rfl hn.1
      | «class» hn => exact absurd rfl hn.1
      | pseudo hn => exact absurd rfl hn.1
    | cons c name => cases h <;> rfl

/-- Pieces that are all read as marks are a text of marks. -/
theorem marks_of_mapM {pieces : List (Char × List Char)}
    (hp : ∀ p ∈ pieces, ∀ c ∈ p.2, NameLetter c) (h : pieces.mapM marked? = some ts) :
    Marks (glue pieces) ts := by
  induction pieces generalizing ts with
  | nil =>
    cases h
    exact .nil
  | cons p pieces ih =>
    rw [List.mapM_cons] at h
    obtain ⟨t, ht, h⟩ := Option.bind_eq_some_iff.mp h
    obtain ⟨ts, hts, h⟩ := Option.bind_eq_some_iff.mp h
    cases h
    have hmark := (marked?_iff (hp p List.mem_cons_self)).mp ht
    exact .cons hmark (ih (fun q hq => hp q (List.mem_cons_of_mem p hq)) hts)

/-- Conversely, a text of marks is cut into its marks. -/
theorem Marks.cut (h : Marks cs ts) :
    ∃ pieces, segments cs = ([], pieces) ∧ pieces.mapM marked? = some ts := by
  induction h with
  | nil => exact ⟨[], rfl, rfl⟩
  | @cons m ms t ts hm hms ih =>
    obtain ⟨pieces, hcut, hread⟩ := ih
    -- the mark belongs to no name, and its name ends where the next mark starts
    have hpiece : ∃ mark name, m = mark :: name ∧ ¬ NameLetter mark ∧ ∀ c ∈ name, NameLetter c := by
      cases hm with
      | id hn => exact ⟨_, _, rfl, by decide, hn.2⟩
      | «class» hn => exact ⟨_, _, rfl, by decide, hn.2⟩
      | pseudo hn => exact ⟨_, _, rfl, by decide, hn.2⟩
    obtain ⟨mark, name, rfl, hmark, hname⟩ := hpiece
    have hread' : marked? (mark, name) = some t := (marked?_iff hname).mpr hm
    refine ⟨(mark, name) :: pieces, ?_, ?_⟩
    · rw [List.cons_append, segments_cons hmark, segments_append hname, hcut, List.append_nil]
    · rw [List.mapM_cons, hread', hread]
      rfl

/-! ### Reading a compound -/

theorem tests_of_tests? (h : tests? cs = some ts) : Tests cs ts := by
  obtain ⟨hglue, hlead, hpieces⟩ := segments_spec cs
  unfold tests? at h
  split at h
  · next rest hcut =>
    rw [hcut] at hglue hpieces
    obtain ⟨ts, hread, rfl⟩ := Option.map_eq_some_iff.mp h
    have hms := marks_of_mapM (fun p hp => hpieces p (List.mem_cons_of_mem _ hp)) hread
    rw [← hglue]
    exact .star hms
  · next rest hcut =>
    rw [hcut] at hglue hpieces
    rw [← hglue]
    exact .bare (marks_of_mapM hpieces h)
  · next lead rest hne hcut =>
    rw [hcut] at hglue hlead hpieces
    obtain ⟨ts, hread, rfl⟩ := Option.map_eq_some_iff.mp h
    rw [← hglue]
    exact .type ⟨hne, hlead⟩ (marks_of_mapM hpieces hread)

theorem Tests.read (h : Tests cs ts) : tests? cs = some ts := by
  unfold tests?
  cases h with
  | bare hms =>
    obtain ⟨pieces, hcut, hread⟩ := hms.cut
    rw [hcut]
    split
    · next rest heq =>
      cases heq
      -- a star is no mark
      rw [List.mapM_cons] at hread
      cases hread
    · next heq =>
      cases heq
      exact hread
    · next hne heq =>
      cases heq
      exact absurd rfl hne
  | star hms =>
    obtain ⟨pieces, hcut, hread⟩ := hms.cut
    rw [segments_cons (by decide), hcut]
    exact Option.map_eq_some_iff.mpr ⟨_, hread, rfl⟩
  | @type name ms ts hn hms =>
    obtain ⟨pieces, hcut, hread⟩ := hms.cut
    rw [segments_append hn.2, hcut, List.append_nil]
    split
    · next heq =>
      cases heq
      exact absurd rfl hn.1
    · next heq =>
      cases heq
      exact absurd rfl hn.1
    · next heq =>
      cases heq
      exact Option.map_eq_some_iff.mpr ⟨_, hread, rfl⟩

theorem tests?_iff : tests? cs = some ts ↔ Tests cs ts := ⟨tests_of_tests?, Tests.read⟩

/-- **The reader of compounds accepts the compounds,** and gives each its term. -/
theorem compound?_iff : compound? cs = some t ↔ Compound cs t := by
  constructor
  · intro h
    obtain ⟨ts, hts, h⟩ := Option.bind_eq_some_iff.mp h
    have hts := tests?_iff.mp hts
    match ts, h with
    | [_], rfl => exact .single hts
    | _ :: _ :: ts, rfl => exact .several hts (Nat.le_add_left 2 ts.length)
  · intro h
    cases h with
    | single h => exact Option.bind_eq_some_iff.mpr ⟨_, tests?_iff.mpr h, rfl⟩
    | @several ts h hlen =>
      refine Option.bind_eq_some_iff.mpr ⟨ts, tests?_iff.mpr h, ?_⟩
      match ts, hlen with
      | _ :: _ :: _, _ => rfl

/-! ### The characters of a compound -/

/-- A character that ends no compound: no blank, no `>` and no comma. -/
def Inner (c : Char) : Prop := isBlank c = false ∧ c ≠ '>' ∧ c ≠ ','

instance (c : Char) : Decidable (Inner c) := inferInstanceAs (Decidable (_ ∧ _))

theorem NameLetter.inner {c : Char} (h : NameLetter c) : Inner c := by
  refine ⟨?_, ?_, ?_⟩
  · -- all letters are in ASCII, above its blanks and below the others
    have hbounds : 0x20 < c.toNat ∧ c.toNat < 0x80 := by
      simp only [NameLetter, Char.le_def, UInt32.le_iff_toNat_le] at h
      rcases h with h | h | h | rfl | rfl
      · change 65 ≤ c.toNat ∧ c.toNat ≤ 90 at h
        omega
      · change 97 ≤ c.toNat ∧ c.toNat ≤ 122 at h
        omega
      · change 48 ≤ c.toNat ∧ c.toNat ≤ 57 at h
        omega
      · decide
      · decide
    rw [Bool.eq_false_iff, Ne, isBlank_iff]
    intro hb
    simp only [whiteSpace, List.mem_cons, List.not_mem_nil, or_false] at hb
    omega
  · rintro rfl
    exact absurd h (by decide)
  · rintro rfl
    exact absurd h (by decide)

theorem Marked.inner (h : Marked cs t) : ∀ c ∈ cs, Inner c := by
  have hmark : ∀ {mark : Char} {name : List Char}, Inner mark → IsName name →
      ∀ c ∈ mark :: name, Inner c := by
    intro mark name hmark hn c hc
    rcases List.mem_cons.mp hc with rfl | hc
    · exact hmark
    · exact (hn.2 c hc).inner
  cases h with
  | id hn => exact hmark (by decide) hn
  | «class» hn => exact hmark (by decide) hn
  | pseudo hn => exact hmark (by decide) hn

theorem Marks.inner (h : Marks cs ts) : ∀ c ∈ cs, Inner c := by
  induction h with
  | nil =>
    intro c hc
    cases hc
  | cons hm _ ih =>
    intro c hc
    rcases List.mem_append.mp hc with hc | hc
    · exact hm.inner c hc
    · exact ih c hc

theorem Tests.inner (h : Tests cs ts) : ∀ c ∈ cs, Inner c := by
  intro c hc
  cases h with
  | bare hms => exact hms.inner c hc
  | star hms =>
    rcases List.mem_cons.mp hc with rfl | hc
    · decide
    · exact hms.inner c hc
  | type hn hms =>
    rcases List.mem_append.mp hc with hc | hc
    · exact (hn.2 c hc).inner
    · exact hms.inner c hc

/-- What has a test is not empty. -/
theorem Tests.ne_nil (h : Tests cs ts) (hts : ts ≠ []) : cs ≠ [] := by
  cases h with
  | bare hms =>
    cases hms with
    | nil => exact absurd rfl hts
    | cons hm _ => cases hm <;> exact List.cons_ne_nil _ _
  | star hms => exact List.cons_ne_nil _ _
  | type hn hms => exact List.append_ne_nil_of_left_ne_nil hn.1 _

/-- A compound is written with its tests, one at least. -/
theorem Compound.exists_tests (h : Compound cs t) : ∃ ts, Tests cs ts ∧ ts ≠ [] := by
  cases h with
  | single h => exact ⟨_, h, List.cons_ne_nil _ _⟩
  | several h hlen => exact ⟨_, h, List.ne_nil_of_length_pos (Nat.zero_lt_of_lt hlen)⟩

theorem Compound.inner (h : Compound cs t) : ∀ c ∈ cs, Inner c := by
  obtain ⟨ts, hts, -⟩ := h.exists_tests
  exact hts.inner

/-- A compound is not empty. -/
theorem Compound.ne_nil (h : Compound cs t) : cs ≠ [] := by
  obtain ⟨ts, hts, hne⟩ := h.exists_tests
  exact hts.ne_nil hne

/-! ### No commas in a group -/

theorem Blanks.comma_notMem {bs : List Char} (h : Blanks bs) : ',' ∉ bs :=
  fun hc => absurd (h ',' hc) (by decide)

theorem Separator.comma_notMem {direct : Bool} (h : Separator cs direct) : ',' ∉ cs := by
  cases h with
  | gap _ hb => exact hb.comma_notMem
  | child hb hb' =>
    intro hc
    rcases List.mem_append.mp hc with hc | hc
    · exact hb.comma_notMem hc
    · rcases List.mem_cons.mp hc with hc | hc
      · exact absurd hc (by decide)
      · exact hb'.comma_notMem hc

theorem Chain.comma_notMem (h : Chain cs t) : ',' ∉ cs := by
  induction h with
  | compound h => exact fun hc => (h.inner ',' hc).2.2 rfl
  | within _ hs h ih =>
    intro hc
    rcases List.mem_append.mp hc with hc | hc
    · rcases List.mem_append.mp hc with hc | hc
      · exact ih hc
      · exact hs.comma_notMem hc
    · exact (h.inner ',' hc).2.2 rfl

/-- There is no comma in a group, so commas part groups and nothing else. -/
theorem GroupText.comma_notMem (h : GroupText cs t) : ',' ∉ cs := by
  obtain ⟨bs, cs, bs', hb, hchain, hb', rfl⟩ := h
  intro hc
  rcases List.mem_append.mp hc with hc | hc
  · rcases List.mem_append.mp hc with hc | hc
    · exact hb.comma_notMem hc
    · exact hchain.comma_notMem hc
  · exact hb'.comma_notMem hc

end Selector
end Cascade
