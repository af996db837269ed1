import Cascade.Proofs.Selector.Lexicon
import Mathlib.Data.List.Induction
import Mathlib.Data.List.Basic

/-!
# Numbers stand for texts

An empty lexicon is asked for the selector of one text after the other.  It answers each
time with what the text means, and with a number that is that of the text: the numbers
count the different texts in the order of their first appearance.  A new text takes its
number from the size of the lexicon, which therefore has to hold every text once, and
nothing else.

## Main definitions

* `Lexicon.internAll` — texts read one after the other.
* `Lexicon.entry` — what texts make of one of them.
* `Lexicon.Records` — the lexicon holds the entries of the texts so far.
* `Lexicon.Identifies` — what is promised of texts, their answers and the lexicon after them.

## Main results

* `eraseDups_map_idxOf` — places among different elements come up in the order of counting.
* `Lexicon.Records.intern` — the step: one reading.
* `Lexicon.Records.internAll` — all readings.
* `Lexicon.identifies_internAll` — **numbers identify texts through every run.**
-/

namespace Cascade

/-! ### Places among different elements -/

section

variable {α : Type} [BEq α] [LawfulBEq α] {xs : List α} {x : α}

/-- The different elements keep their places, whatever follows. -/
theorem idxOf_eraseDups_append (hx : x ∈ xs) (ys : List α) :
    (xs ++ ys).eraseDups.idxOf x = xs.eraseDups.idxOf x := by
  rw [List.eraseDups_append, List.idxOf_append_of_mem (List.mem_eraseDups.2 hx)]

/-- A new element takes the place behind all others. -/
theorem idxOf_eraseDups_append_of_notMem (hx : x ∉ xs) :
    (xs ++ [x]).eraseDups.idxOf x = xs.eraseDups.length := by
  rw [eraseDups_append_of_notMem hx, List.idxOf_append_of_notMem (mt List.mem_eraseDups.1 hx),
    List.idxOf_cons_self, Nat.add_zero]

theorem idxOf_eraseDups_lt (hx : x ∈ xs) : xs.eraseDups.idxOf x < xs.eraseDups.length :=
  List.idxOf_lt_length_of_mem (List.mem_eraseDups.2 hx)

/-- Told by their places, the elements of a list come up in the order of counting. -/
theorem eraseDups_map_idxOf (xs : List α) :
    (xs.map xs.eraseDups.idxOf).eraseDups = List.range xs.eraseDups.length := by
  induction xs using List.reverseRecOn with
  | nil => rfl
  | append_singleton xs x ih =>
    have hkeep : xs.map (xs ++ [x]).eraseDups.idxOf = xs.map xs.eraseDups.idxOf :=
      List.map_congr_left fun y hy => idxOf_eraseDups_append hy [x]
    rw [List.map_append, List.map_singleton, hkeep]
    by_cases hx : x ∈ xs
    · rw [eraseDups_append_of_mem hx, eraseDups_append_of_mem (List.mem_map_of_mem hx), ih]
    · -- the place of a new element is the count of the others, which none of them has
      have hnew : xs.eraseDups.length ∉ xs.map xs.eraseDups.idxOf := by
        intro hmem
        obtain ⟨y, hy, he⟩ := List.mem_map.1 hmem
        exact Nat.ne_of_lt (idxOf_eraseDups_lt hy) he
      rw [idxOf_eraseDups_append_of_notMem hx, eraseDups_append_of_notMem hnew, ih,
        eraseDups_append_of_notMem hx, List.length_append, List.length_singleton, List.range_succ]

end

namespace Lexicon

variable {l : Lexicon} {texts : List String} {text : String}

/-- Reads texts one after the other, with the answers. -/
def internAll (l : Lexicon) : List String → List IndexedSelector × Lexicon
  | [] => ([], l)
  | text :: texts =>
    let (i, l) := l.intern text
    let (is, l) := l.internAll texts
    (i :: is, l)

/-- What stands for a text where `texts` have been read: the number tells how many different
texts came up before it. -/
def entry (texts : List String) (text : String) : IndexedSelector :=
  ⟨⟨UInt32.ofNat (texts.eraseDups.idxOf text)⟩, Selector.parse text⟩

/-- A text keeps its entry, whatever is read later. -/
theorem entry_append (ht : text ∈ texts) (more : List String) :
    entry (texts ++ more) text = entry texts text := by
  rw [entry, idxOf_eraseDups_append ht, entry]

/-- A new text has the next number. -/
theorem entry_append_of_notMem (ht : text ∉ texts) : entry (texts ++ [text]) text =
    ⟨⟨UInt32.ofNat texts.eraseDups.length⟩, Selector.parse text⟩ := by
  rw [entry, idxOf_eraseDups_append_of_notMem ht]

/-- The lexicon holds the entries of the texts that have been read, and has counted the readings. -/
structure Records (l : Lexicon) (texts : List String) : Prop where
  get? : ∀ text, l.entries.get? text = if text ∈ texts then some (entry texts text) else none
  size : l.size = texts.eraseDups.length
  misses : l.misses = texts.eraseDups.length
  calls : l.hits + l.misses = texts.length

theorem records_empty : ({} : Lexicon).Records [] where
  get? := fun _ => rfl
  size := rfl
  misses := rfl
  calls := rfl

theorem Records.get?_append {text' : String} (h : l.Records texts)
    (hmem : text' ∈ texts ++ [text] ↔ text' ∈ texts) : l.entries.get? text' =
      if text' ∈ texts ++ [text] then some (entry (texts ++ [text]) text') else none := by
  rw [h.get? text']
  simp only [hmem]
  split
  · next ht => rw [entry_append ht]
  · rfl

/-- A text that was read before is looked up. -/
theorem Records.intern_of_mem (h : l.Records texts) (ht : text ∈ texts) :
    (l.intern text).1 = entry (texts ++ [text]) text ∧
      (l.intern text).2.Records (texts ++ [text]) := by
  have hget := h.get? text
  rw [if_pos ht] at hget
  have hin : l.intern text = (entry texts text, { l with hits := l.hits + 1 }) := by
    rw [Lexicon.intern, hget]
  rw [hin]
  refine ⟨(entry_append ht [text]).symm, ⟨fun text' => ?_, ?_, ?_, ?_⟩⟩
  · refine h.get?_append ?_
    rw [List.mem_append, List.mem_singleton]
    exact or_iff_left_of_imp fun he => he ▸ ht
  · rw [eraseDups_append_of_mem ht]
    exact h.size
  · rw [eraseDups_append_of_mem ht]
    exact h.misses
  · have hcalls := h.calls
    rw [List.length_append, List.length_singleton]
    show l.hits + 1 + l.misses = texts.length + 1
    omega

/-- A new text is read, and gets the next number. -/
theorem Records.intern_of_notMem (h : l.Records texts) (ht : text ∉ texts) :
    (l.intern text).1 = entry (texts ++ [text]) text ∧
      (l.intern text).2.Records (texts ++ [text]) := by
  have hget := h.get? text
  rw [if_neg ht] at hget
  have hin : l.intern text = (entry (texts ++ [text]) text,
      { l with
        entries := l.entries.insert text (entry (texts ++ [text]) text)
        misses := l.misses + 1 }) := by
    rw [Lexicon.intern, hget, entry_append_of_notMem ht, ← h.size]
  have hlength : (texts ++ [text]).eraseDups.length = texts.eraseDups.length + 1 := by
    rw [eraseDups_append_of_notMem ht, List.length_append, List.length_singleton]
  rw [hin]
  refine ⟨rfl, ⟨fun text' => ?_, ?_, ?_, ?_⟩⟩
  · rw [Table.get?_insert]
    by_cases he : text = text'
    · rw [if_pos he, ← he, if_pos (List.mem_append_right _ (List.mem_singleton_self _))]
    · rw [if_neg he]
      refine h.get?_append ?_
      rw [List.mem_append, List.mem_singleton]
      exact or_iff_left (Ne.symm he)
  · rw [hlength, ← h.size]
    exact Table.size_insert_of_get? hget _
  · rw [hlength, ← h.misses]
  · have hcalls := h.calls
    rw [List.length_append, List.length_singleton]
    show l.hits + (l.misses + 1) = texts.length + 1
    omega

/-- **One reading** answers with the entry of the text, and records it. -/
theorem Records.intern (h : l.Records texts) (text : String) :
    (l.intern text).1 = entry (texts ++ [text]) text ∧
      (l.intern text).2.Records (texts ++ [text]) := by
  by_cases ht : text ∈ texts
  · exact h.intern_of_mem ht
  · exact h.intern_of_notMem ht

/-- **All readings** answer with the entries of their texts. -/
theorem Records.internAll (h : l.Records texts) (more : List String) :
    (l.internAll more).1 = more.map (entry (texts ++ more)) ∧
      (l.internAll more).2.Records (texts ++ more) := by
  induction more generalizing l texts with
  | nil => exact ⟨rfl, by rwa [List.append_nil]⟩
  | cons text more ih =>
    obtain ⟨hfirst, hrec⟩ := h.intern text
    obtain ⟨hrest, hrec⟩ := ih hrec
    rw [List.append_assoc, List.singleton_append] at hrest hrec
    refine ⟨?_, hrec⟩
    have htext : text ∈ texts ++ [text] := List.mem_append_right _ (List.mem_singleton_self _)
    have hkeep := entry_append htext more
    rw [List.append_assoc, List.singleton_append] at hkeep
    rw [List.map_cons, hkeep, ← hfirst, ← hrest]
    rfl

/-! ### Every run -/

/-- What is promised of texts, the answers to them, and the lexicon after them. -/
structure Identifies (texts : List String) (answers : List IndexedSelector) (l : Lexicon) :
    Prop where
  /-- Each answer is what its text means. -/
  selectors : answers.map (·.selector) = texts.map Selector.parse
  /-- Two answers have the same number if their texts are the same, and only then. -/
  id_eq_iff : ∀ x ∈ texts.zip answers, ∀ y ∈ texts.zip answers, x.2.id = y.2.id ↔ x.1 = y.1
  /-- The numbers appear in the order of counting. -/
  numbers : (answers.map (·.id.number.toNat)).eraseDups = List.range texts.eraseDups.length
  /-- The lexicon has the size of the different texts. -/
  size : l.size = texts.eraseDups.length
  /-- Each of the different texts was read once. -/
  misses : l.misses = texts.eraseDups.length
  /-- All answers were counted. -/
  calls : l.hits + l.misses = texts.length

/-- The number of a text is its place among the different ones, as long as that fits. -/
theorem toNat_entry (hn : texts.eraseDups.length < 2 ^ 32) (ht : text ∈ texts) :
    (entry texts text).id.number.toNat = texts.eraseDups.idxOf text :=
  UInt32.toNat_ofNat_of_lt' (Nat.lt_trans (idxOf_eraseDups_lt ht) hn)

theorem entry_id_eq_iff {text' : String} (hn : texts.eraseDups.length < 2 ^ 32)
    (ht : text ∈ texts) (ht' : text' ∈ texts) :
    (entry texts text).id = (entry texts text').id ↔ text = text' := by
  refine ⟨fun he => ?_, fun he => he ▸ rfl⟩
  have hnum : (entry texts text).id.number.toNat = (entry texts text').id.number.toNat := by rw [he]
  rw [toNat_entry hn ht, toNat_entry hn ht'] at hnum
  exact (List.idxOf_inj (List.mem_eraseDups.2 ht)).1 hnum

/-- **Numbers identify texts through every run** over texts of which fewer than 2³² are
different. -/
theorem identifies_internAll (texts : List String) (hn : texts.eraseDups.length < 2 ^ 32) :
    Identifies texts (({} : Lexicon).internAll texts).1 (({} : Lexicon).internAll texts).2 := by
  obtain ⟨hanswers, hrec⟩ := records_empty.internAll texts
  rw [List.nil_append] at hanswers hrec
  rw [hanswers]
  refine ⟨?_, ?_, ?_, hrec.size, hrec.misses, hrec.calls⟩
  · rw [List.map_map]
    rfl
  · rw [← List.map_prod_left_eq_zip]
    intro x hx y hy
    obtain ⟨text, ht, rfl⟩ := List.mem_map.1 hx
    obtain ⟨text', ht', rfl⟩ := List.mem_map.1 hy
    exact entry_id_eq_iff hn ht ht'
  · rw [List.map_map, ← eraseDups_map_idxOf]
    exact congrArg _ (List.map_congr_left fun text ht => toNat_entry hn ht)

/-- Texts of which some come again, one of them in other words and two malformed. -/
def repeatedTexts : List String := ["Button", ".a", "Button", ">", ".a, .a", "", ".a"]

theorem identifies_repeatedTexts :
    repeatedTexts.eraseDups.length < 2 ^ 32 ∧
    (({} : Lexicon).internAll repeatedTexts).1.map (·.id.number) = [0, 1, 0, 2, 3, 4, 1] ∧
    Identifies repeatedTexts (({} : Lexicon).internAll repeatedTexts).1
      (({} : Lexicon).internAll repeatedTexts).2 :=
  ⟨by decide, by decide, identifies_internAll repeatedTexts (by decide)⟩

end Lexicon
end Cascade
