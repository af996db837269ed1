import Cascade.Proofs.Json.Numerals
import Cascade.Proofs.Json.Texts
import Mathlib.Data.Fintype.Basic
import Mathlib.Tactic.FinCases

/-!
# Values written are values read

In either layout a written value is read back, whatever follows it, as long as what follows cannot
belong to a number.  The reader counts its nested calls.  A value needs two of them at most for
each character it is written with, so the count it starts with is enough.

## Main definitions

* `Json.Legible` — every text in a value has characters, and no number has superfluous zeros.
* `Json.itemsText`, `Json.membersText` — what stands between brackets.

## Main results

* `Json.value?_write` — a value is read back, whatever follows.
* `Json.parse?_render` — **the text of a value is read as the value.**
-/

namespace Cascade
namespace Json

variable {l : Layout} {d n : Nat} {bs cs rest : List Char}

/-! ### Blanks -/

theorem skipBlanks_append (hb : ∀ c ∈ bs, isBlank c = true) :
    skipBlanks (bs ++ cs) = skipBlanks cs := List.dropWhile_append_of_pos hb

theorem skipBlanks_cons {c : Char} (hc : isBlank c = false) : skipBlanks (c :: cs) = c :: cs :=
  List.dropWhile_cons_of_neg (Bool.eq_false_iff.1 hc)

theorem isBlank_of_mem_lineBreak (l : Layout) (d : Nat) :
    ∀ c ∈ l.lineBreak d, isBlank c = true := by
  cases l with
  | compact => exact nofun
  | indented =>
    intro c hc
    rcases List.mem_cons.1 hc with rfl | hc
    · rfl
    · rw [List.eq_of_mem_replicate hc]
      rfl

/-- Blanks may follow a number. -/
theorem endsNumber_append (hb : ∀ c ∈ bs, isBlank c = true) (hr : EndsNumber rest) :
    EndsNumber (bs ++ rest) := by
  cases bs with
  | nil => exact hr
  | cons c bs =>
    have hc : isBlank c = true := hb c List.mem_cons_self
    simp only [isBlank, Bool.or_eq_true, beq_iff_eq] at hc
    rcases hc with ((rfl | rfl) | rfl) | rfl <;> exact endsNumber_cons (by decide)

/-- Blanks in front of a value are passed over. -/
theorem value?_append (hb : ∀ c ∈ bs, isBlank c = true) (n : Nat) (cs : List Char) :
    value? n (bs ++ cs) = value? n cs := by
  cases n with
  | zero => rfl
  | succ n => rw [value?, value?, skipBlanks_append hb]

theorem items?_append (hb : ∀ c ∈ bs, isBlank c = true) (n : Nat) (cs : List Char) :
    items? n (bs ++ cs) = items? n cs := by
  cases n with
  | zero => rfl
  | succ n => rw [items?, items?, value?_append hb]

theorem members?_append (hb : ∀ c ∈ bs, isBlank c = true) (n : Nat) (cs : List Char) :
    members? n (bs ++ cs) = members? n cs := by
  cases n with
  | zero => rfl
  | succ n => rw [members?, members?, skipBlanks_append hb]

/-! ### What is written -/

/-- Every text in the value has characters, and no number has superfluous zeros in front. -/
inductive Legible : Json → Prop where
  | null : Legible .null
  | bool (b : Bool) : Legible (.bool b)
  | number {n : Numeral} (whole : Numeral.IsWhole n.whole) : Legible (.number n)
  | string (s : String) : Legible (.string (some s))
  | array {xs : List Json} (items : ∀ x ∈ xs, Legible x) : Legible (.array xs)
  | object {ms : List (Option String × Json)} (names : ∀ m ∈ ms, m.1.isSome = true)
      (values : ∀ m ∈ ms, Legible m.2) : Legible (.object ms)

/-- The items of an array, up to its last one. -/
def itemsText (l : Layout) (d : Nat) : List Json → List Char
  | [] => []
  | x :: xs => write l d x ++ writeItems l d xs

/-- The members of an object, up to its last one. -/
def membersText (l : Layout) (d : Nat) : List (Option String × Json) → List Char
  | [] => []
  | m :: ms => writeMember l d m ++ writeMembers l d ms

theorem exists_text_eq_cons {n : Numeral} (hn : Numeral.IsWhole n.whole) :
    ∃ c cs, n.text = c :: cs ∧ (c = '-' ∨ ∃ d : Digit, c = d.char) := by
  obtain ⟨d, ds, hds⟩ := List.exists_cons_of_ne_nil hn.ne_nil
  unfold Numeral.text
  rw [hds]
  split
  · exact ⟨_, _, rfl, .inl rfl⟩
  · exact ⟨_, _, rfl, .inr ⟨d, rfl⟩⟩

theorem value?_of_number {c : Char} (hc : c = '-' ∨ ∃ d : Digit, c = d.char) (n : Nat)
    (cs : List Char) :
    value? (n + 1) (c :: cs) = (numeral? (c :: cs)).map fun (x, rest) => (.number x, rest) := by
  rcases hc with rfl | ⟨d, rfl⟩
  · rfl
  · fin_cases d <;> rfl

/-- What is written for a value starts with neither a blank nor a closing bracket. -/
theorem exists_write_eq_cons {j : Json} (hj : j.Legible) (l : Layout) (d : Nat) :
    ∃ c cs, write l d j = c :: cs ∧ isBlank c = false ∧ c ≠ ']' := by
  cases hj with
  | null => exact ⟨_, _, rfl, rfl, by decide⟩
  | bool b => cases b <;> exact ⟨_, _, rfl, rfl, by decide⟩
  | string s => exact ⟨_, _, rfl, rfl, by decide⟩
  | @array xs _ => cases xs <;> exact ⟨_, _, rfl, rfl, by decide⟩
  | @object ms _ _ => cases ms <;> exact ⟨_, _, rfl, rfl, by decide⟩
  | number hn =>
    obtain ⟨c, cs, heq, hc⟩ := exists_text_eq_cons hn
    refine ⟨c, cs, heq, ?_⟩
    rcases hc with rfl | ⟨d, rfl⟩
    · decide
    · have hdigit : ∀ d : Digit, isBlank d.char = false ∧ d.char ≠ ']' := by decide
      exact hdigit d

theorem length_write_pos {j : Json} (hj : j.Legible) (l : Layout) (d : Nat) :
    0 < (write l d j).length := by
  obtain ⟨c, cs, heq, -, -⟩ := exists_write_eq_cons hj l d
  rw [heq]
  exact Nat.succ_pos _

/-! ### One step -/

/-- After an opening bracket that is not closed at once, items are read. -/
theorem value?_array (hb : ∀ c ∈ bs, isBlank c = true) {c : Char} (hc : isBlank c = false)
    (hne : c ≠ ']') (n : Nat) (cs : List Char) :
    value? (n + 1) ('[' :: (bs ++ c :: cs)) =
      (items? n (c :: cs)).map fun (xs, rest) => (Json.array xs, rest) := by
  have hopen : isBlank '[' = false := rfl
  simp only [value?, skipBlanks_cons hopen, skipBlanks_append hb, skipBlanks_cons hc]
  split
  · next heq => exact absurd (List.cons.inj heq).1 hne
  · rfl

/-- After an opening brace and the quote of a name, members are read. -/
theorem value?_object (hb : ∀ c ∈ bs, isBlank c = true) (n : Nat) (cs : List Char) :
    value? (n + 1) ('\x7b' :: (bs ++ '"' :: cs)) =
      (members? n ('"' :: cs)).map fun (ms, rest) => (Json.object ms, rest) := by
  have hopen : isBlank '\x7b' = false := rfl
  simp only [value?, skipBlanks_cons hopen, skipBlanks_append hb]
  rfl

/-- A member is read by reading its value. -/
theorem members?_writeMember (l : Layout) (d n : Nat) (s : String) (x : Json) (cs : List Char) :
    members? (n + 1) (writeMember l d (some s, x) ++ cs) =
      (value? n (write l d x ++ cs)).bind fun (x, rest) =>
        match skipBlanks rest with
        | ',' :: rest => (members? n rest).map fun (ms, rest) => ((some s, x) :: ms, rest)
        | '\x7d' :: rest => some ([(some s, x)], rest)
        | _ => none := by
  obtain ⟨bs, hcolon, hb⟩ : ∃ bs, l.colon = ':' :: bs ∧ ∀ c ∈ bs, isBlank c = true := by
    cases l with
    | compact => exact ⟨[], rfl, nofun⟩
    | indented =>
      refine ⟨[' '], rfl, fun c hc => ?_⟩
      rw [List.mem_singleton.1 hc]
      rfl
  have htext : writeMember l d (some s, x) ++ cs =
      '"' :: (s.toList.flatMap escape ++ '"' :: ':' :: (bs ++ (write l d x ++ cs))) := by
    simp [writeMember, quote, hcolon]
  rw [htext]
  show ((text? _).bind _) = _
  rw [text?_escape, Option.bind_some]
  exact congrArg (Option.bind · _) (value?_append hb n _)

/-! ### Reading -/

/-- With `n` nested calls everything is read back that is short enough for them. -/
structure Reads (n : Nat) : Prop where
  value {j : Json} (hj : j.Legible) (l : Layout) (d : Nat) (hn : 2 * (write l d j).length ≤ n)
    {rest : List Char} (hr : EndsNumber rest) : value? n (write l d j ++ rest) = some (j, rest)
  items {xs : List Json} (hne : xs ≠ []) (hxs : ∀ x ∈ xs, Legible x) (l : Layout) (d : Nat)
    (hn : 2 * (itemsText l d xs).length < n) {bs : List Char} (hb : ∀ c ∈ bs, isBlank c = true)
    (rest : List Char) :
    items? n (itemsText l d xs ++ (bs ++ ']' :: rest)) = some (xs, rest)
  members {ms : List (Option String × Json)} (hne : ms ≠ []) (hnames : ∀ m ∈ ms, m.1.isSome = true)
    (hvalues : ∀ m ∈ ms, Legible m.2) (l : Layout) (d : Nat)
    (hn : 2 * (membersText l d ms).length < n) {bs : List Char} (hb : ∀ c ∈ bs, isBlank c = true)
    (rest : List Char) :
    members? n (membersText l d ms ++ (bs ++ '\x7d' :: rest)) = some (ms, rest)

theorem reads_zero : Reads 0 where
  value hj l d hn _ _ := by
    have hpos := length_write_pos hj l d
    omega
  items _ _ _ _ hn := absurd hn (Nat.not_lt_zero _)
  members _ _ _ _ _ hn := absurd hn (Nat.not_lt_zero _)

namespace Reads

theorem value_succ (hread : Reads n) {j : Json} (hj : j.Legible) (l : Layout) (d : Nat)
    (hn : 2 * (write l d j).length ≤ n + 1) (hr : EndsNumber rest) :
    value? (n + 1) (write l d j ++ rest) = some (j, rest) := by
  have hb := isBlank_of_mem_lineBreak l
  cases hj with
  | null => rfl
  | bool b => cases b <;> rfl
  | @number x hx =>
    obtain ⟨c, cs, heq, hc⟩ := exists_text_eq_cons hx
    show value? (n + 1) (x.text ++ rest) = _
    rw [heq, List.cons_append, value?_of_number hc, ← List.cons_append, ← heq,
      numeral?_text hx hr, Option.map_some]
  | string s =>
    show (text? ((s.toList.flatMap escape ++ ['"']) ++ rest)).map _ = _
    rw [List.append_assoc, List.singleton_append, text?_escape, Option.map_some]
  | @array xs hxs =>
    cases xs with
    | nil => rfl
    | cons x xs =>
      obtain ⟨c, cs, heq, hc, hne⟩ := exists_write_eq_cons (hxs x List.mem_cons_self) l (d + 1)
      have htext : write l d (.array (x :: xs)) ++ rest =
          '[' :: (l.lineBreak (d + 1) ++ (itemsText l (d + 1) (x :: xs) ++
            (l.lineBreak d ++ ']' :: rest))) := by simp [write, itemsText]
      have hlength : 2 * (itemsText l (d + 1) (x :: xs)).length < n := by
        simp only [write, itemsText, List.length_cons, List.length_append] at hn ⊢
        omega
      have hitems := hread.items (List.cons_ne_nil x xs) hxs l (d + 1) hlength (hb d) rest
      have hhead : itemsText l (d + 1) (x :: xs) = c :: (cs ++ writeItems l (d + 1) xs) := by
        rw [itemsText, heq, List.cons_append]
      rw [htext]
      rw [hhead, List.cons_append] at hitems ⊢
      rw [value?_array (hb (d + 1)) hc hne, hitems, Option.map_some]
  | @object ms hnames hvalues =>
    cases ms with
    | nil => rfl
    | cons m ms =>
      have htext : write l d (.object (m :: ms)) ++ rest =
          '\x7b' :: (l.lineBreak (d + 1) ++ (membersText l (d + 1) (m :: ms) ++
            (l.lineBreak d ++ '\x7d' :: rest))) := by simp [write, membersText]
      have hlength : 2 * (membersText l (d + 1) (m :: ms)).length < n := by
        simp only [write, membersText, List.length_cons, List.length_append] at hn ⊢
        omega
      have hmembers :=
        hread.members (List.cons_ne_nil m ms) hnames hvalues l (d + 1) hlength (hb d) rest
      obtain ⟨cs, hhead⟩ : ∃ cs, membersText l (d + 1) (m :: ms) = '"' :: cs := by
        obtain ⟨name, x⟩ := m
        exact ⟨_, rfl⟩
      rw [htext]
      rw [hhead, List.cons_append] at hmembers ⊢
      rw [value?_object (hb (d + 1)), hmembers, Option.map_some]

theorem items_succ (hread : Reads n) {xs : List Json} (hne : xs ≠ []) (hxs : ∀ x ∈ xs, Legible x)
    (l : Layout) (d : Nat) (hn : 2 * (itemsText l d xs).length < n + 1)
    (hb : ∀ c ∈ bs, isBlank c = true) (rest : List Char) :
    items? (n + 1) (itemsText l d xs ++ (bs ++ ']' :: rest)) = some (xs, rest) := by
  cases xs with
  | nil => exact absurd rfl hne
  | cons x xs =>
    have hx : Legible x := hxs x List.mem_cons_self
    have hlength : 2 * (write l d x).length ≤ n := by
      rw [itemsText, List.length_append] at hn
      omega
    rw [itemsText, List.append_assoc, items?]
    cases xs with
    | nil =>
      -- the last item is followed by the closing bracket
      have hr : EndsNumber (bs ++ ']' :: rest) := endsNumber_append hb (endsNumber_cons (by decide))
      rw [writeItems, List.nil_append, hread.value hx l d hlength hr, Option.bind_some]
      dsimp only
      rw [skipBlanks_append hb]
      rfl
    | cons y ys =>
      have htext : writeItems l d (y :: ys) ++ (bs ++ ']' :: rest) =
          ',' :: (l.lineBreak d ++ (itemsText l d (y :: ys) ++ (bs ++ ']' :: rest))) := by
        simp [writeItems, itemsText]
      have hshort : 2 * (itemsText l d (y :: ys)).length < n := by
        simp only [itemsText, writeItems, List.length_cons, List.length_append] at hn ⊢
        omega
      have hys : ∀ z ∈ y :: ys, Legible z := fun z hz => hxs z (List.mem_cons_of_mem x hz)
      rw [htext, hread.value hx l d hlength (endsNumber_cons (by decide)), Option.bind_some]
      show (items? n _).map _ = _
      rw [items?_append (isBlank_of_mem_lineBreak l d),
        hread.items (List.cons_ne_nil y ys) hys l d hshort hb rest]
      rfl

theorem members_succ (hread : Reads n) {ms : List (Option String × Json)} (hne : ms ≠ [])
    (hnames : ∀ m ∈ ms, m.1.isSome = true) (hvalues : ∀ m ∈ ms, Legible m.2) (l : Layout) (d : Nat)
    (hn : 2 * (membersText l d ms).length < n + 1) (hb : ∀ c ∈ bs, isBlank c = true)
    (rest : List Char) :
    members? (n + 1) (membersText l d ms ++ (bs ++ '\x7d' :: rest)) = some (ms, rest) := by
  cases ms with
  | nil => exact absurd rfl hne
  | cons m ms =>
    obtain ⟨name, x⟩ := m
    obtain ⟨s, rfl⟩ := Option.isSome_iff_exists.1 (hnames _ List.mem_cons_self)
    have hx : Legible x := hvalues _ List.mem_cons_self
    have hlength : 2 * (write l d x).length ≤ n := by
      simp only [membersText, writeMember, List.length_append] at hn
      omega
    rw [membersText, List.append_assoc, members?_writeMember]
    cases ms with
    | nil =>
      -- the last member is followed by the closing brace
      have hr : EndsNumber (bs ++ '\x7d' :: rest) :=
        endsNumber_append hb (endsNumber_cons (by decide))
      rw [writeMembers, List.nil_append, hread.value hx l d hlength hr, Option.bind_some]
      dsimp only
      rw [skipBlanks_append hb]
      rfl
    | cons m ms =>
      have htext : writeMembers l d (m :: ms) ++ (bs ++ '\x7d' :: rest) =
          ',' :: (l.lineBreak d ++ (membersText l d (m :: ms) ++ (bs ++ '\x7d' :: rest))) := by
        simp [writeMembers, membersText]
      have hshort : 2 * (membersText l d (m :: ms)).length < n := by
        simp only [membersText, writeMembers, List.length_cons, List.length_append] at hn ⊢
        omega
      rw [htext, hread.value hx l d hlength (endsNumber_cons (by decide)), Option.bind_some]
      show (members? n _).map _ = _
      rw [members?_append (isBlank_of_mem_lineBreak l d),
        hread.members (List.cons_ne_nil m ms) (fun m hm => hnames m (List.mem_cons_of_mem _ hm))
          (fun m hm => hvalues m (List.mem_cons_of_mem _ hm)) l d hshort hb rest]
      rfl

end Reads

/-- More nested calls read more. -/
theorem reads (n : Nat) : Reads n := by
  induction n with
  | zero => exact reads_zero
  | succ n ih =>
    exact ⟨fun hj l d hn _ hr => ih.value_succ hj l d hn hr,
      fun hne hxs l d hn _ hb rest => ih.items_succ hne hxs l d hn hb rest,
      fun hne hnames hvalues l d hn _ hb rest => ih.members_succ hne hnames hvalues l d hn hb rest⟩

/-- **The text of a value is read as the value.** -/
theorem parse?_render {j : Json} (hj : j.Legible) (l : Layout) : parse? (j.render l) = some j := by
  have hread := (reads (2 * (write l 0 j).length + 1)).value hj l 0 (Nat.le_succ _) endsNumber_nil
  unfold parse? render
  rw [List.append_nil] at hread
  simp only [String.toList_ofList, hread]
  rfl

end Json
end Cascade
