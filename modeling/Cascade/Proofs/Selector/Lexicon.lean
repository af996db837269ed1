import Cascade.Selector.Lexicon
import Mathlib.Algebra.Ring.Nat

/-!
# The books of the lexicon

The numbers of selector texts identify them, as long as they fit: two texts in the
lexicon never have the same number, and nothing that is in the lexicon ever leaves it
or changes.

## Main definitions

* `Lexicon.Numbered` — the numbers are those of the texts so far, no two alike.
* `Lexicon.Knows` — a selector is in the lexicon.
* `Lexicon.Extends` — all that was known is known still.

## Main results

* `eraseDups_append_of_mem`, `eraseDups_append_of_notMem` — one more text among the different ones.
* `Lexicon.Numbered.intern`, `Lexicon.extends_intern`, `Lexicon.knows_intern` — one reading.
* `Lexicon.Numbered.eq_of_id_eq` — a number stands for one selector.
-/

namespace Cascade

/-- A new key makes a table longer by one. -/
theorem Table.length_put {κ β : Type} [DecidableEq κ] {es : List (κ × β)} {k : κ}
    (hk : Table.find es k = none) (v : β) : (Table.put es k v).length = es.length + 1 := by
  induction es with
  | nil => rfl
  | cons e es ih =>
    obtain ⟨k', v'⟩ := e
    have hne : ¬ k' = k := fun he => by simp [Table.find, he] at hk
    rw [Table.find, if_neg hne] at hk
    rw [Table.put, if_neg hne, List.length_cons, List.length_cons, ih hk]

theorem Table.size_insert_of_get? {κ β : Type} [DecidableEq κ] {t : Table κ β} {k : κ}
    (hk : t.get? k = none) (v : β) : (t.insert k v).size = t.size + 1 :=
  Table.length_put hk v

/-! ### Different texts -/

section

variable {α : Type} [BEq α] [LawfulBEq α] {xs : List α} {x : α}

/-- What came up before is no addition to the different ones. -/
theorem eraseDups_append_of_mem (hx : x ∈ xs) : (xs ++ [x]).eraseDups = xs.eraseDups := by
  have hnone : [x].removeAll xs = [] := List.filter_cons_of_neg (by simpa using hx)
  rw [List.eraseDups_append, hnone, List.eraseDups_nil, List.append_nil]

/-- What comes up for the first time goes to the end. -/
theorem eraseDups_append_of_notMem (hx : x ∉ xs) :
    (xs ++ [x]).eraseDups = xs.eraseDups ++ [x] := by
  have hone : [x].removeAll xs = [x] := List.filter_cons_of_pos (by simpa using hx)
  rw [List.eraseDups_append, hone]
  rfl

end

namespace Lexicon

variable {l l' l'' : Lexicon} {text : String} {i j : IndexedSelector}

/-- Each number is below the count of texts, and no two texts have the same. -/
structure Numbered (l : Lexicon) : Prop where
  lt_size : ∀ {text i}, l.entries.get? text = some i → i.id.number.toNat < l.size
  text_inj : ∀ {text text' i i'}, l.entries.get? text = some i → l.entries.get? text' = some i' →
    i.id = i'.id → text = text'

/-- A selector is in the lexicon, with its number. -/
def Knows (l : Lexicon) (i : IndexedSelector) : Prop := ∃ text, l.entries.get? text = some i

/-- What a lexicon knows another one knows as well. -/
def Extends (l l' : Lexicon) : Prop :=
  ∀ text i, l.entries.get? text = some i → l'.entries.get? text = some i

theorem numbered_empty : ({} : Lexicon).Numbered where
  lt_size := fun h => by cases h
  text_inj := fun h => by cases h

/-- A number stands for one selector. -/
theorem Numbered.eq_of_id_eq (hl : l.Numbered) (hi : l.Knows i) (hj : l.Knows j)
    (hid : i.id = j.id) : i = j := by
  obtain ⟨text, hi⟩ := hi
  obtain ⟨text', hj⟩ := hj
  obtain rfl := hl.text_inj hi hj hid
  rw [hi] at hj
  exact Option.some.inj hj

theorem Extends.refl (l : Lexicon) : l.Extends l := fun _ _ h => h

theorem Extends.trans (h : l.Extends l') (h' : l'.Extends l'') : l.Extends l'' :=
  fun text i hi => h' text i (h text i hi)

theorem Knows.mono (hi : l.Knows i) (h : l.Extends l') : l'.Knows i := by
  obtain ⟨text, hi⟩ := hi
  exact ⟨text, h text i hi⟩

/-! ### One reading -/

/-- A text is known already, or it is new and gets the next number. -/
theorem intern_cases (l : Lexicon) (text : String) :
    (∃ i, l.entries.get? text = some i ∧ (l.intern text).1 = i ∧
      (l.intern text).2.entries = l.entries) ∨
    (l.entries.get? text = none ∧ (l.intern text).1.id = ⟨UInt32.ofNat l.size⟩ ∧
      (l.intern text).2.entries = l.entries.insert text (l.intern text).1) := by
  unfold intern
  cases hi : l.entries.get? text with
  | some i => exact .inl ⟨i, rfl, rfl, rfl⟩
  | none => exact .inr ⟨rfl, rfl, rfl⟩

theorem size_intern_le (l : Lexicon) (text : String) : (l.intern text).2.size ≤ l.size + 1 := by
  rcases intern_cases l text with ⟨_, _, _, he⟩ | ⟨hn, _, he⟩
  · rw [size, he]
    exact Nat.le_succ _
  · rw [size, he, Table.size_insert_of_get? hn]
    exact Nat.le_refl _

theorem extends_intern (l : Lexicon) (text : String) : l.Extends (l.intern text).2 := by
  intro text' i hi
  rcases intern_cases l text with ⟨_, _, _, he⟩ | ⟨hn, _, he⟩
  · rw [he, hi]
  · have hne : ¬ text = text' := fun h => by rw [h, hi] at hn; cases hn
    rw [he, Table.get?_insert, if_neg hne, hi]

theorem knows_intern (l : Lexicon) (text : String) : (l.intern text).2.Knows (l.intern text).1 := by
  refine ⟨text, ?_⟩
  rcases intern_cases l text with ⟨i, hi, hi', he⟩ | ⟨_, _, he⟩
  · rw [he, hi, hi']
  · rw [he, Table.get?_insert, if_pos rfl]

theorem size_le_intern (l : Lexicon) (text : String) : l.size ≤ (l.intern text).2.size := by
  rcases intern_cases l text with ⟨_, _, _, he⟩ | ⟨hn, _, he⟩
  · have hsize : (l.intern text).2.size = l.size := by rw [size, size, he]
    exact Nat.le_of_eq hsize.symm
  · rw [size, size, he, Table.size_insert_of_get? hn]
    exact Nat.le_succ _

/-- **One reading keeps the books,** as long as the numbers fit. -/
theorem Numbered.intern (hl : l.Numbered) (text : String)
    (hsz : (l.intern text).2.size ≤ 2 ^ 32) : (l.intern text).2.Numbered := by
  rcases intern_cases l text with ⟨_, _, _, he⟩ | ⟨hn, hid, he⟩
  · constructor
    · intro text' i hi
      rw [he] at hi
      rw [size, he]
      exact hl.lt_size hi
    · intro text₁ text₂ i i' hi hi'
      rw [he] at hi hi'
      exact hl.text_inj hi hi'
  · have hsize : (l.intern text).2.size = l.size + 1 := by
      rw [size, he, Table.size_insert_of_get? hn, size]
    -- the new number is the old count, which no old number reaches
    have hnew : (l.intern text).1.id.number.toNat = l.size := by
      rw [hid]
      exact UInt32.toNat_ofNat_of_lt' (show l.size < 2 ^ 32 by omega)
    constructor
    · intro text' i hi
      rw [he, Table.get?_insert] at hi
      rw [hsize]
      split at hi
      · cases hi
        omega
      · exact Nat.lt_succ_of_lt (hl.lt_size hi)
    · intro text₁ text₂ i i' hi hi' hii
      rw [he, Table.get?_insert] at hi hi'
      -- old texts among themselves, old and new, and the new one with itself
      split at hi <;> split at hi'
      · next h₁ h₂ => exact h₁.symm.trans h₂
      · cases hi
        have := hl.lt_size hi'
        rw [← hii, hnew] at this
        exact absurd this (Nat.lt_irrefl _)
      · cases hi'
        have := hl.lt_size hi
        rw [hii, hnew] at this
        exact absurd this (Nat.lt_irrefl _)
      · exact hl.text_inj hi hi' hii

end Lexicon
end Cascade
