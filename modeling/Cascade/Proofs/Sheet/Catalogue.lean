import Cascade.Proofs.Selector.Lexicon
import Cascade.Sheet.Catalogue

/-!
# Reading sheets and looking them up

A new sheet has its selectors read by the lexicon, which keeps what it knew.  What the
operations of the catalogue do is seen through the look-up of a number and through the
global order; what a whole history does to the two is the subject of the shelf.

## Main results

* `knows_compileRules` — the selectors of rules that were read are in the lexicon.
* `Catalogue.get?_compile`, `Catalogue.get?_insertGlobal`, `Catalogue.get?_remove` — what the
  operations do to a look-up.
-/

namespace Cascade

variable {l : Lexicon} {c : Catalogue} {id id' : SheetId}

/-! ### Reading rules -/

theorem extends_compileRules (l : Lexicon) (rs : List Rule) : l.Extends (compileRules l rs).2 := by
  induction rs generalizing l with
  | nil => exact .refl l
  | cons r rs ih => exact (Lexicon.extends_intern l r.selector).trans (ih _)

theorem size_le_compileRules (l : Lexicon) (rs : List Rule) :
    l.size ≤ (compileRules l rs).2.size := by
  induction rs generalizing l with
  | nil => exact Nat.le_refl _
  | cons r rs ih => exact Nat.le_trans (Lexicon.size_le_intern l r.selector) (ih _)

theorem size_compileRules_le (l : Lexicon) (rs : List Rule) :
    (compileRules l rs).2.size ≤ l.size + rs.length := by
  induction rs generalizing l with
  | nil => exact Nat.le_refl _
  | cons r rs ih =>
    have hr := Lexicon.size_intern_le l r.selector
    have hrs := ih (l.intern r.selector).2
    show (compileRules (l.intern r.selector).2 rs).2.size ≤ l.size + (rs.length + 1)
    omega

theorem Lexicon.Numbered.compileRules (hl : l.Numbered) (rs : List Rule)
    (hsz : (compileRules l rs).2.size ≤ 2 ^ 32) : (compileRules l rs).2.Numbered := by
  induction rs generalizing l with
  | nil => exact hl
  | cons r rs ih =>
    have hle := size_le_compileRules (l.intern r.selector).2 rs
    exact ih (hl.intern r.selector (Nat.le_trans hle hsz)) hsz

/-- The selectors of rules that were read are in the lexicon. -/
theorem knows_compileRules (l : Lexicon) (rs : List Rule) :
    ∀ r ∈ (compileRules l rs).1, (compileRules l rs).2.Knows r.selector := by
  induction rs generalizing l with
  | nil => exact fun r hr => absurd hr List.not_mem_nil
  | cons r rs ih =>
    intro r' hr'
    rcases List.mem_cons.1 hr' with rfl | hr'
    · exact (Lexicon.knows_intern l r.selector).mono (extends_compileRules _ rs)
    · exact ih _ r' hr'

namespace Catalogue

/-! ### Looking up -/

theorem get?_compile (c : Catalogue) (l : Lexicon) (sheet : Sheet) (owner : SheetOwner)
    (id : SheetId) : (c.compile l sheet owner).2.1.get? id =
      if (⟨c.next⟩ : SheetId) = id then
        some ⟨⟨c.next⟩, owner, sheet.sortIndex, (compileRules l sheet.rules).1⟩
      else c.get? id := Table.get?_insert _ _ _ _

theorem get?_insertGlobal (c : Catalogue) (l : Lexicon) (sheet : Sheet) (id : SheetId) :
    (c.insertGlobal l sheet).2.1.get? id =
      if (⟨c.next⟩ : SheetId) = id then
        some ⟨⟨c.next⟩, if sheet.readOnly then .factory else .developer, sheet.sortIndex,
          (compileRules l sheet.rules).1⟩
      else c.get? id := by
  unfold insertGlobal
  split <;> exact get?_compile _ _ _ _ _

theorem get?_remove (c : Catalogue) (id id' : SheetId) :
    (c.remove id).get? id' = if id = id' then none else c.get? id' := by
  unfold remove
  split
  · exact Table.get?_erase _ _ _
  · next hn =>
    split
    · next h => rw [← h, Option.not_isSome_iff_eq_none.1 hn]
    · rfl

@[simp] theorem next_remove (c : Catalogue) (id : SheetId) : (c.remove id).next = c.next := by
  unfold remove
  split <;> rfl

theorem mem_placeFactory (c : Catalogue) (id : SheetId) (n : Int32) {ids : List SheetId} :
    id' ∈ c.placeFactory id n ids ↔ id' = id ∨ id' ∈ ids := by
  induction ids with
  | nil => simp [placeFactory]
  | cons x xs ih =>
    rw [placeFactory]
    split
    · rw [List.mem_cons, ih, List.mem_cons]
      exact or_left_comm
    · rw [List.mem_cons]

/-- A new sheet takes no sheet out of the global order. -/
theorem mem_globalOrder_insertGlobal (l : Lexicon) (sheet : Sheet) (h : id ∈ c.globalOrder) :
    id ∈ (c.insertGlobal l sheet).2.1.globalOrder := by
  have hid := List.mem_append.1 h
  unfold insertGlobal
  split
  · exact List.mem_append.2 (hid.imp_left fun hm => (mem_placeFactory _ _ _).2 (.inr hm))
  · exact List.mem_append.2 (hid.imp_right (List.mem_append_left _))

theorem globalOrder_remove (h : id ∉ c.globalOrder) :
    (c.remove id).globalOrder = c.globalOrder := by
  have hne : ∀ x ∈ c.globalOrder, decide (x ≠ id) = true := fun x hx =>
    decide_eq_true fun he => h (he ▸ hx)
  unfold remove
  split
  · show c.factory.filter _ ++ c.developer.filter _ = c.globalOrder
    rw [← List.filter_append]
    exact List.filter_eq_self.2 hne
  · rfl

end Catalogue
end Cascade
