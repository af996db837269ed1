import Mathlib.Data.List.Nodup
import Cascade.Proofs.Sheet.Catalogue

/-!
# The shelf behind a catalogue

A shelf has the sheets that are left of all that arrived, in the order of their arrival.  A
catalogue keeps the sheets of a shelf: under numbers that say how many arrived before, and
in two lists, of which the one of the system is in order of its sort indices.  This is the
one invariant of a catalogue.  It holds as long as the number of the next sheet has not
wrapped, and what else is known about the numbers and the lists follows from it.

## Main definitions

* `CompiledSheet.Before` — the order of the sheets of the system.
* `Shelf` — the sheets that are left, in the order of their arrival.
* `Catalogue.Shelved` — the catalogue keeps the sheets of a shelf.
* `Catalogue.Filed` — it does, and a lexicon knows the selectors.

## Main results

* `Catalogue.placeFactory_append` — a new sheet of the system goes to the boundary that
  its sort index draws.
* `Catalogue.Shelved.insertGlobal`, `Catalogue.Shelved.insertLocal`, `Catalogue.Shelved.remove`
  — **each operation keeps catalogue and shelf in step.**
* `Catalogue.Filed.insertGlobal`, `Catalogue.Filed.insertLocal`, `Catalogue.Filed.remove` — and
  the selectors known.
-/

namespace Cascade

/-- One sheet of the system stands before another: its sort index is smaller, or it is
equal and the sheet arrived earlier. -/
def CompiledSheet.Before (s t : CompiledSheet) : Prop :=
  s.sortIndex < t.sortIndex ∨ s.sortIndex = t.sortIndex ∧ s.id.number < t.id.number

theorem CompiledSheet.Before.le {s t : CompiledSheet} (h : s.Before t) :
    s.sortIndex ≤ t.sortIndex := by
  rw [Int32.le_iff_toInt_le]
  rcases h with h | ⟨h, -⟩
  · exact Int.le_of_lt (Int32.lt_iff_toInt_lt.1 h)
  · exact Int.le_of_eq (congrArg Int32.toInt h)

/-- Where numbers ascend, a number finds the sheet that has it. -/
theorem find?_id_eq_some_iff {sheets : List CompiledSheet} {id : SheetId} {s : CompiledSheet}
    (h : sheets.Pairwise fun s t => s.id.number < t.id.number) :
    sheets.find? (fun t => decide (t.id = id)) = some s ↔ s ∈ sheets ∧ s.id = id := by
  refine ⟨fun hs => ⟨List.mem_of_find?_eq_some hs, by simpa using List.find?_some hs⟩, ?_⟩
  rintro ⟨hs, rfl⟩
  induction sheets with
  | nil => cases hs
  | cons x xs ih =>
    obtain ⟨hx, hxs⟩ := List.pairwise_cons.1 h
    rcases List.mem_cons.1 hs with rfl | hs
    · exact List.find?_cons_of_pos (decide_eq_true rfl)
    · have hne : x.id ≠ s.id := fun he => UInt32.lt_irrefl _ (he ▸ hx s hs)
      rw [List.find?_cons_of_neg (by simpa using hne), ih hxs hs]

/-- The sheets that a history leaves, as they arrived. -/
structure Shelf where
  /-- How many sheets arrived. -/
  arrived : Nat := 0
  /-- Those that are left, the oldest first. -/
  sheets : List CompiledSheet := []
  deriving Inhabited

namespace Shelf

/-- A new sheet as it arrives: its number says how many arrived before it. -/
def arrival (s : Shelf) (l : Lexicon) (sheet : Sheet) (owner : SheetOwner) : CompiledSheet where
  id := ⟨UInt32.ofNat s.arrived⟩
  owner := owner
  sortIndex := sheet.sortIndex
  rules := (compileRules l sheet.rules).1

/-- Puts a new sheet at the end. -/
def arrive (s : Shelf) (l : Lexicon) (sheet : Sheet) (owner : SheetOwner) : Shelf where
  arrived := s.arrived + 1
  sheets := s.sheets ++ [s.arrival l sheet owner]

/-- Takes away the sheet with a number. -/
def discard (s : Shelf) (id : SheetId) : Shelf :=
  { s with sheets := s.sheets.filter fun x => decide (x.id ≠ id) }

/-- The sheets of one owner, as they arrived. -/
def owned (s : Shelf) (owner : SheetOwner) : List CompiledSheet :=
  s.sheets.filter fun x => decide (x.owner = owner)

theorem owned_arrive_self (s : Shelf) (l : Lexicon) (sheet : Sheet) (owner : SheetOwner) :
    (s.arrive l sheet owner).owned owner = s.owned owner ++ [s.arrival l sheet owner] := by
  simp [owned, arrive, arrival]

theorem owned_arrive_of_ne (s : Shelf) (l : Lexicon) (sheet : Sheet) {owner o : SheetOwner}
    (h : owner ≠ o) : (s.arrive l sheet owner).owned o = s.owned o := by
  simp [owned, arrive, arrival, h]

end Shelf

namespace Catalogue

variable {c : Catalogue} {id : SheetId}

/-! ### One sheet of the system among others -/

/-- Among sheets of the system a sort index draws one boundary. -/
theorem exists_boundary {system : List CompiledSheet} (h : system.Pairwise CompiledSheet.Before)
    (n : Int32) : ∃ front back, system = front ++ back ∧
      (∀ x ∈ front, x.sortIndex ≤ n) ∧ ∀ x ∈ back, n < x.sortIndex := by
  induction system with
  | nil => exact ⟨[], [], rfl, by simp, by simp⟩
  | cons x xs ih =>
    obtain ⟨hx, hxs⟩ := List.pairwise_cons.1 h
    by_cases hle : x.sortIndex ≤ n
    · obtain ⟨front, back, rfl, hfront, hback⟩ := ih hxs
      exact ⟨x :: front, back, rfl, List.forall_mem_cons.2 ⟨hle, hfront⟩, hback⟩
    · -- every later sheet has no smaller sort index than `x`
      have hlt : n < x.sortIndex := Int32.not_le.1 hle
      refine ⟨[], x :: xs, rfl, by simp, List.forall_mem_cons.2 ⟨hlt, ?_⟩⟩
      exact fun y hy => Int32.lt_of_lt_of_le hlt (hx y hy).le

/-- A new sheet of the system goes to the boundary that its sort index draws. -/
theorem placeFactory_append (c : Catalogue) (id : SheetId) (n : Int32) {front back : List SheetId}
    (hfront : ∀ x ∈ front, c.sortIndexOf x ≤ n) (hback : ∀ x ∈ back, n < c.sortIndexOf x) :
    c.placeFactory id n (front ++ back) = front ++ id :: back := by
  induction front with
  | nil =>
    cases back with
    | nil => rfl
    | cons y ys =>
      have hy : ¬c.sortIndexOf y ≤ n := Int32.not_le.2 (hback y (List.mem_cons_self ..))
      rw [List.nil_append, placeFactory, if_neg hy, List.nil_append]
  | cons x xs ih =>
    obtain ⟨hx, hxs⟩ := List.forall_mem_cons.1 hfront
    rw [List.cons_append, placeFactory, if_pos hx, ih hxs, List.cons_append]

/-- Put at the boundary of its sort index, the latest sheet is in order. -/
theorem pairwise_before_append {front back : List CompiledSheet} {x : CompiledSheet}
    (h : (front ++ back).Pairwise CompiledSheet.Before)
    (hfront : ∀ y ∈ front, y.sortIndex ≤ x.sortIndex)
    (hback : ∀ y ∈ back, x.sortIndex < y.sortIndex)
    (hlast : ∀ y ∈ front, y.id.number < x.id.number) :
    (front ++ x :: back).Pairwise CompiledSheet.Before := by
  -- of equal sort indices the earlier arrival is in front, and the new sheet is the latest
  obtain ⟨hf, hb, hfb⟩ := List.pairwise_append.1 h
  refine List.pairwise_append.2 ⟨hf, List.pairwise_cons.2 ⟨fun y hy => .inl (hback y hy), hb⟩, ?_⟩
  intro y hy
  refine List.forall_mem_cons.2 ⟨?_, hfb y hy⟩
  rcases Int32.lt_or_eq_of_le (hfront y hy) with hlt | heq
  · exact .inl hlt
  · exact .inr ⟨heq, hlast y hy⟩

/-! ### Catalogue and shelf in step -/

/-- The catalogue and the shelf tell the same history. -/
structure Shelved (c : Catalogue) (s : Shelf) : Prop where
  next : c.next.toNat = s.arrived
  below : ∀ x ∈ s.sheets, x.id.number < c.next
  ascending : s.sheets.Pairwise fun x y => x.id.number < y.id.number
  stored : ∀ id, c.get? id = s.sheets.find? fun x => decide (x.id = id)
  system : ∃ system : List CompiledSheet, system.Perm (s.owned .factory) ∧
    system.Pairwise CompiledSheet.Before ∧ c.factory = system.map (·.id)
  developers : c.developer = (s.owned .developer).map (·.id)

theorem shelved_empty : ({} : Catalogue).Shelved {} where
  next := rfl
  below := by simp
  ascending := .nil
  stored := fun _ => rfl
  system := ⟨[], .nil, .nil, rfl⟩
  developers := rfl

namespace Shelved

variable {s : Shelf} {x : CompiledSheet}

/-- What a number finds stands on the shelf under that number. -/
theorem get?_eq_some_iff (h : c.Shelved s) : c.get? id = some x ↔ x ∈ s.sheets ∧ x.id = id := by
  rw [h.stored, find?_id_eq_some_iff h.ascending]

theorem get?_of_mem (h : c.Shelved s) (hx : x ∈ s.sheets) : c.get? x.id = some x :=
  h.get?_eq_some_iff.2 ⟨hx, rfl⟩

/-- The next sheet arrives under the number that the catalogue gives it. -/
theorem id_arrival (h : c.Shelved s) (l : Lexicon) (sheet : Sheet) (owner : SheetOwner) :
    (s.arrival l sheet owner).id = ⟨c.next⟩ := by
  rw [Shelf.arrival, ← h.next, UInt32.ofNat_toNat]

theorem toNat_next_succ (h : c.Shelved s) (hroom : s.arrived + 1 < 2 ^ 32) :
    (c.next + 1).toNat = s.arrived + 1 := by
  rw [UInt32.toNat_add, h.next]
  exact Nat.mod_eq_of_lt hroom

theorem get?_next (h : c.Shelved s) : c.get? ⟨c.next⟩ = none := by
  refine Option.eq_none_iff_forall_ne_some.2 fun x hx => ?_
  obtain ⟨hmem, hid⟩ := h.get?_eq_some_iff.1 hx
  exact UInt32.lt_irrefl _ (hid ▸ h.below x hmem)

/-- A list of the numbers of one owner's sheets, in whatever order, lists the sheets that
are stored under that owner. -/
theorem mem_map_id (h : c.Shelved s) {owner : SheetOwner} {sheets : List CompiledSheet}
    (hp : sheets.Perm (s.owned owner)) :
    id ∈ sheets.map (·.id) ↔ ∃ x, c.get? id = some x ∧ x.owner = owner := by
  simp only [List.mem_map, hp.mem_iff, Shelf.owned, List.mem_filter, decide_eq_true_iff,
    h.get?_eq_some_iff]
  constructor
  · rintro ⟨x, ⟨hx, ho⟩, hid⟩
    exact ⟨x, ⟨hx, hid⟩, ho⟩
  · rintro ⟨x, ⟨hx, hid⟩, ho⟩
    exact ⟨x, ⟨hx, ho⟩, hid⟩

theorem mem_factory (h : c.Shelved s) :
    id ∈ c.factory ↔ ∃ x, c.get? id = some x ∧ x.owner = .factory := by
  obtain ⟨system, hperm, -, heq⟩ := h.system
  rw [heq, h.mem_map_id hperm]

theorem mem_developer (h : c.Shelved s) :
    id ∈ c.developer ↔ ∃ x, c.get? id = some x ∧ x.owner = .developer := by
  rw [h.developers, h.mem_map_id (.refl _)]

/-- No sheet of one owner is listed twice. -/
theorem nodup_map_id (h : c.Shelved s) {owner : SheetOwner} {sheets : List CompiledSheet}
    (hp : sheets.Perm (s.owned owner)) : (sheets.map (·.id)).Nodup := by
  rw [(hp.map _).nodup_iff]
  refine List.Pairwise.map _ ?_ (h.ascending.sublist List.filter_sublist)
  intro x y hlt heq
  exact UInt32.lt_irrefl _ (heq ▸ hlt)

/-! ### What one operation does -/

/-- After a new sheet has been stored, every other one stands under the sort index that it
was stored with. -/
theorem forall_sortIndexOf_compile (h : c.Shelved s) (l : Lexicon) (sheet : Sheet)
    {sheets : List CompiledSheet} (hs : ∀ x ∈ sheets, x ∈ s.sheets) (p : Int32 → Prop)
    (hp : ∀ x ∈ sheets, p x.sortIndex) :
    ∀ id ∈ sheets.map (·.id), p ((c.compile l sheet .factory).2.1.sortIndexOf id) := by
  refine List.forall_mem_map.2 fun x hx => ?_
  have hne : (⟨c.next⟩ : SheetId) ≠ x.id := fun he =>
    UInt32.lt_irrefl _ (congrArg SheetId.number he ▸ h.below x (hs x hx))
  rw [sortIndexOf, get?_compile, if_neg hne, h.get?_of_mem (hs x hx), Option.map_some,
    Option.getD_some]
  exact hp x hx

/-- The sort index of a new sheet of the system draws a boundary among those before it, also
in the eyes of the catalogue, and the sheet goes there. -/
theorem exists_place (h : c.Shelved s) (l : Lexicon) {sheet : Sheet} (hro : sheet.readOnly = true) :
    ∃ front back : List CompiledSheet,
      ((front ++ back).Perm (s.owned .factory) ∧ (front ++ back).Pairwise CompiledSheet.Before) ∧
      ((∀ x ∈ front, x.sortIndex ≤ sheet.sortIndex) ∧ ∀ x ∈ back, sheet.sortIndex < x.sortIndex) ∧
      c.factory = front.map (·.id) ++ back.map (·.id) ∧
      (∀ id ∈ front.map (·.id),
        (c.compile l sheet .factory).2.1.sortIndexOf id ≤ sheet.sortIndex) ∧
      (∀ id ∈ back.map (·.id),
        sheet.sortIndex < (c.compile l sheet .factory).2.1.sortIndexOf id) ∧
      (c.insertGlobal l sheet).2.1.factory = front.map (·.id) ++ ⟨c.next⟩ :: back.map (·.id) := by
  obtain ⟨system, hperm, hsorted, heq⟩ := h.system
  obtain ⟨front, back, rfl, hfront, hback⟩ := exists_boundary hsorted sheet.sortIndex
  have hshelf : ∀ x ∈ front ++ back, x ∈ s.sheets := fun x hx =>
    List.mem_of_mem_filter (hperm.mem_iff.1 hx)
  have hfront' := h.forall_sortIndexOf_compile l sheet
    (fun x hx => hshelf x (List.mem_append_left _ hx)) (· ≤ sheet.sortIndex) hfront
  have hback' := h.forall_sortIndexOf_compile l sheet
    (fun x hx => hshelf x (List.mem_append_right _ hx)) (sheet.sortIndex < ·) hback
  rw [List.map_append] at heq
  refine ⟨front, back, ⟨hperm, hsorted⟩, ⟨hfront, hback⟩, heq, hfront', hback', ?_⟩
  rw [insertGlobal, if_pos hro]
  show placeFactory (c.compile l sheet .factory).2.1 ⟨c.next⟩ sheet.sortIndex c.factory = _
  rw [heq, placeFactory_append _ _ _ hfront' hback']

/-- A new sheet keeps catalogue and shelf in step if the lists of the catalogue do. -/
theorem compile (h : c.Shelved s) (l : Lexicon) (sheet : Sheet) (owner : SheetOwner)
    (hroom : s.arrived + 1 < 2 ^ 32) {c' : Catalogue}
    (hsheets : c'.sheets = (c.compile l sheet owner).2.1.sheets) (hnext : c'.next = c.next + 1)
    (hsystem : ∃ system : List CompiledSheet,
      system.Perm ((s.arrive l sheet owner).owned .factory) ∧
      system.Pairwise CompiledSheet.Before ∧ c'.factory = system.map (·.id))
    (hdev : c'.developer = ((s.arrive l sheet owner).owned .developer).map (·.id)) :
    c'.Shelved (s.arrive l sheet owner) where
  next := hnext ▸ h.toNat_next_succ hroom
  below := by
    -- the number does not wrap, so the next one is above all before it
    have hlt : c.next < c'.next := by
      rw [hnext, UInt32.lt_iff_toNat_lt, h.toNat_next_succ hroom, h.next]
      exact Nat.lt_succ_self _
    intro x hx
    rcases List.mem_append.1 hx with hx | hx
    · exact UInt32.lt_trans (h.below x hx) hlt
    · rw [List.mem_singleton.1 hx, h.id_arrival]
      exact hlt
  ascending := by
    refine List.pairwise_append.2 ⟨h.ascending, List.pairwise_singleton _ _, ?_⟩
    intro x hx y hy
    rw [List.mem_singleton.1 hy, h.id_arrival]
    exact h.below x hx
  stored := by
    intro id
    have hget : c'.get? id = (c.compile l sheet owner).2.1.get? id := by rw [get?, get?, hsheets]
    rw [hget, get?_compile, ← h.id_arrival l sheet owner, Shelf.arrive, List.find?_append,
      ← h.stored]
    split
    · next he =>
      have hnone : c.get? id = none := by rw [← he, h.id_arrival, h.get?_next]
      rw [hnone, Option.none_or]
      refine (List.find?_cons_of_pos ?_).symm
      exact decide_eq_true he
    · next hne => rw [List.find?_cons_of_neg (by simpa using hne), List.find?_nil, Option.or_none]
  system := hsystem
  developers := hdev

theorem insertLocal (h : c.Shelved s) (l : Lexicon) (sheet : Sheet)
    (hroom : s.arrived + 1 < 2 ^ 32) :
    (c.insertLocal l sheet).2.1.Shelved (s.arrive l sheet .element) := by
  refine h.compile l sheet .element hroom rfl rfl ?_ ?_
  · rw [s.owned_arrive_of_ne l sheet (by decide)]
    exact h.system
  · rw [s.owned_arrive_of_ne l sheet (by decide)]
    exact h.developers

theorem insertGlobal_system (h : c.Shelved s) (l : Lexicon) {sheet : Sheet}
    (hro : sheet.readOnly = true) (hroom : s.arrived + 1 < 2 ^ 32) :
    (c.insertGlobal l sheet).2.1.Shelved (s.arrive l sheet .factory) := by
  obtain ⟨front, back, ⟨hperm, hsorted⟩, ⟨hfront, hback⟩, -, -, -, hplace⟩ := h.exists_place l hro
  have hsystem : (front ++ s.arrival l sheet .factory :: back).Perm
      ((s.arrive l sheet .factory).owned .factory) := by
    rw [Shelf.owned_arrive_self]
    exact List.perm_middle.trans ((hperm.cons _).trans (List.perm_append_singleton _ _).symm)
  have hlast : ∀ x ∈ front, x.id.number < (s.arrival l sheet .factory).id.number := by
    intro x hx
    rw [h.id_arrival]
    exact h.below x (List.mem_of_mem_filter (hperm.mem_iff.1 (List.mem_append_left _ hx)))
  refine h.compile l sheet .factory hroom ?_ ?_ ⟨_, hsystem, ?_, ?_⟩ ?_
  · rw [Catalogue.insertGlobal, if_pos hro]
  · rw [Catalogue.insertGlobal, if_pos hro]
    rfl
  · exact pairwise_before_append hsorted hfront hback hlast
  · rw [hplace, List.map_append, List.map_cons, h.id_arrival]
  · rw [s.owned_arrive_of_ne l sheet (by decide), ← h.developers, Catalogue.insertGlobal,
      if_pos hro]
    rfl

theorem insertGlobal_developer (h : c.Shelved s) (l : Lexicon) {sheet : Sheet}
    (hro : sheet.readOnly = false) (hroom : s.arrived + 1 < 2 ^ 32) :
    (c.insertGlobal l sheet).2.1.Shelved (s.arrive l sheet .developer) := by
  rw [Catalogue.insertGlobal, if_neg (by rw [hro]; decide)]
  refine h.compile l sheet .developer hroom rfl rfl ?_ ?_
  · rw [s.owned_arrive_of_ne l sheet (by decide)]
    exact h.system
  · rw [Shelf.owned_arrive_self, List.map_append, ← h.developers, List.map_singleton, h.id_arrival]
    rfl

/-- Both lists of the catalogue lose the number that is removed. -/
theorem lists_remove (h : c.Shelved s) (id : SheetId) :
    (c.remove id).factory = c.factory.filter (fun x => decide (x ≠ id)) ∧
      (c.remove id).developer = c.developer.filter fun x => decide (x ≠ id) := by
  rw [Catalogue.remove]
  split
  · exact ⟨rfl, rfl⟩
  · next hnone =>
    -- a number without a sheet is on neither list
    refine ⟨(List.filter_eq_self.2 ?_).symm, (List.filter_eq_self.2 ?_).symm⟩
    · intro x hx
      obtain ⟨y, hy, -⟩ := h.mem_factory.1 hx
      refine decide_eq_true ?_
      rintro rfl
      exact hnone (Option.isSome_of_eq_some hy)
    · intro x hx
      obtain ⟨y, hy, -⟩ := h.mem_developer.1 hx
      refine decide_eq_true ?_
      rintro rfl
      exact hnone (Option.isSome_of_eq_some hy)

theorem remove (h : c.Shelved s) (id : SheetId) :
    (c.remove id).Shelved (s.discard id) := by
  have howned : ∀ owner, (s.discard id).owned owner =
      (s.owned owner).filter fun x => decide (x.id ≠ id) := fun owner =>
    List.filter_comm _ _ _
  have hids : ∀ sheets : List CompiledSheet, (sheets.map (·.id)).filter (fun x => decide (x ≠ id)) =
      (sheets.filter fun x => decide (x.id ≠ id)).map (·.id) := fun sheets =>
    List.filter_map
  obtain ⟨hfactory, hdeveloper⟩ := h.lists_remove id
  refine ⟨?_, ?_, ?_, ?_, ?_, ?_⟩
  · rw [next_remove]
    exact h.next
  · rw [next_remove]
    exact fun x hx => h.below x (List.mem_of_mem_filter hx)
  · exact h.ascending.sublist List.filter_sublist
  · refine fun id' => Option.ext fun x => ?_
    show _ ↔ (s.sheets.filter _).find? _ = some x
    rw [find?_id_eq_some_iff (h.ascending.sublist List.filter_sublist), List.mem_filter,
      decide_eq_true_iff, get?_remove]
    split
    · next he => simp [he]
    · next hne =>
      rw [h.get?_eq_some_iff]
      constructor
      · rintro ⟨hx, rfl⟩
        exact ⟨⟨hx, Ne.symm hne⟩, rfl⟩
      · rintro ⟨⟨hx, -⟩, hid⟩
        exact ⟨hx, hid⟩
  · obtain ⟨system, hperm, hsorted, heq⟩ := h.system
    refine ⟨system.filter fun x => decide (x.id ≠ id), ?_, ?_, ?_⟩
    · rw [howned]
      exact hperm.filter _
    · exact hsorted.sublist List.filter_sublist
    · rw [hfactory, heq, hids]
  · rw [hdeveloper, h.developers, hids, howned]

theorem insertGlobal (h : c.Shelved s) (l : Lexicon) (sheet : Sheet)
    (hroom : s.arrived + 1 < 2 ^ 32) : (c.insertGlobal l sheet).2.1.Shelved
      (s.arrive l sheet (if sheet.readOnly then .factory else .developer)) := by
  cases hro : sheet.readOnly with
  | false => exact h.insertGlobal_developer l hro hroom
  | true => exact h.insertGlobal_system l hro hroom

/-! ### The order -/

theorem nodup_globalOrder (h : c.Shelved s) : c.globalOrder.Nodup := by
  obtain ⟨system, hperm, -, heq⟩ := h.system
  refine List.nodup_append'.2 ⟨?_, ?_, ?_⟩
  · rw [heq]
    exact h.nodup_map_id hperm
  · rw [h.developers]
    exact h.nodup_map_id (.refl _)
  · -- a sheet has one owner
    intro id hf hd
    obtain ⟨x, hx, hxo⟩ := h.mem_factory.1 hf
    obtain ⟨y, hy, hyo⟩ := h.mem_developer.1 hd
    rw [hx] at hy
    cases hy
    rw [hxo] at hyo
    cases hyo

theorem mem_globalOrder (h : c.Shelved s) :
    id ∈ c.globalOrder ↔ ∃ x, c.get? id = some x ∧ x.owner ≠ .element := by
  rw [globalOrder, List.mem_append, h.mem_factory, h.mem_developer, ← exists_or]
  refine exists_congr fun x => ?_
  rw [← and_or_left]
  cases x.owner <;> simp

/-- The next number does not wrap if it grows. -/
theorem room (h : c.Shelved s) (hn : c.next ≤ c.next + 1) : s.arrived + 1 < 2 ^ 32 := by
  have hnext := h.next
  have hlt := c.next.toNat_lt
  rw [UInt32.le_iff_toNat_le, UInt32.toNat_add, UInt32.toNat_one] at hn
  omega

end Shelved

/-! ### Sheets with their selectors -/

variable {l : Lexicon} {sheet : CompiledSheet}

/-- The catalogue keeps the sheets of a shelf, and the selectors of their rules are in the
lexicon. -/
structure Filed (c : Catalogue) (l : Lexicon) : Prop where
  shelved : ∃ s, c.Shelved s
  known : ∀ {id sheet}, c.get? id = some sheet → ∀ r ∈ sheet.rules, l.Knows r.selector

theorem filed_empty : ({} : Catalogue).Filed {} where
  shelved := ⟨{}, shelved_empty⟩
  known := fun h => by cases h

namespace Filed

/-- The number of the next sheet belongs to none so far. -/
theorem get?_next (hc : c.Filed l) : c.get? ⟨c.next⟩ = none := by
  obtain ⟨s, hs⟩ := hc.shelved
  exact hs.get?_next

theorem ne_next (hc : c.Filed l) (hs : c.get? id = some sheet) : (⟨c.next⟩ : SheetId) ≠ id := by
  rintro rfl
  rw [hc.get?_next] at hs
  cases hs

/-- The global order lists the sheets that exist and are not local. -/
theorem mem_globalOrder (hc : c.Filed l) :
    id ∈ c.globalOrder ↔ ∃ sheet, c.get? id = some sheet ∧ sheet.owner ≠ .element := by
  obtain ⟨s, hs⟩ := hc.shelved
  exact hs.mem_globalOrder

/-- A local sheet has no place in the global order. -/
theorem notMem_globalOrder (hc : c.Filed l) (hs : c.get? id = some sheet)
    (ho : sheet.owner = .element) : id ∉ c.globalOrder := by
  intro hm
  obtain ⟨sheet', hs', ho'⟩ := hc.mem_globalOrder.1 hm
  rw [hs] at hs'
  cases hs'
  exact ho' ho

theorem remove (hc : c.Filed l) (id : SheetId) : (c.remove id).Filed l where
  shelved := by
    obtain ⟨s, hs⟩ := hc.shelved
    exact ⟨s.discard id, hs.remove id⟩
  known := fun {id' sheet} hs => by
    rw [get?_remove] at hs
    split at hs
    · cases hs
    · exact hc.known hs

/-- The lexicon knows the selectors of a new sheet, and still knows those of the others. -/
theorem known_of_get? (hc : c.Filed l) {rs : List Rule} {c' : Catalogue} {new : CompiledSheet}
    (hrules : new.rules = (compileRules l rs).1)
    (hget : ∀ id, c'.get? id = if (⟨c.next⟩ : SheetId) = id then some new else c.get? id)
    (hs : c'.get? id = some sheet) :
    ∀ r ∈ sheet.rules, (compileRules l rs).2.Knows r.selector := by
  rw [hget] at hs
  split at hs
  · cases hs
    rw [hrules]
    exact knows_compileRules l rs
  · exact fun r hr => (hc.known hs r hr).mono (extends_compileRules l rs)

theorem insertLocal (hc : c.Filed l) (sheet : Sheet) (hn : c.next ≤ c.next + 1) :
    (c.insertLocal l sheet).2.1.Filed (c.insertLocal l sheet).2.2 where
  shelved := by
    obtain ⟨s, hs⟩ := hc.shelved
    exact ⟨_, hs.insertLocal l sheet (hs.room hn)⟩
  known := fun hs => hc.known_of_get? rfl (get?_compile c l sheet .element) hs

theorem insertGlobal (hc : c.Filed l) (sheet : Sheet) (hn : c.next ≤ c.next + 1) :
    (c.insertGlobal l sheet).2.1.Filed (c.insertGlobal l sheet).2.2 where
  shelved := by
    obtain ⟨s, hs⟩ := hc.shelved
    exact ⟨_, hs.insertGlobal l sheet (hs.room hn)⟩
  known := by
    have hlexicon : (c.insertGlobal l sheet).2.2 = (compileRules l sheet.rules).2 := by
      unfold Catalogue.insertGlobal
      split <;> rfl
    rw [hlexicon]
    exact fun _ _ hs => hc.known_of_get? rfl (get?_insertGlobal c l sheet) hs

end Filed
end Catalogue
end Cascade
