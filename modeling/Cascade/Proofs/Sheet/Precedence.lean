import Cascade.Proofs.Sheet.Shelf

/-!
# The order of precedence through a history

Sheets come and go, and the catalogue keeps the order of precedence as it goes: a new
sheet of the system is put among those that are left of the earlier ones, a new sheet of
a developer goes to the end, and a removal leaves a hole in either list and in the table
of sheets.  The order that results is the one that the history itself dictates.  The
history is told without the catalogue by a shelf, on which sheets stand as they arrived.

## Main definitions

* `Catalogue.Operation`, `Catalogue.run` — histories, and the numbers they hand out.
* `Catalogue.Precedence` — the catalogue keeps the sheets of a shelf in their order.

## Main results

* `Catalogue.Shelved.apply` — one operation keeps catalogue and shelf in step.
* `Catalogue.precedence_run` — so does every history with fewer than 2³² new sheets.
-/

namespace Cascade

namespace Catalogue

/-! ### Histories -/

/-- What can be done to a catalogue.  Every new sheet brings the lexicon with which its
selectors are read. -/
inductive Operation where
  | insertGlobal (l : Lexicon) (sheet : Sheet)
  | insertLocal (l : Lexicon) (sheet : Sheet)
  | remove (id : SheetId)
  deriving Inhabited

/-- Whether an operation brings a new sheet. -/
def Operation.isInsert : Operation → Bool
  | .remove _ => false
  | _ => true

/-- Does one operation, with the number that it hands out. -/
def apply (c : Catalogue) : Operation → Option SheetId × Catalogue
  | .insertGlobal l sheet => let (id, c, _) := c.insertGlobal l sheet; (some id, c)
  | .insertLocal l sheet => let (id, c, _) := c.insertLocal l sheet; (some id, c)
  | .remove id => (none, c.remove id)

/-- Does operations one after the other, with the numbers that they hand out. -/
def run (c : Catalogue) : List Operation → List SheetId × Catalogue
  | [] => ([], c)
  | op :: ops =>
    let (id, c) := c.apply op
    let (ids, c) := c.run ops
    (id.toList ++ ids, c)

end Catalogue

namespace Shelf

/-- What an operation does to the shelf. -/
def apply (s : Shelf) : Catalogue.Operation → Shelf
  | .insertGlobal l sheet => s.arrive l sheet (if sheet.readOnly then .factory else .developer)
  | .insertLocal l sheet => s.arrive l sheet .element
  | .remove id => s.discard id

/-- What operations do to the shelf one after the other. -/
def run (s : Shelf) (ops : List Catalogue.Operation) : Shelf := ops.foldl apply s

theorem arrived_apply (s : Shelf) (op : Catalogue.Operation) :
    (s.apply op).arrived = s.arrived + if op.isInsert then 1 else 0 := by
  cases op <;> rfl

end Shelf

namespace Catalogue

variable {c : Catalogue} {id : SheetId} {s : Shelf}

/-- The catalogue keeps the sheets of a shelf in their order of precedence. -/
structure Precedence (c : Catalogue) (s : Shelf) : Prop where
  /-- A number finds the sheet on the shelf that has it. -/
  stored : ∀ id, c.get? id = s.sheets.find? fun x => decide (x.id = id)
  /-- No sheet is listed twice. -/
  nodup : c.globalOrder.Nodup
  /-- The sheets listed are those that are stored and not local. -/
  listed : ∀ id, id ∈ c.globalOrder ↔ ∃ x, c.get? id = some x ∧ x.owner ≠ .element
  /-- Sheets of the system come first, by their sort index and then by arrival, and
  sheets of developers follow by arrival. -/
  ranked : ∃ system : List CompiledSheet, system.Perm (s.owned .factory) ∧
    system.Pairwise CompiledSheet.Before ∧
    c.globalOrder = (system ++ s.owned .developer).map (·.id)
  /-- While the next sheet of the system is put in its place, whichever that is, every sheet of
  the system in the order is found in the table. -/
  found : ∀ (l : Lexicon) (sheet : Sheet), ∀ id ∈ c.factory,
    ((c.compile l sheet .factory).2.1.get? id).isSome
  /-- That place is the only boundary between a sort index that is not greater than the new
  one and a greater one. -/
  boundary : ∀ (l : Lexicon) (sheet : Sheet), sheet.readOnly = true →
    ∃ front back, c.factory = front ++ back ∧
      (∀ id ∈ front, (c.compile l sheet .factory).2.1.sortIndexOf id ≤ sheet.sortIndex) ∧
      (∀ id ∈ back, sheet.sortIndex < (c.compile l sheet .factory).2.1.sortIndexOf id) ∧
      (c.insertGlobal l sheet).2.1.factory = front ++ ⟨c.next⟩ :: back

namespace Shelved

/-- One operation keeps catalogue and shelf in step. -/
theorem apply (h : c.Shelved s) (op : Operation)
    (hroom : s.arrived + (if op.isInsert then 1 else 0) < 2 ^ 32) :
    (c.apply op).2.Shelved (s.apply op) := by
  cases op with
  | insertGlobal l sheet => exact h.insertGlobal l sheet hroom
  | insertLocal l sheet => exact h.insertLocal l sheet hroom
  | remove id => exact h.remove id

/-- A new sheet is handed the number of sheets that arrived before it. -/
theorem fst_apply (h : c.Shelved s) (op : Operation) :
    (c.apply op).1 = if op.isInsert then some ⟨UInt32.ofNat s.arrived⟩ else none := by
  rw [← h.next, UInt32.ofNat_toNat]
  cases op with
  | insertGlobal l sheet =>
    show some (c.insertGlobal l sheet).1 = some ⟨c.next⟩
    rw [Catalogue.insertGlobal]
    split <;> rfl
  | insertLocal l sheet => rfl
  | remove id => rfl

/-- A history keeps catalogue and shelf in step, and hands out ascending numbers. -/
theorem run (h : c.Shelved s) (ops : List Operation)
    (hroom : s.arrived + ops.countP Operation.isInsert < 2 ^ 32) :
    (c.run ops).2.Shelved (s.run ops) ∧
      (c.run ops).1 = (List.range' s.arrived (ops.countP Operation.isInsert)).map fun n =>
        ⟨UInt32.ofNat n⟩ := by
  -- an induction on the history: the shelf tells how many numbers have been handed out
  induction ops generalizing c s with
  | nil => exact ⟨h, rfl⟩
  | cons op ops ih =>
    rw [List.countP_cons] at hroom ⊢
    have harrived := s.arrived_apply op
    obtain ⟨hshelved, hids⟩ := ih (h.apply op (by omega)) (by omega)
    refine ⟨hshelved, ?_⟩
    show (c.apply op).1.toList ++ ((c.apply op).2.run ops).1 = _
    rw [hids, h.fst_apply, harrived]
    split
    · rw [List.range'_succ, List.map_cons]
      rfl
    · rfl

theorem precedence (h : c.Shelved s) : c.Precedence s where
  stored := h.stored
  nodup := h.nodup_globalOrder
  listed := fun _ => h.mem_globalOrder
  ranked := by
    obtain ⟨system, hperm, hsorted, heq⟩ := h.system
    refine ⟨system, hperm, hsorted, ?_⟩
    rw [globalOrder, heq, h.developers, List.map_append]
  found := by
    intro l sheet id hid
    obtain ⟨x, hx, -⟩ := h.mem_factory.1 hid
    rw [get?_compile]
    split
    · rfl
    · exact Option.isSome_of_eq_some hx
  boundary := by
    intro l sheet hro
    obtain ⟨front, back, -, -, hplaced⟩ := h.exists_place l hro
    exact ⟨_, _, hplaced⟩

end Shelved

theorem nodup_map_number {n : Nat} (hn : n < 2 ^ 32) :
    ((List.range n).map fun k => (⟨UInt32.ofNat k⟩ : SheetId)).Nodup := by
  refine List.Nodup.map_on ?_ List.nodup_range
  intro i hi j hj he
  -- below 2³² a number is the same as its remainder
  have hmod : i % 2 ^ 32 = j % 2 ^ 32 := congrArg (fun id => id.number.toNat) he
  rw [List.mem_range] at hi hj
  omega

/-- Every history with fewer than 2³² new sheets, whatever numbers it removes, hands out
every number once and leaves the sheets in their order of precedence. -/
theorem precedence_run (ops : List Operation)
    (hops : ops.countP Operation.isInsert < 2 ^ 32) :
    (({} : Catalogue).run ops).1 =
        (List.range (ops.countP Operation.isInsert)).map (fun n => ⟨UInt32.ofNat n⟩) ∧
      (({} : Catalogue).run ops).1.Nodup ∧
      (({} : Catalogue).run ops).2.Precedence (({} : Shelf).run ops) := by
  obtain ⟨hshelved, hids⟩ := shelved_empty.run ops (by rw [Nat.zero_add]; exact hops)
  rw [← List.range_eq_range'] at hids
  exact ⟨hids, hids ▸ nodup_map_number hops, hshelved.precedence⟩

/-- Sheets of the system with two equal sort indices and a negative one, among others, of which
the first of the two is removed and two numbers are removed that no sheet has. -/
def mixedHistory : List Operation :=
  [.insertGlobal {} { readOnly := true, sortIndex := 10 }, .remove ⟨7⟩, .insertGlobal {} {},
    .insertGlobal {} { readOnly := true, sortIndex := 10 }, .insertLocal {} {},
    .insertGlobal {} { readOnly := true, sortIndex := -1 }, .remove ⟨0⟩, .remove ⟨0⟩,
    .insertGlobal {} { readOnly := true, sortIndex := 10 }, .insertGlobal {} {}]

/-- The order it leaves: the negative sort index, the equal ones by arrival, the developers. -/
theorem precedence_mixedHistory :
    mixedHistory.countP Operation.isInsert < 2 ^ 32 ∧
    (({} : Catalogue).run mixedHistory).2.globalOrder = [⟨4⟩, ⟨2⟩, ⟨5⟩, ⟨1⟩, ⟨6⟩] ∧
    (({} : Catalogue).run mixedHistory).1 =
      (List.range (mixedHistory.countP Operation.isInsert)).map (fun n => ⟨UInt32.ofNat n⟩) ∧
    (({} : Catalogue).run mixedHistory).1.Nodup ∧
    (({} : Catalogue).run mixedHistory).2.Precedence (({} : Shelf).run mixedHistory) :=
  ⟨by decide, by decide, precedence_run mixedHistory (by decide)⟩

end Catalogue
end Cascade
