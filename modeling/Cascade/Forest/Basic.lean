import Cascade.Element

/-!
# Forests of elements

A forest keeps its elements in numbered slots.  A slot that is emptied goes onto
a stack of free slots and its generation advances, so the next insertion takes
the slot emptied last and hands out a handle that was never handed out before.
Links are handles on both ends; `Cascade.Forest.Walk` follows them and
`Cascade.Forest.Link` changes them.

## Main definitions

* `Forest` — the slots, the free slots, and the number of elements.
* `Forest.get?` — the element behind a handle, if the handle is live.
* `Forest.insert` — a new root.
-/

namespace Cascade

/-- A place for one element. -/
structure Slot where
  /-- How often the slot has been emptied, modulo 2³². -/
  generation : UInt32 := 0
  /-- The element in the slot. -/
  tenant : Option Element := none
  deriving Inhabited

/-- Elements in slots.  `{}` is the empty forest. -/
structure Forest where
  /-- The slots; a handle's index is a position in this array. -/
  slots : Array Slot := #[]
  /-- The empty slots, the one emptied last in front. -/
  free : List UInt32 := []
  /-- The number of elements. -/
  size : Nat := 0
  deriving Inhabited

namespace Forest

/-- The element that `h` names.  A handle whose slot is empty, or has moved on
to another generation, or never existed, names nothing. -/
def get? (t : Forest) (h : Handle) : Option Element :=
  match t.slots[h.index.toNat]? with
  | some slot => if slot.generation = h.generation then slot.tenant else none
  | none => none

/-- Whether `h` is live, that is, names an element. -/
def contains (t : Forest) (h : Handle) : Bool := (t.get? h).isSome

/-- Whether there is no element. -/
def isEmpty (t : Forest) : Bool := t.size == 0

/-- Replaces the element behind `h` by its image under `f`; a handle that is
not live changes nothing. -/
def update (t : Forest) (h : Handle) (f : Element → Element) : Forest :=
  if t.contains h then
    { t with slots := t.slots.modify h.index.toNat fun slot => { slot with tenant := slot.tenant.map f } }
  else t

/-- An update shows behind the one handle it names. -/
@[simp] theorem get?_update (t : Forest) (h k : Handle) (f : Element → Element) :
    (t.update h f).get? k = if h = k then (t.get? h).map f else t.get? k := by
  obtain ⟨i, g⟩ := h
  obtain ⟨j, g'⟩ := k
  by_cases hc : t.contains ⟨i, g⟩
  · rw [update, if_pos hc]
    by_cases hij : i = j
    · subst hij
      simp only [contains, get?] at hc
      cases hs : t.slots[i.toNat]? with
      | none => simp [hs] at hc
      | some slot =>
        have hg : slot.generation = g := by
          by_cases hg : slot.generation = g
          · exact hg
          · simp [hs, hg] at hc
        by_cases hg' : g = g' <;> simp [get?, Array.getElem?_modify, hs, hg, hg']
    · have hn : i.toNat ≠ j.toNat := fun h => hij (UInt32.toNat_inj.1 h)
      simp [get?, Array.getElem?_modify, hn, hij]
  · have hnone : t.get? ⟨i, g⟩ = none := by simpa [contains] using hc
    rw [update, if_neg hc, hnone]
    split
    · next hk => rw [← hk, hnone, Option.map_none]
    · rfl

/-- An update makes no handle live and none stale. -/
@[simp] theorem contains_update (t : Forest) (h k : Handle) (f : Element → Element) :
    (t.update h f).contains k = t.contains k := by
  by_cases hk : h = k
  · subst hk
    simp [contains]
  · simp [contains, hk]

/-- Adds an element as a root without children, whatever links it came with,
in the slot emptied last or, if none is empty, in a new one. -/
def insert (t : Forest) (e : Element) : Handle × Forest :=
  match t.free with
  | i :: free =>
    (⟨i, (t.slots[i.toNat]?.getD {}).generation⟩,
      { slots := t.slots.modify i.toNat fun slot => { slot with tenant := some e.unlinked }
        free
        size := t.size + 1 })
  | [] =>
    (⟨UInt32.ofNat t.slots.size, 0⟩,
      { t with
        slots := t.slots.push { tenant := some e.unlinked }
        size := t.size + 1 })

/-- Empties the slot of `h`. -/
def release (t : Forest) (h : Handle) : Forest :=
  { slots := t.slots.modify h.index.toNat fun slot => ⟨slot.generation + 1, none⟩
    free := h.index :: t.free
    size := t.size - 1 }

/-- The live handles in slot order. -/
def handles (t : Forest) : List Handle :=
  t.slots.toList.zipIdx.filterMap fun (slot, i) =>
    slot.tenant.map fun _ => ⟨UInt32.ofNat i, slot.generation⟩

end Forest

end Cascade
