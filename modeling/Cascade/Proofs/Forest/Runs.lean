import Cascade.Proofs.Forest.Preorder
import Mathlib.Data.List.Nodup

/-!
# Runs of forest operations

A run starts with the empty forest and carries out operations one after the other,
with whatever handles; an operation that is refused changes nothing.  As long as
the slots can be addressed, every forest that a run reaches is intact: both sides
of every link agree, all links lead to live elements, every way up ends at a root,
and the books about slots are right.

## Main definitions

* `Forest.Operation`, `Forest.apply`, `Forest.run`.
* `Forest.WellFormed` — right books and linked links.
* `Forest.Intact` — the invariant, said about the elements and slots themselves.

## Main results

* `WellFormed.apply`, `WellFormed.run` — one operation, and a run, with any number of slots.
* `Sound.apply`, `Sound.run` — the same while all slots can be addressed.
* `intact_run` — **every forest that is reached is intact, and destroying stays in bounds.**
-/

namespace Cascade
namespace Forest

variable {t u : Forest}

/-- An operation with its arguments. -/
inductive Operation where
  /-- Adds an element, links and all as it stands; the links are not taken over. -/
  | insert (e : Element)
  | attach (child parent : Handle)
  | detach (child : Handle)
  | destroy (h : Handle)
  /-- Changes element data. -/
  | edit (h : Handle) (c : Element.Edit)

/-- The forest after an operation, whether it is refused or not. -/
def apply (t : Forest) : Operation → Forest
  | .insert e => (t.insert e).2
  | .attach child parent => (t.attach child parent).2
  | .detach child => (t.detach child).2
  | .destroy h => (t.destroy h).2
  | .edit h c => t.update h (·.edit c)

/-- The forest after a list of operations. -/
def run (t : Forest) (ops : List Operation) : Forest := ops.foldl apply t

/-- An attachment is refused and changes nothing, or it succeeds. -/
theorem apply_attach (t : Forest) (child parent : Handle) :
    t.apply (.attach child parent) = t ∨
      t.attach child parent = (.ok (), t.apply (.attach child parent)) := by
  rcases ha : t.attach child parent with ⟨e | _, u⟩ <;> rw [apply, ha]
  · exact .inl (eq_of_attach_error ha)
  · exact .inr rfl

/-- So is a detachment. -/
theorem apply_detach (t : Forest) (child : Handle) :
    t.apply (.detach child) = t ∨ ∃ old, t.detach child = (.ok old, t.apply (.detach child)) := by
  rcases hd : t.detach child with ⟨e | old, u⟩ <;> rw [apply, hd]
  · exact .inl (eq_of_detach_error hd)
  · exact .inr ⟨old, rfl⟩

/-- So is a destruction. -/
theorem apply_destroy (t : Forest) (h : Handle) :
    t.apply (.destroy h) = t ∨
      ∃ removed, t.destroy h = (.ok removed, t.apply (.destroy h)) := by
  rcases hd : t.destroy h with ⟨e | removed, u⟩ <;> rw [apply, hd]
  · exact .inl (eq_of_destroy_error hd)
  · exact .inr ⟨removed, rfl⟩

theorem sound_empty : ({} : Forest).Sound := ⟨slotted_empty, linked_empty⟩

/-- Slots are never given back. -/
theorem slots_size_le_apply (t : Forest) (op : Operation) :
    t.slots.size ≤ (t.apply op).slots.size := by
  cases op with
  | insert e => exact slots_size_insert_le t e
  | attach child parent =>
    rcases t.apply_attach child parent with heq | ha
    · rw [heq]
    · exact Nat.le_of_eq (slots_size_attach ha).symm
  | detach child =>
    rcases t.apply_detach child with heq | ⟨old, hd⟩
    · rw [heq]
    · exact Nat.le_of_eq (slots_size_detach hd).symm
  | destroy h =>
    rcases t.apply_destroy h with heq | ⟨removed, hd⟩
    · rw [heq]
    · exact Nat.le_of_eq (slots_size_destroy hd).symm
  | edit h c => exact Nat.le_of_eq (slots_size_update t h _).symm

/-- What holds of every forest that is reached, however many slots it has: the books about them
are right, and the links are linked. -/
structure WellFormed (t : Forest) : Prop where
  /-- The books are right. -/
  tallied : t.Tallied
  /-- The links are linked. -/
  linked : t.Linked

theorem wellFormed_empty : ({} : Forest).WellFormed := ⟨tallied_empty, linked_empty⟩

/-- **One operation keeps a forest well-formed.** -/
theorem WellFormed.apply (ht : t.WellFormed) (op : Operation) : (t.apply op).WellFormed := by
  cases op with
  | insert e => exact ⟨ht.tallied.insert e, ht.linked.insert ht.tallied e⟩
  | attach child parent =>
    rcases t.apply_attach child parent with heq | ha
    · rwa [heq]
    · exact ⟨ht.tallied.attach ha, ht.linked.attach ha⟩
  | detach child =>
    rcases t.apply_detach child with heq | ⟨old, hd⟩
    · rwa [heq]
    · exact ⟨ht.tallied.detach hd, ht.linked.detach hd⟩
  | destroy h =>
    rcases t.apply_destroy h with heq | ⟨removed, hd⟩
    · rwa [heq]
    · exact ⟨(tallied_destroy ht.linked hd ht.tallied).1, linked_destroy ht.linked hd⟩
  | edit h c => exact ⟨ht.tallied.update h _, ht.linked.edit h c⟩

/-- **Every run keeps a forest well-formed.** -/
theorem WellFormed.run (ht : t.WellFormed) (ops : List Operation) : (t.run ops).WellFormed := by
  induction ops generalizing t with
  | nil => exact ht
  | cons op ops ih => exact ih (ht.apply op)

theorem Sound.wellFormed (ht : t.Sound) : t.WellFormed := ⟨ht.slotted.tallied, ht.linked⟩

theorem WellFormed.sound (ht : t.WellFormed) (hsz : t.slots.size ≤ 2 ^ 32) : t.Sound :=
  ⟨ht.tallied.slotted hsz, ht.linked⟩

/-- **One operation keeps a forest sound,** as long as its slots can be addressed. -/
theorem Sound.apply (ht : t.Sound) (op : Operation) (hsz : (t.apply op).slots.size ≤ 2 ^ 32) :
    (t.apply op).Sound :=
  (ht.wellFormed.apply op).sound hsz

theorem slots_size_le_run (t : Forest) (ops : List Operation) :
    t.slots.size ≤ (t.run ops).slots.size := by
  induction ops generalizing t with
  | nil => exact Nat.le_refl _
  | cons op ops ih => exact Nat.le_trans (slots_size_le_apply t op) (ih (t.apply op))

theorem Sound.run (ht : t.Sound) (ops : List Operation) (hsz : (t.run ops).slots.size ≤ 2 ^ 32) :
    (t.run ops).Sound :=
  (ht.wellFormed.run ops).sound hsz

/-! ### The invariant, element by element -/

/-- Both sides of every link agree, there is no circle, and the books are right. -/
structure Intact (t : Forest) : Prop where
  /-- An element is the parent of exactly those that it lists as children. -/
  parent_iff : ∀ {c p : Handle} {ec ep : Element}, t.get? c = some ec → t.get? p = some ep →
    (ec.parent = some p ↔ c ∈ ep.children)
  /-- A child is listed once. -/
  count_child : ∀ {c p : Handle} {ep : Element}, t.get? p = some ep → c ∈ ep.children →
    ep.children.count c = 1
  /-- A child is listed in one place. -/
  child_unique : ∀ {c p q : Handle} {ep eq : Element}, t.get? p = some ep → t.get? q = some eq →
    c ∈ ep.children → c ∈ eq.children → p = q
  /-- Parents are live. -/
  parent_live : ∀ {c p : Handle} {ec : Element}, t.get? c = some ec → ec.parent = some p →
    t.contains p = true
  /-- Children are live. -/
  child_live : ∀ {c p : Handle} {ep : Element}, t.get? p = some ep → c ∈ ep.children →
    t.contains c = true
  /-- The way up from every element ends at a root. -/
  rooted : ∀ h, t.contains h = true → ∃ as, t.Lineage h as
  /-- The free slots are listed once each, the others are not listed. -/
  count_free : ∀ (i : Nat) (hi : i < t.slots.size),
    t.free.count (UInt32.ofNat i) = if t.slots[i].tenant.isSome then 0 else 1
  /-- No slot is listed that does not exist. -/
  free_lt : ∀ i ∈ t.free, i.toNat < t.slots.size
  /-- The elements are counted. -/
  size_eq : t.size = t.slots.toList.countP fun slot => slot.tenant.isSome

theorem Sound.intact (ht : t.Sound) : t.Intact := by
  have hl := ht.linked
  have hs := ht.slotted
  refine
    { parent_iff := ?_
      count_child := ?_
      child_unique := ?_
      parent_live := ?_
      child_live := ?_
      rooted := hl.rooted
      count_free := ?_
      free_lt := ?_
      size_eq := hs.size_eq }
  · intro c p ec ep hc hp
    rw [← parent?_of_get? hc, ← children_of_get? hp]
    exact (hl.mem_children c p).symm
  · intro c p ep hp hc
    have hnd := hl.children_nodup p
    rw [children_of_get? hp] at hnd
    exact List.count_eq_one_of_mem hnd hc
  · -- the parent of a child is the one that lists it
    intro c p q ep eq hp hq hcp hcq
    have h₁ := (hl.mem_children c p).1 (by rwa [children_of_get? hp])
    have h₂ := (hl.mem_children c q).1 (by rwa [children_of_get? hq])
    exact Option.some.inj (h₁.symm.trans h₂)
  · intro c p ec hc hp
    rw [← parent?_of_get? hc] at hp
    exact hl.contains_parent hp
  · intro c p ep hp hc
    rw [← children_of_get? hp] at hc
    exact hl.contains_child hc
  · -- a free slot is listed, once; the others are not
    intro i hi
    have hle := hs.size_le
    have hn : (UInt32.ofNat i).toNat = i := toNat_ofNat_size (by omega)
    have hmem := hs.mem_free (UInt32.ofNat i)
    rw [hn, Array.getElem?_eq_getElem hi] at hmem
    split
    · next hsome =>
      refine List.count_eq_zero.2 ?_
      intro hm
      obtain ⟨g, hg⟩ := hmem.1 hm
      rw [Option.some.inj hg] at hsome
      simp at hsome
    · next hnone =>
      refine List.count_eq_one_of_mem hs.free_nodup (hmem.2 ⟨t.slots[i].generation, ?_⟩)
      cases hslot : t.slots[i] with
      | mk g tenant =>
        rw [hslot] at hnone
        simpa using hnone
  · intro i hi
    obtain ⟨g, hg⟩ := (hs.mem_free i).1 hi
    exact (Array.getElem?_eq_some_iff.1 hg).1

/-- **The invariant of the forest.**  Whatever operations a run consists of and whatever
handles they are given, the forest it reaches is intact.  Hence a destruction empties
existing slots only, and the number of elements never falls below zero on the way. -/
theorem intact_run (ops : List Operation) (hsz : (({} : Forest).run ops).slots.size < 2 ^ 32) :
    (({} : Forest).run ops).Intact ∧
      ∀ h removed u, (({} : Forest).run ops).destroy h = (.ok removed, u) →
        (∀ r ∈ removed, r.index.toNat < (({} : Forest).run ops).slots.size) ∧
          u.size + removed.length = (({} : Forest).run ops).size := by
  have ht := sound_empty.run ops (Nat.le_of_lt hsz)
  refine ⟨ht.intact, ?_⟩
  intro h removed u hd
  refine ⟨?_, (tallied_destroy ht.linked hd ht.slotted.tallied).2⟩
  intro r hr
  obtain ⟨rfl, -⟩ := destroy_eq_ok ht.linked hd
  exact index_lt_size ((mem_subtree ht.linked).1 hr).1

/-- A button that brings foreign links along goes under a panel, the panel is destroyed
with it, and both slots are used again. -/
def recycling : List Operation :=
  [.insert { (default : Element) with typeName := "Panel" },
    .insert { (default : Element) with
      typeName := "Button", parent := some ⟨7, 3⟩, children := [⟨0, 0⟩] },
    .attach ⟨1, 0⟩ ⟨0, 0⟩, .attach ⟨0, 0⟩ ⟨1, 0⟩, .destroy ⟨0, 0⟩,
    .insert { (default : Element) with typeName := "Label" }, .attach ⟨1, 0⟩ ⟨1, 1⟩,
    .insert { (default : Element) with typeName := "Panel" }, .attach ⟨1, 1⟩ ⟨0, 1⟩]

theorem intact_recycling :
    (({} : Forest).run recycling).slots.size < 2 ^ 32 ∧ (({} : Forest).run recycling).Intact ∧
      ∀ h removed u, (({} : Forest).run recycling).destroy h = (.ok removed, u) →
        (∀ r ∈ removed, r.index.toNat < (({} : Forest).run recycling).slots.size) ∧
          u.size + removed.length = (({} : Forest).run recycling).size :=
  ⟨by decide, intact_run recycling (by decide)⟩

end Forest
end Cascade
