import Cascade.Forest.Link
import Mathlib.Algebra.Ring.Nat
import Mathlib.Data.List.Perm.Subperm

/-!
# The slots of a forest

A handle reaches its element through a slot, and the empty slots wait on the stack
of free ones.  Here the three operations on slots — filling one, changing its
tenant, emptying it — are described by what they do to `Forest.get?`, and the
bookkeeping around them is shown to stay right.

## Main definitions

* `Forest.occupied` — the number of slots with a tenant.
* `Forest.Tallied` — the free slots are exactly the empty ones, each listed once,
  and the number of elements is the number of occupied slots.
* `Forest.Ready` — moreover the next insertion finds a slot that can be addressed.
* `Forest.Slotted` — moreover all slots can be addressed.

## Main results

* `get?_insert`, `get?_release`, `get?_releaseAll` — the operations, seen through `get?`.
* `get?_insert_of_full` — what is put into a slot that cannot be addressed is never seen.
* `Tallied.insert`, `Tallied.update`, `Tallied.releaseAll` — the bookkeeping stays right,
  however many slots there are.
-/

namespace Cascade
namespace Forest

variable {t : Forest} {h k : Handle} {e : Element}

/-! ### Handles and slots -/

/-- A handle names an element exactly if its slot has that tenant in that generation. -/
theorem get?_eq_some_iff :
    t.get? h = some e ↔ t.slots[h.index.toNat]? = some ⟨h.generation, some e⟩ := by
  unfold get?
  cases hs : t.slots[h.index.toNat]? with
  | none => simp
  | some slot =>
    obtain ⟨g, tenant⟩ := slot
    by_cases hg : g = h.generation <;> simp [hg]

theorem contains_iff : t.contains h = true ↔ ∃ e, t.get? h = some e := Option.isSome_iff_exists

theorem contains_of_get? (hh : t.get? h = some e) : t.contains h = true := contains_iff.2 ⟨e, hh⟩

theorem get?_eq_none (hh : ¬ t.contains h = true) : t.get? h = none := by simpa [contains] using hh

theorem index_lt_size (hh : t.contains h = true) : h.index.toNat < t.slots.size := by
  obtain ⟨e, he⟩ := contains_iff.1 hh
  obtain ⟨hlt, -⟩ := Array.getElem?_eq_some_iff.1 (get?_eq_some_iff.1 he)
  exact hlt

/-- Every live handle is listed. -/
theorem mem_handles_of_contains (hh : t.contains h = true) : h ∈ t.handles := by
  obtain ⟨e, he⟩ := contains_iff.1 hh
  rw [get?_eq_some_iff] at he
  refine List.mem_filterMap.2 ⟨(⟨h.generation, some e⟩, h.index.toNat), ?_, ?_⟩
  · rw [List.mem_zipIdx_iff_getElem?, Array.getElem?_toList]
    exact he
  · simp

/-- In a forest whose slots can all be addressed, exactly the live handles are listed. -/
theorem mem_handles (hs : t.slots.size ≤ 2 ^ 32) : h ∈ t.handles ↔ t.contains h = true := by
  refine ⟨?_, mem_handles_of_contains⟩
  intro hm
  obtain ⟨⟨⟨g, tenant⟩, i⟩, hslot, hh⟩ := List.mem_filterMap.1 hm
  rw [List.mem_zipIdx_iff_getElem?, Array.getElem?_toList] at hslot
  obtain ⟨e, rfl, rfl⟩ := Option.map_eq_some_iff.1 hh
  obtain ⟨hi, -⟩ := Array.getElem?_eq_some_iff.1 hslot
  have hn : (UInt32.ofNat i).toNat = i := UInt32.toNat_ofNat_of_lt' (by simp [UInt32.size]; omega)
  exact contains_of_get? (get?_eq_some_iff.2 (by simpa [hn] using hslot))

/-- No handle is listed twice. -/
theorem nodup_handles (hs : t.slots.size ≤ 2 ^ 32) : t.handles.Nodup := by
  have hdistinct : t.slots.toList.zipIdx.Pairwise fun x y => x.2 ≠ y.2 := by
    rw [← List.pairwise_map, List.zipIdx_map_snd]
    exact List.nodup_range'
  unfold handles List.Nodup
  rw [List.pairwise_filterMap]
  refine hdistinct.imp_of_mem ?_
  rintro ⟨slot, i⟩ ⟨slot', j⟩ hi hj hne h hh k hk rfl
  have hi : i < 2 ^ 32 := Nat.lt_of_lt_of_le (by simpa using List.snd_lt_of_mem_zipIdx hi) hs
  have hj : j < 2 ^ 32 := Nat.lt_of_lt_of_le (by simpa using List.snd_lt_of_mem_zipIdx hj) hs
  obtain ⟨_, -, hh⟩ := Option.map_eq_some_iff.1 hh
  obtain ⟨_, -, hk⟩ := Option.map_eq_some_iff.1 hk
  -- slots that can be addressed have different numbers
  have hindex : (UInt32.ofNat i).toNat = (UInt32.ofNat j).toNat :=
    congrArg (fun h : Handle => h.index.toNat) (hh.trans hk.symm)
  rw [UInt32.toNat_ofNat_of_lt' hi, UInt32.toNat_ofNat_of_lt' hj] at hindex
  exact hne hindex

theorem length_handles_le : t.handles.length ≤ t.slots.size := by
  have := List.length_filterMap_le
    (fun (x : Slot × Nat) => x.1.tenant.map fun _ => (⟨UInt32.ofNat x.2, x.1.generation⟩ : Handle))
    t.slots.toList.zipIdx
  simpa [handles] using this

/-- Different live handles need different slots. -/
theorem length_le_of_contains {hs : List Handle} (hn : hs.Nodup)
    (hl : ∀ h ∈ hs, t.contains h = true) : hs.length ≤ t.slots.size :=
  Nat.le_trans (hn.subperm fun h hm => mem_handles_of_contains (hl h hm)).length_le
    length_handles_le

/-! ### The bookkeeping -/

/-- The number of slots with a tenant. -/
def occupied (t : Forest) : Nat := t.slots.toList.countP fun slot => slot.tenant.isSome

/-- The books about free slots and about the number of elements are right. -/
structure Tallied (t : Forest) : Prop where
  /-- No slot is listed as free twice. -/
  free_nodup : t.free.Nodup
  /-- The free slots are the empty ones. -/
  mem_free : ∀ i, i ∈ t.free ↔ ∃ g, t.slots[i.toNat]? = some ⟨g, none⟩
  /-- The elements are counted. -/
  size_eq : t.size = t.occupied

/-- The books are right, and the next insertion finds a slot that can be addressed. -/
structure Ready (t : Forest) : Prop extends Tallied t where
  /-- If there is no free slot, there is room for one more. -/
  room : t.free = [] → t.slots.size < 2 ^ 32

/-- The books of a forest are right, and all its slots can be addressed. -/
structure Slotted (t : Forest) : Prop where
  /-- Every slot can be addressed. -/
  size_le : t.slots.size ≤ 2 ^ 32
  /-- No slot is listed as free twice. -/
  free_nodup : t.free.Nodup
  /-- The free slots are the empty ones. -/
  mem_free : ∀ i, i ∈ t.free ↔ ∃ g, t.slots[i.toNat]? = some ⟨g, none⟩
  /-- The elements are counted. -/
  size_eq : t.size = t.occupied

theorem Slotted.tallied (hs : t.Slotted) : t.Tallied := ⟨hs.free_nodup, hs.mem_free, hs.size_eq⟩

theorem Tallied.slotted (ht : t.Tallied) (hsz : t.slots.size ≤ 2 ^ 32) : t.Slotted :=
  ⟨hsz, ht.free_nodup, ht.mem_free, ht.size_eq⟩

/-- An insertion after which all slots can be addressed has found one that can. -/
theorem Slotted.ready (hs : t.Slotted) (hsz : (t.insert e).2.slots.size ≤ 2 ^ 32) : t.Ready := by
  refine ⟨hs.tallied, fun hf => ?_⟩
  have hpush : (t.insert e).2.slots.size = t.slots.size + 1 := by simp [Forest.insert, hf]
  omega

theorem not_contains_of_isEmpty (hs : t.Slotted) (he : t.isEmpty = true) (h : Handle) :
    ¬ t.contains h = true := by
  intro hh
  obtain ⟨e, hh⟩ := contains_iff.1 hh
  have hslot := List.mem_of_getElem? ((Array.getElem?_toList ..).trans (get?_eq_some_iff.1 hh))
  have hzero : t.size = 0 := by simpa [isEmpty] using he
  rw [hs.size_eq, occupied, List.countP_eq_zero] at hzero
  exact hzero _ hslot rfl

theorem tallied_empty : ({} : Forest).Tallied where
  free_nodup := List.nodup_nil
  mem_free := by simp
  size_eq := rfl

theorem slotted_empty : ({} : Forest).Slotted := tallied_empty.slotted (by decide)

theorem countP_modify {α : Type} (p : α → Bool) (f : α → α) {l : List α} {i : Nat} {x : α}
    (hx : l[i]? = some x) :
    (l.modify i f).countP p + (if p x then 1 else 0) = l.countP p + (if p (f x) then 1 else 0) := by
  induction l generalizing i with
  | nil => simp at hx
  | cons y ys ih =>
    cases i with
    | zero =>
      obtain rfl : y = x := by simpa using hx
      simp only [List.modify_zero_cons, List.countP_cons]
      omega
    | succ i =>
      have := ih (i := i) (by simpa using hx)
      simp only [List.modify_succ_cons, List.countP_cons]
      omega

/-- How the number of occupied slots follows from one slot being changed. -/
theorem occupied_modify {f : Slot → Slot} {i : Nat} {slot : Slot} (free : List UInt32)
    (n : Nat) (hs : t.slots[i]? = some slot) :
    (Forest.mk (t.slots.modify i f) free n).occupied + (if slot.tenant.isSome then 1 else 0) =
      t.occupied + (if (f slot).tenant.isSome then 1 else 0) := by
  have := countP_modify (fun slot : Slot => slot.tenant.isSome) f (l := t.slots.toList)
    (i := i) (x := slot) (by simpa using hs)
  simpa [occupied] using this

/-! ### Changing a tenant -/

@[simp] theorem slots_size_update (t : Forest) (h : Handle) (f : Element → Element) :
    (t.update h f).slots.size = t.slots.size := by
  unfold update
  split <;> simp

@[simp] theorem size_update (t : Forest) (h : Handle) (f : Element → Element) :
    (t.update h f).size = t.size := by
  unfold update
  split <;> rfl

/-- An update that leaves the element as it is changes nothing. -/
theorem update_eq_self {f : Element → Element} (hf : ∀ e, t.get? h = some e → f e = e) :
    t.update h f = t := by
  unfold update
  split
  · next hh =>
    obtain ⟨e, he⟩ := contains_iff.1 hh
    have hslot := get?_eq_some_iff.1 he
    have hslots : t.slots.modify h.index.toNat
        (fun slot => { slot with tenant := slot.tenant.map f }) = t.slots := by
      refine Array.ext_getElem? fun i => ?_
      rw [Array.getElem?_modify]
      split
      · next hi =>
        rw [← hi, hslot, Option.map_some, Option.map_some, hf e he]
      · rfl
    rw [hslots]
  · rfl

theorem Tallied.update (ht : t.Tallied) (h : Handle) (f : Element → Element) :
    (t.update h f).Tallied := by
  unfold Forest.update
  split
  case isFalse => exact ht
  case isTrue hc =>
    obtain ⟨e, he⟩ := contains_iff.1 hc
    rw [get?_eq_some_iff] at he
    refine ⟨ht.free_nodup, ?_, ?_⟩
    · intro i
      rw [ht.mem_free]
      simp only [Array.getElem?_modify]
      split
      · next hi => simp [← hi, he]
      · rfl
    · -- the slot is occupied before and after
      have hocc := occupied_modify (f := fun slot => { slot with tenant := slot.tenant.map f })
        t.free t.size he
      have hsz := ht.size_eq
      simp only [Option.map_some, Option.isSome_some, if_true] at hocc
      dsimp only
      omega

theorem Slotted.update (hs : t.Slotted) (h : Handle) (f : Element → Element) :
    (t.update h f).Slotted :=
  (hs.tallied.update h f).slotted (by rw [slots_size_update]; exact hs.size_le)

/-! ### Filling a slot -/

/-- What an insertion does: it fills the slot emptied last, or a new one. -/
theorem insert_cases (ht : t.Tallied) (e : Element) :
    (∃ i g free, t.free = i :: free ∧ t.slots[i.toNat]? = some ⟨g, none⟩ ∧
      t.insert e = (⟨i, g⟩,
        { slots := t.slots.modify i.toNat fun slot => { slot with tenant := some e.unlinked }
          free
          size := t.size + 1 })) ∨
    (t.free = [] ∧
      t.insert e = (⟨UInt32.ofNat t.slots.size, 0⟩,
        { t with slots := t.slots.push { tenant := some e.unlinked }, size := t.size + 1 })) := by
  cases hf : t.free with
  | nil => exact .inr ⟨rfl, by simp [Forest.insert, hf]⟩
  | cons i free =>
    obtain ⟨g, hg⟩ := (ht.mem_free i).1 (by simp [hf])
    exact .inl ⟨i, g, free, rfl, hg, by simp [Forest.insert, hf, hg]⟩

theorem toNat_ofNat_size {n : Nat} (hn : n + 1 ≤ 2 ^ 32) : (UInt32.ofNat n).toNat = n :=
  UInt32.toNat_ofNat_of_lt' (by simp only [UInt32.size]; omega)

/-- The handle of an insertion was not live before. -/
theorem get?_insert_fst (hr : t.Ready) (e : Element) : t.get? (t.insert e).1 = none := by
  rcases insert_cases hr.toTallied e with ⟨i, g, free, -, hg, hi⟩ | ⟨hf, hi⟩
  · rw [hi]
    simp [get?, hg]
  · have hn := toNat_ofNat_size (hr.room hf)
    rw [hi]
    simp [get?, hn]

/-- An insertion shows behind the new handle only, where the element has no links. -/
theorem get?_insert (hr : t.Ready) (e : Element) (k : Handle) :
    (t.insert e).2.get? k = if k = (t.insert e).1 then some e.unlinked else t.get? k := by
  obtain ⟨j, g'⟩ := k
  rcases insert_cases hr.toTallied e with ⟨i, g, free, -, hg, hi⟩ | ⟨hf, hi⟩
  · rw [hi]
    -- the same slot in another generation shows nothing, before and after
    by_cases hij : i = j
    · subst hij
      by_cases hgg : g' = g
      · simp [get?, Array.getElem?_modify, hg, hgg]
      · simp [get?, Array.getElem?_modify, hg, hgg, Ne.symm hgg]
    · have hn : i.toNat ≠ j.toNat := fun h => hij (UInt32.toNat_inj.1 h)
      simp [get?, Array.getElem?_modify, hn, Ne.symm hij]
  · have hn := toNat_ofNat_size (hr.room hf)
    rw [hi]
    by_cases hj : j = UInt32.ofNat t.slots.size
    · subst hj
      by_cases hgg : g' = 0
      · simp [get?, hn, hgg]
      · simp [get?, hn, hgg, Ne.symm hgg]
    · have hne : j.toNat ≠ t.slots.size := fun h => hj (UInt32.toNat_inj.1 (by rw [h, hn]))
      simp [get?, Array.getElem?_push, hne, hj]

/-- No handle reaches a slot beyond those that can be addressed, so that an insertion there
shows behind none. -/
theorem get?_insert_of_full (hf : t.free = []) (hfull : 2 ^ 32 ≤ t.slots.size) (e : Element)
    (k : Handle) : (t.insert e).2.get? k = t.get? k := by
  have hne : k.index.toNat ≠ t.slots.size :=
    Nat.ne_of_lt (Nat.lt_of_lt_of_le k.index.toNat_lt hfull)
  simp [Forest.insert, hf, get?, Array.getElem?_push, hne]

theorem slots_size_insert_le (t : Forest) (e : Element) :
    t.slots.size ≤ (t.insert e).2.slots.size := by
  unfold insert
  split <;> simp

theorem slots_size_insert_le_succ (t : Forest) (e : Element) :
    (t.insert e).2.slots.size ≤ t.slots.size + 1 := by
  unfold insert
  split <;> simp

theorem Tallied.insert (ht : t.Tallied) (e : Element) : (t.insert e).2.Tallied := by
  rcases insert_cases ht e with ⟨i, g, free, hf, hg, hi⟩ | ⟨hf, hi⟩
  · have hnd := ht.free_nodup
    rw [hf, List.nodup_cons] at hnd
    rw [hi]
    refine ⟨hnd.2, ?_, ?_⟩
    · intro j
      have hmem := ht.mem_free j
      rw [hf, List.mem_cons] at hmem
      simp only [Array.getElem?_modify]
      by_cases hij : i = j
      · subst hij
        simp [hg, hnd.1]
      · have hn : i.toNat ≠ j.toNat := fun h => hij (UInt32.toNat_inj.1 h)
        simpa [hn, Ne.symm hij] using hmem
    · have hocc := occupied_modify (f := fun slot => { slot with tenant := some e.unlinked })
        free (t.size + 1) hg
      have hsz := ht.size_eq
      simp only [Option.isSome_none, Option.isSome_some, if_true, Bool.false_eq_true,
        if_false] at hocc
      dsimp only
      omega
  · rw [hi]
    refine ⟨ht.free_nodup, ?_, ?_⟩
    · intro j
      rw [ht.mem_free]
      simp only [Array.getElem?_push]
      split
      · next hj => simp [hj]
      · rfl
    · have hsz := ht.size_eq
      simpa [occupied] using hsz

theorem Slotted.insert (hs : t.Slotted) (e : Element)
    (hsz : (t.insert e).2.slots.size ≤ 2 ^ 32) : (t.insert e).2.Slotted :=
  (hs.tallied.insert e).slotted hsz

/-! ### Emptying slots -/

@[simp] theorem slots_size_release (t : Forest) (h : Handle) :
    (t.release h).slots.size = t.slots.size := by simp [release]

theorem get?_release (hh : t.contains h = true) (k : Handle) :
    (t.release h).get? k = if k = h then none else t.get? k := by
  obtain ⟨e, he⟩ := contains_iff.1 hh
  rw [get?_eq_some_iff] at he
  obtain ⟨i, g⟩ := h
  obtain ⟨j, g'⟩ := k
  by_cases hij : i = j
  · subst hij
    by_cases hg : g' = g
    · simp [get?, release, Array.getElem?_modify, he, hg]
    · simp only at he
      simp [get?, release, Array.getElem?_modify, he, hg, Ne.symm hg]
  · have hn : i.toNat ≠ j.toNat := fun h => hij (UInt32.toNat_inj.1 h)
    simp [get?, release, Array.getElem?_modify, hn, Ne.symm hij]

theorem contains_release_of_ne (hh : t.contains h = true) (hk : t.contains k = true) (hne : k ≠ h) :
    (t.release h).contains k = true := by
  simpa [contains, get?_release hh, hne] using hk

theorem Tallied.release (ht : t.Tallied) (hh : t.contains h = true) :
    (t.release h).Tallied ∧ (t.release h).size + 1 = t.size := by
  obtain ⟨e, he⟩ := contains_iff.1 hh
  rw [get?_eq_some_iff] at he
  have hocc := occupied_modify (f := fun slot => ⟨slot.generation + 1, none⟩)
    (h.index :: t.free) (t.size - 1) he
  have hsz := ht.size_eq
  simp only [Option.isSome_none, Option.isSome_some, if_true, Bool.false_eq_true, if_false] at hocc
  refine ⟨⟨?_, ?_, ?_⟩, ?_⟩
  · -- a slot with a tenant is not listed as free yet
    refine List.nodup_cons.2 ⟨?_, ht.free_nodup⟩
    intro hm
    obtain ⟨g, hg⟩ := (ht.mem_free _).1 hm
    simp [he] at hg
  · intro i
    have hmem := ht.mem_free i
    simp only [Forest.release, Array.getElem?_modify, List.mem_cons]
    by_cases hi : i = h.index
    · simp [hi, he]
    · have hn : h.index.toNat ≠ i.toNat := fun hn => hi (UInt32.toNat_inj.1 hn).symm
      simpa [hn, hi] using hmem
  · simp only [Forest.release]
    omega
  · simp only [Forest.release]
    omega

/-- Emptying the slots of different live handles makes these handles, and no others, stale. -/
theorem get?_releaseAll {hs : List Handle} (hn : hs.Nodup) (hl : ∀ h ∈ hs, t.contains h = true)
    (k : Handle) : (hs.foldl release t).get? k = if k ∈ hs then none else t.get? k := by
  induction hs generalizing t with
  | nil => simp
  | cons h hs ih =>
    rw [List.nodup_cons] at hn
    have hl' : ∀ x ∈ hs, (t.release h).contains x = true := fun x hx =>
      contains_release_of_ne (hl h (by simp)) (hl x (by simp [hx])) fun he => hn.1 (he ▸ hx)
    rw [List.foldl_cons, ih hn.2 hl', get?_release (hl h (by simp))]
    by_cases hk : k = h <;> simp [hk]

/-- Emptying the slots of different live handles keeps the books, and the count never runs
below zero on the way. -/
theorem Tallied.releaseAll {hs : List Handle} (ht : t.Tallied) (hn : hs.Nodup)
    (hl : ∀ h ∈ hs, t.contains h = true) :
    (hs.foldl Forest.release t).Tallied ∧
      (hs.foldl Forest.release t).size + hs.length = t.size := by
  induction hs generalizing t with
  | nil => exact ⟨ht, rfl⟩
  | cons h hs ih =>
    rw [List.nodup_cons] at hn
    obtain ⟨ht', hsize⟩ := ht.release (hl h (by simp))
    have hl' : ∀ x ∈ hs, (t.release h).contains x = true := fun x hx =>
      contains_release_of_ne (hl h (by simp)) (hl x (by simp [hx])) fun he => hn.1 (he ▸ hx)
    obtain ⟨hslot, hlen⟩ := ih ht' hn.2 hl'
    refine ⟨hslot, ?_⟩
    rw [List.foldl_cons, List.length_cons]
    omega

end Forest
end Cascade
