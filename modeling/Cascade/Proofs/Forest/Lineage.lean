import Cascade.Proofs.Forest.Slots
import Mathlib.Logic.Relation

/-!
# Lineages

The lineage of an element is the list of its ancestors, nearest first, up to a
root.  It is stated as a relation, so that it exists only where the way up really
ends; the bounded walk `Forest.ancestors` then finds exactly the lineage, because
no element occurs twice on the way and there are not more elements than slots.

## Main definitions

* `Forest.data?`, `Forest.children` — what a handle shows besides its parent.
* `Forest.Lineage` — the way up from an element to a root.
* `Forest.Above`, `Forest.Near` — what is met on the way up, or in so many steps of it, in any
  forest.

## Main results

* `Lineage.unique`, `Lineage.nodup`, `Lineage.ancestors_eq`.
* `Lineage.congr` — a lineage depends on the parent links along it alone.
* `mem_take_ancestors` — the nearest ancestors are what is met in so many steps up.
* `mem_ancestors_iff_above` — the bounded walk finds all that is above.
-/

namespace Cascade
namespace Forest

variable {t u : Forest} {h k p : Handle} {as bs : List Handle}

/-! ### Views of a forest -/

/-- The data of an element, without its links. -/
def data? (t : Forest) (h : Handle) : Option Element := (t.get? h).map Element.unlinked

/-- The children of an element; a handle that is not live has none. -/
def children (t : Forest) (h : Handle) : List Handle := ((t.get? h).map (·.children)).getD []

theorem contains_eq_data? (t : Forest) (h : Handle) : t.contains h = (t.data? h).isSome := by
  simp [contains, data?]

theorem contains_of_parent? (hp : t.parent? h = some p) : t.contains h = true := by
  cases hh : t.get? h with
  | none => simp [parent?, hh] at hp
  | some e => exact contains_of_get? hh

theorem contains_of_mem_children (hk : k ∈ t.children h) : t.contains h = true := by
  cases hh : t.get? h with
  | none => simp [children, hh] at hk
  | some e => exact contains_of_get? hh

theorem parent?_eq_none (hh : ¬ t.contains h = true) : t.parent? h = none := by
  simp [parent?, get?_eq_none hh]

theorem data?_of_get? {e : Element} (he : t.get? h = some e) : t.data? h = some e.unlinked := by
  rw [data?, he, Option.map_some]

theorem parent?_of_get? {e : Element} (he : t.get? h = some e) : t.parent? h = e.parent := by
  rw [parent?, he, Option.bind_some]

theorem children_of_get? {e : Element} (he : t.get? h = some e) : t.children h = e.children := by
  rw [children, he, Option.map_some, Option.getD_some]

/-- What a handle shows is its data, its parent and its children. -/
theorem get?_of_views {e : Element} (hd : t.data? h = some e.unlinked)
    (hp : t.parent? h = e.parent) (hc : t.children h = e.children) : t.get? h = some e := by
  unfold data? at hd
  unfold parent? at hp
  unfold children at hc
  cases hh : t.get? h with
  | none =>
    rw [hh] at hd
    cases hd
  | some e' =>
    obtain ⟨typeName, id, classes, pseudoClasses, parent, cs⟩ := e
    obtain ⟨typeName', id', classes', pseudoClasses', parent', cs'⟩ := e'
    rw [hh] at hd hp hc
    simp only [Option.map_some, Option.bind_some, Option.getD_some, Option.some.injEq,
      Element.unlinked, Element.mk.injEq] at hd hp hc ⊢
    tauto

/-! ### The way up -/

/-- `t.Lineage h as` says that the way up from `h` leads through `as` and ends at a root. -/
inductive Lineage (t : Forest) : Handle → List Handle → Prop
  /-- A root is at the end of its way. -/
  | root {h : Handle} : t.contains h = true → t.parent? h = none → t.Lineage h []
  /-- A child goes through its parent. -/
  | child {h p : Handle} {as : List Handle} :
    t.parent? h = some p → t.Lineage p as → t.Lineage h (p :: as)

namespace Lineage

theorem contains (hl : t.Lineage h as) : t.contains h = true := by
  cases hl with
  | root hc _ => exact hc
  | child hp _ => exact contains_of_parent? hp

/-- There is one way up. -/
theorem unique (hl : t.Lineage h as) (hm : t.Lineage h bs) : as = bs := by
  induction hl generalizing bs with
  | root _ hn =>
    cases hm with
    | root => rfl
    | child hp _ => rw [hn] at hp; cases hp
  -- both ways up take the same first step
  | child hp _ ih =>
    cases hm with
    | root _ hn => rw [hn] at hp; cases hp
    | child hp' hm =>
      rw [hp] at hp'
      cases hp'
      rw [ih hm]

/-- The way up from an ancestor is the rest of the way. -/
theorem of_append {cs : List Handle} (hl : t.Lineage h (bs ++ k :: cs)) : t.Lineage k cs := by
  induction bs generalizing h with
  | nil =>
    cases hl with
    | child _ hl => exact hl
  | cons b bs ih =>
    cases hl with
    | child _ hl => exact ih hl

theorem of_mem (hl : t.Lineage h as) (hk : k ∈ as) :
    ∃ bs cs, as = bs ++ k :: cs ∧ t.Lineage k cs := by
  obtain ⟨bs, cs, rfl⟩ := List.append_of_mem hk
  exact ⟨bs, cs, rfl, hl.of_append⟩

/-- All that is met on the way up is live. -/
theorem contains_of_mem (hl : t.Lineage h as) (hk : k ∈ h :: as) : t.contains k = true := by
  rcases List.mem_cons.1 hk with rfl | hk
  · exact hl.contains
  · obtain ⟨-, _, -, hk⟩ := hl.of_mem hk
    exact hk.contains

/-- No element is its own ancestor: the ways up from both places would be the same. -/
theorem notMem (hl : t.Lineage h as) : h ∉ as := by
  intro hm
  obtain ⟨bs, cs, rfl, hk⟩ := hl.of_mem hm
  have := congrArg List.length (hl.unique hk)
  simp at this
  omega

theorem nodup (hl : t.Lineage h as) : (h :: as).Nodup := by
  induction hl with
  | root => simp
  | child hp hl ih => exact List.nodup_cons.2 ⟨(Lineage.child hp hl).notMem, ih⟩

theorem length_lt (hl : t.Lineage h as) : as.length < t.slots.size :=
  length_le_of_contains hl.nodup fun _ => hl.contains_of_mem

theorem climb_eq (hl : t.Lineage h as) {n : Nat} (hn : as.length ≤ n) :
    t.climb n (t.parent? h) = as := by
  induction hl generalizing n with
  | root _ hp =>
    rw [hp]
    cases n <;> rfl
  | child hp _ ih =>
    cases n with
    | zero => simp at hn
    | succ n =>
      rw [hp, climb, ih (by simpa using hn)]

/-- The bounded walk goes all the way up. -/
theorem ancestors_eq (hl : t.Lineage h as) : t.ancestors h = as :=
  hl.climb_eq (Nat.le_of_lt hl.length_lt)

/-- The way down is the way up, backwards. -/
theorem pathFromRoot_eq (hl : t.Lineage h as) : t.pathFromRoot h = as.reverse ++ [h] := by
  rw [pathFromRoot, if_pos hl.contains, hl.ancestors_eq]

/-- A lineage depends on the parent links along it alone. -/
theorem congr (hl : t.Lineage h as)
    (hu : ∀ a ∈ h :: as, u.contains a = true ∧ u.parent? a = t.parent? a) : u.Lineage h as := by
  induction hl with
  | root _ hp =>
    obtain ⟨hc, hp'⟩ := hu _ (List.mem_singleton_self _)
    exact .root hc (hp'.trans hp)
  | child hp _ ih =>
    refine .child ((hu _ List.mem_cons_self).2.trans hp) (ih ?_)
    intro a ha
    exact hu a (List.mem_cons_of_mem _ ha)

end Lineage

/-! ### Ancestors -/

/-- A handle that is not live has no ancestors. -/
theorem ancestors_eq_nil (hh : ¬ t.contains h = true) : t.ancestors h = [] := by
  rw [ancestors, parent?_eq_none hh]
  cases t.slots.size <;> rfl

/-- The walk sees parent links only. -/
theorem climb_congr (hp : ∀ k, u.parent? k = t.parent? k) (n : Nat) (next : Option Handle) :
    u.climb n next = t.climb n next := by
  induction n generalizing next with
  | zero => rfl
  | succ n ih =>
    cases next with
    | none => rfl
    | some h => rw [climb, climb, hp, ih]

/-! ### Above -/

/-- `t.Above k h` says that `k` is met on the way up from `h`, whether or not that way ends. -/
def Above (t : Forest) (k h : Handle) : Prop :=
  Relation.TransGen (fun x y => t.parent? x = some y) h k

/-- `t.Way k h ps` says that the way up from `h` to `k` leads through `ps`. -/
inductive Way (t : Forest) (k : Handle) : Handle → List Handle → Prop
  /-- There is nothing to go. -/
  | here : t.Way k k []
  /-- Any other way goes through the parent. -/
  | step {h p : Handle} {ps : List Handle} :
    t.parent? h = some p → t.Way k p ps → t.Way k h (p :: ps)

namespace Way

variable {ps : List Handle}

theorem of_append {cs : List Handle} (hw : t.Way k h (bs ++ p :: cs)) : t.Way k p cs := by
  induction bs generalizing h with
  | nil =>
    cases hw with
    | step _ hw => exact hw
  | cons b bs ih =>
    cases hw with
    | step _ hw => exact ih hw

theorem contains_of_mem (hw : t.Way k h ps) (hk : t.contains k = true) :
    ∀ x ∈ h :: ps, t.contains x = true := by
  induction hw with
  | here =>
    intro x hx
    rw [List.mem_singleton.1 hx]
    exact hk
  | step hp _ ih =>
    intro x hx
    rcases List.mem_cons.1 hx with rfl | hx
    · exact contains_of_parent? hp
    · exact ih x hx

/-- A way that comes by an element again can be taken from there. -/
theorem exists_nodup (hw : t.Way k h ps) :
    ∃ qs, t.Way k h qs ∧ (h :: qs).Nodup ∧ qs.length ≤ ps.length := by
  induction hw with
  | here => exact ⟨[], .here, by simp, Nat.le_refl 0⟩
  | @step h p _ hp _ ih =>
    obtain ⟨qs, hw, hn, hlen⟩ := ih
    -- if the start is met again on the way, what lies between is left out
    by_cases hm : h ∈ p :: qs
    · obtain ⟨bs, cs, hcs⟩ := List.append_of_mem hm
      have hway : t.Way k h (bs ++ h :: cs) := hcs ▸ .step hp hw
      have hcut : (p :: qs).length = (bs ++ h :: cs).length := congrArg List.length hcs
      rw [hcs] at hn
      refine ⟨cs, hway.of_append, hn.sublist (List.sublist_append_right bs _), ?_⟩
      simp only [List.length_cons, List.length_append] at hcut ⊢
      omega
    · exact ⟨p :: qs, .step hp hw, List.nodup_cons.2 ⟨hm, hn⟩, Nat.succ_le_succ hlen⟩

theorem mem_climb {n : Nat} (hw : t.Way k h ps) (hn : ps.length < n) : k ∈ t.climb n (some h) := by
  induction hw generalizing n with
  | here =>
    obtain ⟨n, rfl⟩ := Nat.exists_eq_add_of_lt hn
    exact List.mem_cons_self
  | @step h p _ hp _ ih =>
    obtain ⟨n, rfl⟩ : ∃ m, n = m + 1 := ⟨n - 1, by omega⟩
    rw [climb, hp]
    exact List.mem_cons_of_mem h (ih (by simpa using hn))

end Way

theorem above_of_mem_climb {n : Nat} (hk : k ∈ t.climb n (t.parent? h)) : t.Above k h := by
  induction n generalizing h with
  | zero => cases hk
  | succ n ih =>
    cases hp : t.parent? h with
    | none =>
      rw [hp] at hk
      cases hk
    | some p =>
      rw [hp, climb, List.mem_cons] at hk
      rcases hk with rfl | hk
      · exact .single hp
      · exact .head hp (ih hk)

theorem exists_way (ha : Relation.ReflTransGen (fun x y => t.parent? x = some y) h k) :
    ∃ ps, t.Way k h ps := by
  induction ha using Relation.ReflTransGen.head_induction_on with
  | refl => exact ⟨[], .here⟩
  | head hp _ ih =>
    obtain ⟨ps, hw⟩ := ih
    exact ⟨_, .step hp hw⟩

/-! ### Walks with a limit -/

/-- `t.Near d k h` says that `k` is met in at most `d` steps up from `h`, and in one at least. -/
def Near (t : Forest) (d : Nat) (k h : Handle) : Prop :=
  ∃ ps, t.Way k h ps ∧ 0 < ps.length ∧ ps.length ≤ d

theorem take_climb (t : Forest) (d n : Nat) (next : Option Handle) :
    (t.climb n next).take d = t.climb (min d n) next := by
  induction n generalizing d next with
  | zero => rw [climb, List.take_nil, Nat.min_zero, climb]
  | succ n ih =>
    cases d with
    | zero => rw [List.take_zero, Nat.zero_min, climb]
    | succ d =>
      rw [Nat.add_min_add_right]
      cases next with
      | none => rfl
      | some h => rw [climb, climb, List.take_succ_cons, ih]

theorem near_of_mem_climb {n : Nat} (hk : k ∈ t.climb n (t.parent? h)) : t.Near n k h := by
  induction n generalizing h with
  | zero => cases hk
  | succ n ih =>
    cases hp : t.parent? h with
    | none =>
      rw [hp] at hk
      cases hk
    | some p =>
      rw [hp, climb, List.mem_cons] at hk
      rcases hk with rfl | hk
      · exact ⟨[k], .step hp .here, Nat.one_pos, Nat.le_add_left 1 n⟩
      · obtain ⟨ps, hw, -, hlen⟩ := ih hk
        exact ⟨p :: ps, .step hp hw, Nat.succ_pos _, Nat.succ_le_succ hlen⟩

/-- **The nearest ancestors are what is met in so many steps up,** in any forest: a way that meets
no element twice takes no more steps than there are slots. -/
theorem mem_take_ancestors {d : Nat} (hk : t.contains k = true) :
    k ∈ (t.ancestors h).take d ↔ t.Near d k h := by
  rw [ancestors, take_climb]
  constructor
  · intro hm
    obtain ⟨ps, hw, hpos, hlen⟩ := near_of_mem_climb hm
    exact ⟨ps, hw, hpos, Nat.le_trans hlen (Nat.min_le_left d _)⟩
  · rintro ⟨ps, hw, hpos, hlen⟩
    cases hw with
    | here => cases hpos
    | step hp hw =>
      -- without repetitions the way is within the bound of the walk
      obtain ⟨qs, hw, hn, hle⟩ := hw.exists_nodup
      have hslots := length_le_of_contains hn (hw.contains_of_mem hk)
      rw [hp]
      refine hw.mem_climb (Nat.lt_min.2 ⟨?_, hslots⟩)
      exact Nat.lt_of_lt_of_le (Nat.lt_succ_of_le hle) hlen

/-- **The bounded walk finds all that is above.** -/
theorem mem_ancestors_iff_above (hk : t.contains k = true) : k ∈ t.ancestors h ↔ t.Above k h := by
  refine ⟨above_of_mem_climb, fun ha => ?_⟩
  obtain ⟨p, hp, ha⟩ := Relation.TransGen.head'_iff.1 ha
  obtain ⟨ps, hw⟩ := exists_way ha
  exact List.mem_of_mem_take
    ((mem_take_ancestors hk).2 ⟨p :: ps, .step hp hw, Nat.succ_pos _, Nat.le_refl _⟩)

end Forest
end Cascade
