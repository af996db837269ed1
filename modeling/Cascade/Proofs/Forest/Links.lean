import Cascade.Proofs.Forest.Lineage
import Mathlib.Data.List.Nodup

/-!
# The links of a forest

Every link is kept twice, as the parent of the child and among the children of the
parent.  A forest is linked if the two sides tell the same story and every way up
ends at a root.  Each operation on links is described here by what it does to the
three views of an element — its data, its parent, its children — and is shown to
keep a forest linked.

## Main definitions

* `Forest.Linked` — the links are consistent and have no circle.

## Main results

* `parent?_detach`, `children_detach`, `parent?_attach`, `children_attach` — the
  operations, seen through the views.
* `Linked.insert`, `Linked.edit`, `Linked.detach`, `Linked.attach` — the forest stays linked.
* `eq_of_detach_error`, `eq_of_attach_error` — what is refused leaves the forest as it was.
-/

namespace Cascade
namespace Forest

variable {t u : Forest} {h k p child parent : Handle} {old : Option Handle} {err : ForestError}

/-- The links of a forest are consistent and have no circle. -/
structure Linked (t : Forest) : Prop where
  /-- The two sides of a link agree. -/
  mem_children : ∀ c p, c ∈ t.children p ↔ t.parent? c = some p
  /-- No child is listed twice. -/
  children_nodup : ∀ p, (t.children p).Nodup
  /-- Every way up ends at a root. -/
  rooted : ∀ h, t.contains h = true → ∃ as, t.Lineage h as

theorem linked_empty : ({} : Forest).Linked where
  mem_children c p := by simp [children, parent?, get?]
  children_nodup p := by simp [children, get?]
  rooted h hh := by simp [contains, get?] at hh

namespace Linked

/-- The bounded walk up is the lineage. -/
theorem lineage (hl : t.Linked) (hh : t.contains h = true) : t.Lineage h (t.ancestors h) := by
  obtain ⟨as, has⟩ := hl.rooted h hh
  rwa [has.ancestors_eq]

theorem contains_parent (hl : t.Linked) (hp : t.parent? h = some p) : t.contains p = true :=
  contains_of_mem_children ((hl.mem_children h p).2 hp)

theorem contains_child (hl : t.Linked) (hk : k ∈ t.children h) : t.contains k = true :=
  contains_of_parent? ((hl.mem_children k h).1 hk)

/-- A child has one place among the children of its parent. -/
theorem exists_split (hl : t.Linked) (hp : t.parent? h = some p) :
    ∃ front back, t.children p = front ++ h :: back ∧ h ∉ front ++ back ∧
      ((t.children p).filter fun c => decide (c ≠ h)) = front ++ back := by
  obtain ⟨front, back, heq⟩ := List.append_of_mem ((hl.mem_children h p).2 hp)
  have hnd := hl.children_nodup p
  rw [heq, List.nodup_middle, List.nodup_cons] at hnd
  refine ⟨front, back, heq, hnd.1, ?_⟩
  have hkeep : ∀ c ∈ front ++ back, decide (c ≠ h) = true := fun c hc =>
    decide_eq_true (ne_of_mem_of_not_mem hc hnd.1)
  rw [heq, List.filter_append, List.filter_cons_of_neg (by simp), ← List.filter_append,
    List.filter_eq_self.2 hkeep]

/-- Elements that are not the parent have nothing to lose. -/
theorem filter_children_eq_self (hl : t.Linked) (hk : t.parent? h ≠ some k) :
    ((t.children k).filter fun c => decide (c ≠ h)) = t.children k := by
  refine List.filter_eq_self.2 fun c hc => decide_eq_true ?_
  rintro rfl
  exact hk ((hl.mem_children c k).1 hc)

/-- The ancestors of a child are its parent and the parent's ancestors. -/
theorem ancestors_child (hl : t.Linked) (hp : t.parent? h = some p) :
    t.ancestors h = p :: t.ancestors p :=
  (Lineage.child hp (hl.lineage (hl.contains_parent hp))).ancestors_eq

theorem ancestors_root (hh : t.contains h = true) (hp : t.parent? h = none) : t.ancestors h = [] :=
  (Lineage.root hh hp).ancestors_eq

/-- All elements on the way up are live. -/
theorem contains_of_mem_path (hl : t.Linked) (hh : t.contains h = true)
    (hk : k ∈ h :: t.ancestors h) : t.contains k = true :=
  (hl.lineage hh).contains_of_mem hk

/-- Only live elements have ancestors. -/
theorem contains_of_mem_ancestors (hk : k ∈ t.ancestors h) : t.contains h = true := by
  by_cases hh : t.contains h = true
  · exact hh
  · rw [ancestors_eq_nil hh] at hk
    cases hk

/-- The way up from an ancestor is a part of the way up. -/
theorem ancestors_subset (hl : t.Linked) (hk : k ∈ t.ancestors h) :
    k :: t.ancestors k ⊆ t.ancestors h := by
  have hh := contains_of_mem_ancestors hk
  obtain ⟨bs, cs, heq, hcs⟩ := (hl.lineage hh).of_mem hk
  rw [hcs.ancestors_eq, heq]
  exact fun x hx => List.mem_append_right _ hx

theorem path_subset (hl : t.Linked) (hk : k ∈ h :: t.ancestors h) :
    k :: t.ancestors k ⊆ h :: t.ancestors h := by
  rcases List.mem_cons.1 hk with rfl | hk
  · exact fun _ hx => hx
  · exact fun x hx => List.mem_cons_of_mem _ (hl.ancestors_subset hk hx)

/-- No element is its own ancestor. -/
theorem notMem_ancestors (hl : t.Linked) (h : Handle) : h ∉ t.ancestors h := by
  by_cases hh : t.contains h = true
  · exact (hl.lineage hh).notMem
  · simp [ancestors_eq_nil hh]

/-- Of two elements on one way up, one is on the way up from the other. -/
theorem path_total (hl : t.Linked) {a b : Handle} (ha : a ∈ h :: t.ancestors h)
    (hb : b ∈ h :: t.ancestors h) : a ∈ b :: t.ancestors b ∨ b ∈ a :: t.ancestors a := by
  rcases List.mem_cons.1 ha with rfl | ha
  · exact .inr hb
  rcases List.mem_cons.1 hb with rfl | hb
  · exact .inl (List.mem_cons_of_mem _ ha)
  have hh := contains_of_mem_ancestors ha
  obtain ⟨xs, ys, heq, hys⟩ := (hl.lineage hh).of_mem ha
  rw [heq, List.mem_append] at hb
  rcases hb with hb | hb
  · -- `b` comes before `a`, so `a` is among its ancestors
    obtain ⟨vs, ws, rfl⟩ := List.append_of_mem hb
    have hlin := hl.lineage hh
    rw [heq, List.append_assoc, List.cons_append] at hlin
    refine .inl (List.mem_cons_of_mem _ ?_)
    rw [hlin.of_append.ancestors_eq]
    simp
  · exact .inr (by rwa [hys.ancestors_eq])

/-- An element on the way up is reached through one of its children. -/
theorem exists_child_of_mem_ancestors (hl : t.Linked) (ha : k ∈ t.ancestors h) :
    ∃ c ∈ h :: t.ancestors h, t.parent? c = some k := by
  have hh := contains_of_mem_ancestors ha
  have hlin := hl.lineage hh
  generalize t.ancestors h = as at ha hlin
  clear hh
  -- the last step before `k` on the way up is the one that is looked for
  induction hlin with
  | root => simp at ha
  | child hp _ ih =>
    rcases List.mem_cons.1 ha with rfl | ha
    · exact ⟨_, List.mem_cons_self, hp⟩
    · obtain ⟨c, hc, hcp⟩ := ih ha
      exact ⟨c, List.mem_cons_of_mem _ hc, hcp⟩

end Linked

/-! ### Insertion and data -/

theorem parent?_insert (hr : t.Ready) (e : Element) (k : Handle) :
    (t.insert e).2.parent? k = if k = (t.insert e).1 then none else t.parent? k := by
  rw [parent?, get?_insert hr e]
  split <;> rfl

theorem children_insert (hr : t.Ready) (e : Element) (k : Handle) :
    (t.insert e).2.children k = if k = (t.insert e).1 then [] else t.children k := by
  rw [children, get?_insert hr e]
  split <;> rfl

theorem contains_insert (hr : t.Ready) (e : Element) (k : Handle) :
    (t.insert e).2.contains k = true ↔ k = (t.insert e).1 ∨ t.contains k = true := by
  rw [contains, get?_insert hr e]
  split <;> simp_all [contains]

/-- The handle of an insertion is not met in the forest before. -/
theorem contains_insert_fst (hr : t.Ready) (e : Element) : ¬ t.contains (t.insert e).1 = true := by
  simp [contains, get?_insert_fst hr e]

@[simp] theorem parent?_edit (t : Forest) (h : Handle) (c : Element.Edit) (k : Handle) :
    (t.update h (·.edit c)).parent? k = t.parent? k := by
  rw [parent?, get?_update, parent?]
  split
  · next hk =>
    subst hk
    cases t.get? h <;> simp
  · rfl

@[simp] theorem ancestors_edit (t : Forest) (h : Handle) (c : Element.Edit) (k : Handle) :
    (t.update h (·.edit c)).ancestors k = t.ancestors k := by
  rw [ancestors, ancestors, slots_size_update, parent?_edit, climb_congr (parent?_edit t h c)]

@[simp] theorem children_edit (t : Forest) (h : Handle) (c : Element.Edit) (k : Handle) :
    (t.update h (·.edit c)).children k = t.children k := by
  rw [children, get?_update, children]
  split
  · next hk =>
    subst hk
    cases t.get? h <;> simp
  · rfl

/-- Links are what is seen behind handles. -/
theorem Linked.congr (hl : t.Linked) (hu : ∀ k, u.get? k = t.get? k) : u.Linked := by
  have hparent : ∀ k, u.parent? k = t.parent? k := fun k => by rw [parent?, hu, parent?]
  have hchildren : ∀ k, u.children k = t.children k := fun k => by rw [children, hu, children]
  have hlive : ∀ k, u.contains k = t.contains k := fun k => by rw [contains, hu, contains]
  refine ⟨?_, ?_, ?_⟩
  · intro c p
    rw [hchildren, hparent, hl.mem_children]
  · intro p
    rw [hchildren]
    exact hl.children_nodup p
  · intro h hh
    obtain ⟨as, has⟩ := hl.rooted h (by rwa [hlive] at hh)
    exact ⟨as, has.congr fun a ha => ⟨by rw [hlive, has.contains_of_mem ha], hparent a⟩⟩

/-- A new element has no links, whether or not it can be seen. -/
theorem Linked.insert (hl : t.Linked) (ht : t.Tallied) (e : Element) : (t.insert e).2.Linked := by
  by_cases hfull : t.free = [] ∧ 2 ^ 32 ≤ t.slots.size
  · exact hl.congr (get?_insert_of_full hfull.1 hfull.2 e)
  have hr : t.Ready := ⟨ht, fun hf => Nat.lt_of_not_le fun hle => hfull ⟨hf, hle⟩⟩
  have hfresh := contains_insert_fst hr e
  refine ⟨?_, ?_, ?_⟩
  · intro c p
    rw [children_insert hr, parent?_insert hr]
    split
    · next hp =>
      -- the new element is nobody's parent: it was not live
      split
      · simp
      · have : t.parent? c ≠ some p := fun hc => hfresh (hp ▸ hl.contains_parent hc)
        simp [this]
    · split
      · next hc =>
        have : c ∉ t.children p := fun hm => hfresh (hc ▸ hl.contains_child hm)
        simp [this]
      · exact hl.mem_children c p
  · intro p
    rw [children_insert hr]
    split
    · exact List.nodup_nil
    · exact hl.children_nodup p
  · intro h hh
    rcases (contains_insert hr e h).1 hh with rfl | hold
    · exact ⟨[], .root hh (by rw [parent?_insert hr, if_pos rfl])⟩
    · obtain ⟨as, has⟩ := hl.rooted h hold
      refine ⟨as, has.congr ?_⟩
      intro a ha
      have hlive := has.contains_of_mem ha
      have hne : a ≠ (t.insert e).1 := fun he => hfresh (he ▸ hlive)
      refine ⟨(contains_insert hr e a).2 (.inr hlive), ?_⟩
      rw [parent?_insert hr, if_neg hne]

theorem Linked.edit (hl : t.Linked) (h : Handle) (c : Element.Edit) :
    (t.update h (·.edit c)).Linked where
  mem_children x p := by simpa using hl.mem_children x p
  children_nodup p := by simpa using hl.children_nodup p
  rooted k hk := by
    obtain ⟨as, has⟩ := hl.rooted k (by simpa using hk)
    exact ⟨as, has.congr fun a ha => by simpa using has.contains_of_mem ha⟩

/-! ### Changing one side of a link -/

/-- The forest with another parent link for `h`. -/
def setParent (t : Forest) (h : Handle) (q : Option Handle) : Forest :=
  t.update h fun e => { e with parent := q }

/-- The forest with other child links for `h`. -/
def mapChildren (t : Forest) (h : Handle) (f : List Handle → List Handle) : Forest :=
  t.update h fun e => { e with children := f e.children }

@[simp] theorem contains_setParent (t : Forest) (h k : Handle) (q : Option Handle) :
    (t.setParent h q).contains k = t.contains k := contains_update t h k _

@[simp] theorem data?_setParent (t : Forest) (h k : Handle) (q : Option Handle) :
    (t.setParent h q).data? k = t.data? k := by
  rw [data?, setParent, get?_update, data?]
  split
  · next hk => subst hk; cases t.get? h <;> rfl
  · rfl

@[simp] theorem data?_mapChildren (t : Forest) (h k : Handle) (f : List Handle → List Handle) :
    (t.mapChildren h f).data? k = t.data? k := by
  rw [data?, mapChildren, get?_update, data?]
  split
  · next hk => subst hk; cases t.get? h <;> rfl
  · rfl

@[simp] theorem parent?_setParent (t : Forest) (h k : Handle) (q : Option Handle) :
    (t.setParent h q).parent? k =
      if h = k then (if t.contains h then q else none) else t.parent? k := by
  rw [parent?, setParent, get?_update, contains]
  split
  · next hk => subst hk; cases t.get? h <;> simp
  · rfl

@[simp] theorem parent?_mapChildren (t : Forest) (h k : Handle) (f : List Handle → List Handle) :
    (t.mapChildren h f).parent? k = t.parent? k := by
  rw [parent?, mapChildren, get?_update, parent?]
  split
  · next hk => subst hk; cases t.get? h <;> rfl
  · rfl

@[simp] theorem children_setParent (t : Forest) (h k : Handle) (q : Option Handle) :
    (t.setParent h q).children k = t.children k := by
  rw [children, setParent, get?_update, children]
  split
  · next hk => subst hk; cases t.get? h <;> rfl
  · rfl

@[simp] theorem children_mapChildren (t : Forest) (h k : Handle) (f : List Handle → List Handle) :
    (t.mapChildren h f).children k =
      if h = k then (if t.contains h then f (t.children h) else []) else t.children k := by
  rw [children, mapChildren, get?_update, contains, children]
  split
  · next hk => subst hk; cases t.get? h <;> simp
  · rfl

/-! ### Detaching -/

theorem require_stale (hh : ¬ t.contains h = true) : t.require h = .error (.staleHandle h) := by
  rw [require, get?_eq_none hh]

theorem require_of_contains (hh : t.contains h = true) : ∃ e, t.require h = .ok e := by
  obtain ⟨e, he⟩ := contains_iff.1 hh
  exact ⟨e, by rw [require, he]⟩

theorem detach_stale (hh : ¬ t.contains h = true) :
    t.detach h = (.error (.staleHandle h), t) := by
  rw [Forest.detach, require_stale hh]

/-- What a successful detachment does: nothing to a root, and to any other element
two updates. -/
theorem detach_eq_ok (hd : t.detach child = (.ok old, u)) :
    t.contains child = true ∧ old = t.parent? child ∧
      ((old = none ∧ u = t) ∨ ∃ p, old = some p ∧
        u = (t.mapChildren p fun cs =>
          cs.filter fun c => decide (c ≠ child)).setParent child none) := by
  unfold Forest.detach require at hd
  cases hc : t.get? child with
  | none => simp [hc] at hd
  | some e =>
    have hp : t.parent? child = e.parent := by simp [parent?, hc]
    rw [hc] at hd
    rw [hp]
    cases he : e.parent with
    | none =>
      simp only [he, Except.ok.injEq, Prod.mk.injEq] at hd
      obtain ⟨rfl, rfl⟩ := hd
      exact ⟨contains_of_get? hc, rfl, .inl ⟨rfl, rfl⟩⟩
    | some p =>
      simp only [he, Except.ok.injEq, Prod.mk.injEq] at hd
      obtain ⟨rfl, rfl⟩ := hd
      exact ⟨contains_of_get? hc, rfl, .inr ⟨p, rfl, rfl⟩⟩

/-- Detaching fails exactly on a handle that is not live. -/
theorem detach_of_contains (hc : t.contains child = true) :
    ∃ u, t.detach child = (.ok (t.parent? child), u) := by
  obtain ⟨e, he⟩ := contains_iff.1 hc
  cases hp : e.parent <;> simp [Forest.detach, require, parent?, he, hp]

/-- A refused detachment leaves the forest as it is. -/
theorem eq_of_detach_error (hd : t.detach child = (.error err, u)) : u = t := by
  by_cases hc : t.contains child = true
  · obtain ⟨v, hv⟩ := detach_of_contains hc
    rw [hv] at hd
    cases hd
  · rw [detach_stale hc] at hd
    cases hd
    rfl

/-- **What every update keeps, a detachment keeps.** -/
theorem detach_keeps {P : Forest → Prop} (hP : ∀ t h f, P t → P (t.update h f)) (ht : P t)
    (hd : t.detach child = (.ok old, u)) : P u := by
  rcases (detach_eq_ok hd).2.2 with ⟨-, rfl⟩ | ⟨p, -, rfl⟩
  · exact ht
  · exact hP _ _ _ (hP _ _ _ ht)

theorem slots_size_detach (hd : t.detach child = (.ok old, u)) : u.slots.size = t.slots.size :=
  detach_keeps (P := fun v => v.slots.size = t.slots.size)
    (fun v h f hv => (slots_size_update v h f).trans hv) rfl hd

theorem Tallied.detach (ht : t.Tallied) (hd : t.detach child = (.ok old, u)) : u.Tallied :=
  detach_keeps (fun _ h f hv => hv.update h f) ht hd

theorem Slotted.detach (hs : t.Slotted) (hd : t.detach child = (.ok old, u)) : u.Slotted :=
  detach_keeps (fun _ h f hv => hv.update h f) hs hd

theorem size_detach (hd : t.detach child = (.ok old, u)) : u.size = t.size :=
  detach_keeps (P := fun v => v.size = t.size) (fun v h f hv => (size_update v h f).trans hv) rfl hd

/-- Detaching changes no data. -/
theorem data?_detach (hd : t.detach child = (.ok old, u)) (k : Handle) : u.data? k = t.data? k := by
  rcases (detach_eq_ok hd).2.2 with ⟨-, rfl⟩ | ⟨p, -, rfl⟩
  · rfl
  · simp

theorem contains_detach (hd : t.detach child = (.ok old, u)) (k : Handle) :
    u.contains k = t.contains k := by
  rw [contains_eq_data?, contains_eq_data?, data?_detach hd]

/-- A detached element has no parent, every other one the same as before. -/
theorem parent?_detach (hd : t.detach child = (.ok old, u)) (k : Handle) :
    u.parent? k = if k = child then none else t.parent? k := by
  obtain ⟨hc, rfl, ⟨hp, rfl⟩ | ⟨p, -, rfl⟩⟩ := detach_eq_ok hd
  · split
    · next hk => rw [hk, hp]
    · rfl
  · by_cases hk : child = k
    · simp [hk]
    · simp [hk, Ne.symm hk]

/-- A detached element is nobody's child any more; the other children keep their order. -/
theorem children_detach (hl : t.Linked) (hd : t.detach child = (.ok old, u)) (k : Handle) :
    u.children k = (t.children k).filter fun c => decide (c ≠ child) := by
  obtain ⟨hc, rfl, ⟨hp, rfl⟩ | ⟨p, hp, rfl⟩⟩ := detach_eq_ok hd
  · exact (hl.filter_children_eq_self (by rw [hp]; exact nofun)).symm
  · rw [children_setParent, children_mapChildren]
    by_cases hk : p = k
    · rw [if_pos hk, if_pos (hl.contains_parent hp), hk]
    · rw [if_neg hk]
      exact (hl.filter_children_eq_self (by rw [hp]; simpa using hk)).symm

theorem Linked.detach (hl : t.Linked) (hd : t.detach child = (.ok old, u)) : u.Linked := by
  refine ⟨?_, ?_, ?_⟩
  · intro c p
    rw [children_detach hl hd, parent?_detach hd, List.mem_filter, hl.mem_children]
    by_cases hc : c = child <;> simp [hc]
  · intro p
    rw [children_detach hl hd]
    exact (hl.children_nodup p).filter _
  · intro h hh
    -- the way up now ends at the detached element, if it led through it
    obtain ⟨as, has⟩ := hl.rooted h (by rwa [contains_detach hd] at hh)
    induction has with
    | root hc hp => exact ⟨[], .root hh (by rw [parent?_detach hd, hp, ite_self])⟩
    | @child h p as hp hup ih =>
      by_cases hc : h = child
      · exact ⟨[], .root hh (by rw [parent?_detach hd, if_pos hc])⟩
      · obtain ⟨bs, hbs⟩ := ih (by rw [contains_detach hd]; exact hup.contains)
        exact ⟨p :: bs, .child (by rw [parent?_detach hd, if_neg hc, hp]) hbs⟩

/-! ### Attaching -/

/-- The child is checked before the parent, and both before their relation. -/
theorem attach_stale (hh : [child, parent].find? (fun k => !t.contains k) = some h) :
    t.attach child parent = (.error (.staleHandle h), t) := by
  by_cases hc : t.contains child = true
  · obtain ⟨hp, rfl⟩ : ¬ t.contains parent = true ∧ parent = h := by simpa [hc] using hh
    obtain ⟨e, he⟩ := require_of_contains hc
    rw [Forest.attach, he, require_stale hp]
  · obtain rfl : child = h := by simpa [hc] using hh
    rw [Forest.attach, require_stale hc]

/-- Between live elements the relation decides. -/
theorem attach_of_contains (hc : t.contains child = true) (hp : t.contains parent = true) :
    ∃ u, t.attach child parent =
      if child = parent then (.error (.selfParent child), t)
      else if child ∈ t.ancestors parent then (.error (.wouldCreateCycle child parent), t)
      else (.ok (), u) := by
  obtain ⟨e, he⟩ := require_of_contains hc
  obtain ⟨f, hf⟩ := require_of_contains hp
  obtain ⟨u, hu⟩ := detach_of_contains hc
  exact ⟨_, by rw [Forest.attach, he, hf, hu]⟩

/-- A refused attachment leaves the forest as it is. -/
theorem eq_of_attach_error (ha : t.attach child parent = (.error err, u)) : u = t := by
  cases hs : [child, parent].find? fun k => !t.contains k with
  | some h =>
    rw [attach_stale hs] at ha
    cases ha
    rfl
  | none =>
    obtain ⟨hc, hp⟩ : t.contains child = true ∧ t.contains parent = true := by
      simpa using List.find?_eq_none.1 hs
    obtain ⟨v, hv⟩ := attach_of_contains hc hp
    rw [hv] at ha
    split at ha
    · cases ha
      rfl
    · split at ha <;> cases ha
      rfl

/-- What a successful attachment has checked, and what it does. -/
theorem attach_eq_ok (ha : t.attach child parent = (.ok (), u)) :
    t.contains child = true ∧ t.contains parent = true ∧ child ≠ parent ∧
      child ∉ t.ancestors parent ∧ ∃ old v, t.detach child = (.ok old, v) ∧
        u = (v.setParent child (some parent)).mapChildren parent (· ++ [child]) := by
  unfold Forest.attach require at ha
  cases hc : t.get? child with
  | none => simp [hc] at ha
  | some e =>
    cases hp : t.get? parent with
    | none => simp [hc, hp] at ha
    | some f =>
      simp only [hc, hp] at ha
      split at ha
      · simp at ha
      · next hne =>
        split at ha
        · simp at ha
        · next hanc =>
          obtain ⟨v, hv⟩ := detach_of_contains (contains_of_get? hc)
          rw [hv] at ha
          cases ha
          exact ⟨contains_of_get? hc, contains_of_get? hp, hne, hanc, _, v, hv, rfl⟩

/-- **What every update keeps, an attachment keeps.** -/
theorem attach_keeps {P : Forest → Prop} (hP : ∀ t h f, P t → P (t.update h f)) (ht : P t)
    (ha : t.attach child parent = (.ok (), u)) : P u := by
  obtain ⟨-, -, -, -, old, v, hv, rfl⟩ := attach_eq_ok ha
  exact hP _ _ _ (hP _ _ _ (detach_keeps hP ht hv))

theorem slots_size_attach (ha : t.attach child parent = (.ok (), u)) :
    u.slots.size = t.slots.size :=
  attach_keeps (P := fun v => v.slots.size = t.slots.size)
    (fun v h f hv => (slots_size_update v h f).trans hv) rfl ha

theorem Tallied.attach (ht : t.Tallied) (ha : t.attach child parent = (.ok (), u)) : u.Tallied :=
  attach_keeps (fun _ h f hv => hv.update h f) ht ha

theorem Slotted.attach (hs : t.Slotted) (ha : t.attach child parent = (.ok (), u)) : u.Slotted :=
  attach_keeps (fun _ h f hv => hv.update h f) hs ha

/-- Attaching changes no data. -/
theorem data?_attach (ha : t.attach child parent = (.ok (), u)) (k : Handle) :
    u.data? k = t.data? k := by
  obtain ⟨-, -, -, -, old, v, hv, rfl⟩ := attach_eq_ok ha
  rw [data?_mapChildren, data?_setParent, data?_detach hv]

theorem contains_attach (ha : t.attach child parent = (.ok (), u)) (k : Handle) :
    u.contains k = t.contains k := by
  rw [contains_eq_data?, contains_eq_data?, data?_attach ha]

/-- An attached element has the new parent, every other one the same as before. -/
theorem parent?_attach (ha : t.attach child parent = (.ok (), u)) (k : Handle) :
    u.parent? k = if k = child then some parent else t.parent? k := by
  obtain ⟨hc, -, -, -, old, v, hv, rfl⟩ := attach_eq_ok ha
  rw [parent?_mapChildren, parent?_setParent, parent?_detach hv, contains_detach hv, if_pos hc]
  by_cases hk : k = child
  · rw [if_pos hk.symm, if_pos hk]
  · rw [if_neg (Ne.symm hk), if_neg hk, if_neg hk]

/-- An attached element is the last child of its new parent and nobody else's; the other
children keep their order. -/
theorem children_attach (hl : t.Linked) (ha : t.attach child parent = (.ok (), u)) (k : Handle) :
    u.children k =
      (t.children k).filter (fun c => decide (c ≠ child)) ++
        if k = parent then [child] else [] := by
  obtain ⟨-, hp, -, -, old, v, hv, rfl⟩ := attach_eq_ok ha
  rw [children_mapChildren, contains_setParent, contains_detach hv, if_pos hp, children_setParent,
    children_setParent, children_detach hl hv, children_detach hl hv]
  by_cases hk : parent = k
  · rw [if_pos hk, if_pos hk.symm, hk]
  · rw [if_neg hk, if_neg (Ne.symm hk), List.append_nil]

theorem Linked.attach (hl : t.Linked) (ha : t.attach child parent = (.ok (), u)) : u.Linked := by
  obtain ⟨hc, hp, hne, hanc, -⟩ := attach_eq_ok ha
  -- the way up from the new parent does not meet the child, so it stays as it is
  have hup : u.Lineage parent (t.ancestors parent) := by
    refine (hl.lineage hp).congr ?_
    intro a ha'
    have hac : a ≠ child := by
      rintro rfl
      rcases List.mem_cons.1 ha' with h | h
      · exact hne h
      · exact hanc h
    exact ⟨by rw [contains_attach ha]; exact hl.contains_of_mem_path hp ha',
      by rw [parent?_attach ha, if_neg hac]⟩
  refine ⟨?_, ?_, ?_⟩
  · intro c p
    rw [children_attach hl ha, parent?_attach ha, List.mem_append, List.mem_filter,
      hl.mem_children]
    -- the child has one parent now, and the others have theirs
    by_cases hcc : c = child
    · by_cases hpp : p = parent
      · simp [hcc, hpp]
      · simp [hcc, hpp, Ne.symm hpp]
    · by_cases hpp : p = parent <;> simp [hcc, hpp]
  · intro p
    rw [children_attach hl ha]
    have hnd : ((t.children p).filter fun c => decide (c ≠ child)).Nodup :=
      (hl.children_nodup p).filter _
    split
    · exact List.nodup_append.2 ⟨hnd, by simp, by simp⟩
    · rwa [List.append_nil]
  · intro h hh
    -- the way up is the old one, or joins that of the new parent at the child
    rw [contains_attach ha] at hh
    obtain ⟨as, has⟩ := hl.rooted h hh
    induction has with
    | @root h hh' hr =>
      by_cases hk : h = child
      · exact ⟨_, .child (by rw [parent?_attach ha, if_pos hk]) hup⟩
      · exact ⟨[], .root (by rwa [contains_attach ha]) (by rw [parent?_attach ha, if_neg hk, hr])⟩
    | @child h q as hq hlin ih =>
      by_cases hk : h = child
      · exact ⟨_, .child (by rw [parent?_attach ha, if_pos hk]) hup⟩
      · obtain ⟨bs, hbs⟩ := ih hlin.contains
        exact ⟨q :: bs, .child (by rw [parent?_attach ha, if_neg hk, hq]) hbs⟩

end Forest
end Cascade
