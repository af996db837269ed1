import Cascade.Proofs.Forest.Preorder

/-!
# Paths that stay the same

The path of an element is what leads from a root down to it.  A change of a forest
leaves a path the same unless it concerns an element on it: then all that is found
upwards from there, data and links, is what was found before.

## Main definitions

* `Forest.SamePath` — a handle stands for the same element, under the same ancestors, in two
  forests.

## Main results

* `SamePath.of_lineage` — what has to be compared.
* `samePath_insert`, `samePath_edit`, `samePath_detach`, `samePath_attach`, `samePath_destroy` —
  the paths that an operation leaves the same.
-/

namespace Cascade
namespace Forest

variable {t u v : Forest} {h k child parent : Handle} {as : List Handle}

/-- A handle stands for the same element in two forests, and so do its ancestors. -/
def SamePath (t u : Forest) (h : Handle) : Prop :=
  ∃ as, t.Lineage h as ∧ u.Lineage h as ∧ ∀ a ∈ h :: as, u.data? a = t.data? a

namespace SamePath

theorem of_lineage (hl : t.Lineage h as)
    (hu : ∀ a ∈ h :: as, u.data? a = t.data? a ∧ u.parent? a = t.parent? a) : t.SamePath u h := by
  refine ⟨as, hl, hl.congr ?_, fun a ha => (hu a ha).1⟩
  intro a ha
  rw [contains_eq_data?, (hu a ha).1, ← contains_eq_data?]
  exact ⟨hl.contains_of_mem ha, (hu a ha).2⟩

theorem refl (hl : t.Linked) (hh : t.contains h = true) : t.SamePath t h :=
  of_lineage (hl.lineage hh) fun _ _ => ⟨rfl, rfl⟩

theorem symm (hs : t.SamePath u h) : u.SamePath t h := by
  obtain ⟨as, hl, hl', hdata⟩ := hs
  exact ⟨as, hl', hl, fun a ha => (hdata a ha).symm⟩

theorem trans (hs : t.SamePath u h) (hs' : u.SamePath v h) : t.SamePath v h := by
  obtain ⟨as, hl, hl', hdata⟩ := hs
  obtain ⟨bs, hm, hm', hdata'⟩ := hs'
  obtain rfl := hl'.unique hm
  exact ⟨as, hl, hm', fun a ha => (hdata' a ha).trans (hdata a ha)⟩

theorem ancestors_eq (hs : t.SamePath u h) : u.ancestors h = t.ancestors h := by
  obtain ⟨as, hl, hl', -⟩ := hs
  rw [hl.ancestors_eq, hl'.ancestors_eq]

theorem contains (hs : t.SamePath u h) : t.contains h = true ∧ u.contains h = true := by
  obtain ⟨as, hl, hl', -⟩ := hs
  exact ⟨hl.contains, hl'.contains⟩

theorem pathFromRoot_eq (hs : t.SamePath u h) : u.pathFromRoot h = t.pathFromRoot h := by
  unfold pathFromRoot
  rw [hs.contains.1, hs.contains.2, hs.ancestors_eq]

/-- The path of an ancestor is part of the path. -/
theorem of_mem (hs : t.SamePath u h) (hk : k ∈ h :: t.ancestors h) : t.SamePath u k := by
  obtain ⟨as, hl, hl', hdata⟩ := hs
  rw [hl.ancestors_eq] at hk
  rcases List.mem_cons.1 hk with rfl | hk
  · exact ⟨as, hl, hl', hdata⟩
  · obtain ⟨bs, cs, rfl, hlk⟩ := hl.of_mem hk
    exact ⟨cs, hlk, hl'.of_append, fun a ha =>
      hdata a (List.mem_cons_of_mem h (List.mem_append_right bs ha))⟩

end SamePath

/-- The way down leads through the path. -/
theorem mem_pathFromRoot (hh : t.contains h = true) :
    k ∈ t.pathFromRoot h ↔ k ∈ h :: t.ancestors h := by
  rw [pathFromRoot, if_pos hh, List.mem_append, List.mem_reverse, List.mem_singleton,
    List.mem_cons, or_comm]

/-! ### Operations -/

/-- Outside a subtree no path leads through its root. -/
theorem ne_of_notMem_subtree (hl : t.Linked) (hk : t.contains k = true) (hm : k ∉ t.subtree h)
    {a : Handle} (ha : a ∈ k :: t.ancestors k) : a ≠ h := by
  rintro rfl
  exact hm ((mem_subtree hl).2 ⟨hk, ha⟩)

/-- A new element is on no path. -/
theorem samePath_insert (ht : t.Sound) (e : Element) (hsz : (t.insert e).2.slots.size ≤ 2 ^ 32)
    (hk : t.contains k = true) : t.SamePath (t.insert e).2 k := by
  have hr := ht.slotted.ready hsz
  refine .of_lineage (ht.linked.lineage hk) ?_
  intro a ha
  have hne : a ≠ (t.insert e).1 := by
    rintro rfl
    exact contains_insert_fst hr e (ht.linked.contains_of_mem_path hk ha)
  rw [data?, get?_insert hr, if_neg hne, parent?_insert hr, if_neg hne]
  exact ⟨rfl, rfl⟩

/-- An edit concerns the paths in the subtree of the element. -/
theorem samePath_edit (hl : t.Linked) (c : Element.Edit) (hk : t.contains k = true)
    (hm : k ∉ t.subtree h) : t.SamePath (t.update h (·.edit c)) k := by
  refine .of_lineage (hl.lineage hk) fun a ha => ⟨?_, parent?_edit t h c a⟩
  rw [data?, data?, get?_update, if_neg (Ne.symm (ne_of_notMem_subtree hl hk hm ha))]

/-- Detaching concerns the paths in the subtree that is detached. -/
theorem samePath_detach (hl : t.Linked) {old : Option Handle}
    (hd : t.detach child = (.ok old, u)) (hk : t.contains k = true) (hm : k ∉ u.subtree child) :
    t.SamePath u k := by
  rw [subtree_detach hl hd] at hm
  refine .of_lineage (hl.lineage hk) fun a ha => ⟨data?_detach hd a, ?_⟩
  rw [parent?_detach hd, if_neg (ne_of_notMem_subtree hl hk hm ha)]

/-- Attaching concerns the paths in the subtree that is attached. -/
theorem samePath_attach (hl : t.Linked) (ha : t.attach child parent = (.ok (), u))
    (hk : t.contains k = true) (hm : k ∉ u.subtree child) : t.SamePath u k := by
  have hl' := hl.attach ha
  have hk' : u.contains k = true := by rwa [contains_attach ha]
  -- the way up is taken in the new forest, where it is known to avoid the child
  refine SamePath.symm (.of_lineage (hl'.lineage hk') ?_)
  intro a ham
  rw [data?_attach ha, parent?_attach ha, if_neg (ne_of_notMem_subtree hl' hk' hm ham)]
  exact ⟨rfl, rfl⟩

/-- Destruction leaves the paths of all survivors the same. -/
theorem samePath_destroy (hl : t.Linked) {removed : List Handle}
    (hd : t.destroy h = (.ok removed, u)) (hk : t.contains k = true) (hm : k ∉ t.subtree h) :
    t.SamePath u k := by
  refine .of_lineage (hl.lineage hk) ?_
  intro a ha
  have hout := notMem_subtree_of_mem_path hl hk hm ha
  rw [data?_destroy hl hd, if_neg hout, parent?_destroy hl hd, if_neg hout]
  exact ⟨rfl, rfl⟩

end Forest
end Cascade
