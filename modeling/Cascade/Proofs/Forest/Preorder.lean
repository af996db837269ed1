import Cascade.Proofs.Forest.Links

/-!
# The walk down a forest

`Forest.Preorder` relates the handles on a stack to the list of all that a walk down
from them meets, each element before its children.  In a linked forest the bounded
walk `Forest.subtree` is complete, meets exactly the elements below its start, and
meets each of them once; emptying the slots it has met is what makes up a
destruction.

## Main definitions

* `Forest.Preorder` — the walk down, without a bound.
* `Forest.Sound` — the books are right and the links are linked.

## Main results

* `mem_subtree`, `nodup_subtree`, `preorder_subtree` — what a subtree consists of.
* `destroy_eq_ok`, `get?_destroy` — what a destruction does.
* `eq_of_destroy_error` — what is refused leaves the forest as it was.
* `linked_destroy`, `tallied_destroy` — links and books are right afterwards.
-/

namespace Cascade
namespace Forest

variable {t u : Forest} {h k x : Handle} {hs ks out out' removed : List Handle}
  {err : ForestError}

/-- `t.Preorder hs out` says that walking down from the handles of `hs`, one after the
other, meets the elements of `out` in this order. -/
inductive Preorder (t : Forest) : List Handle → List Handle → Prop
  /-- Nowhere to go. -/
  | nil : t.Preorder [] []
  /-- An element, then all below it, then the rest of the stack. -/
  | visit {h : Handle} {stack below rest : List Handle} : t.contains h = true →
    t.Preorder (t.children h) below → t.Preorder stack rest →
    t.Preorder (h :: stack) (h :: (below ++ rest))

namespace Preorder

theorem append (hp : t.Preorder hs out) (hq : t.Preorder ks out') :
    t.Preorder (hs ++ ks) (out ++ out') := by
  induction hp with
  | nil => exact hq
  | visit hc hb _ _ ih =>
    rw [List.cons_append, List.cons_append, List.append_assoc]
    exact .visit hc hb ih

/-- The bounded walk meets all that the unbounded one meets. -/
theorem descend_eq {n : Nat} (hp : t.Preorder hs out) (hn : out.length ≤ n) :
    t.descend n hs = out := by
  induction n generalizing hs out with
  | zero =>
    cases hp with
    | nil => rfl
    | visit => simp at hn
  | succ n ih =>
    cases hp with
    | nil => rfl
    | @visit h stack below rest hc hb hr =>
      obtain ⟨e, he⟩ := contains_iff.1 hc
      have hch : t.children h = e.children := by simp [children, he]
      rw [descend]
      simp only [he]
      rw [ih (hch ▸ hb.append hr) (by simpa using hn)]

/-- The walk meets the live elements on or below its starting points. -/
theorem mem_iff (hl : t.Linked) (hp : t.Preorder hs out) :
    x ∈ out ↔ t.contains x = true ∧ ∃ h ∈ hs, h ∈ x :: t.ancestors x := by
  induction hp with
  | nil => simp
  | @visit h stack below rest hc _ _ ihb ihr =>
    rw [List.mem_cons, List.mem_append, ihb, ihr]
    constructor
    · rintro (rfl | ⟨hx, c, hch, hcx⟩ | ⟨hx, k, hk, hkx⟩)
      · exact ⟨hc, _, List.mem_cons_self, List.mem_cons_self⟩
      · -- below a child of `h`, hence below `h`
        have hpar := (hl.mem_children c h).1 hch
        refine ⟨hx, h, List.mem_cons_self, hl.path_subset hcx ?_⟩
        rw [hl.ancestors_child hpar]
        simp
      · exact ⟨hx, k, List.mem_cons_of_mem _ hk, hkx⟩
    · rintro ⟨hx, k, hk, hkx⟩
      rcases List.mem_cons.1 hk with rfl | hk
      · rcases List.mem_cons.1 hkx with rfl | hkx
        · exact .inl rfl
        · obtain ⟨c, hcx, hpar⟩ := hl.exists_child_of_mem_ancestors hkx
          exact .inr (.inl ⟨hx, c, (hl.mem_children c k).2 hpar, hcx⟩)
      · exact .inr (.inr ⟨hx, k, hk, hkx⟩)

/-- Walks from starting points none of which lies above another meet nothing twice. -/
theorem nodup (hl : t.Linked) (hp : t.Preorder hs out) (hn : hs.Nodup)
    (hinc : ∀ a ∈ hs, ∀ b ∈ hs, a ∈ b :: t.ancestors b → a = b) : out.Nodup := by
  induction hp with
  | nil => exact List.nodup_nil
  | @visit h stack below rest hc hb hr ihb ihr =>
    rw [List.nodup_cons] at hn
    have hchild : ∀ c ∈ t.children h, h ∈ t.ancestors c := by
      intro c hm
      rw [hl.ancestors_child ((hl.mem_children c h).1 hm)]
      exact List.mem_cons_self
    -- a child of `h` is not on the way up from `h`
    have hnot : ∀ c ∈ t.children h, c ∉ h :: t.ancestors h := fun c hm hup =>
      hl.notMem_ancestors c (by
        rw [hl.ancestors_child ((hl.mem_children c h).1 hm)]
        exact hup)
    have hbelow : below.Nodup := by
      refine ihb (hl.children_nodup h) ?_
      intro a ha b hb hab
      rcases List.mem_cons.1 hab with hab | hab
      · exact hab
      · rw [hl.ancestors_child ((hl.mem_children b h).1 hb)] at hab
        exact absurd hab (hnot a ha)
    have hrest : rest.Nodup := ihr hn.2 fun a ha b hb =>
      hinc a (List.mem_cons_of_mem _ ha) b (List.mem_cons_of_mem _ hb)
    -- nothing on or below `h` is below another starting point
    have hapart : ∀ x, h ∈ x :: t.ancestors x → x ∉ rest := by
      intro x hx hm
      obtain ⟨-, k, hk, hkx⟩ := (hr.mem_iff hl).1 hm
      have hkh : k = h := by
        rcases hl.path_total hx hkx with hup | hup
        · exact (hinc h List.mem_cons_self k (List.mem_cons_of_mem _ hk) hup).symm
        · exact hinc k (List.mem_cons_of_mem _ hk) h List.mem_cons_self hup
      exact hn.1 (hkh ▸ hk)
    have hdown : ∀ x ∈ below, h ∈ t.ancestors x := by
      intro x hx
      obtain ⟨-, c, hch, hcx⟩ := (hb.mem_iff hl).1 hx
      rcases List.mem_cons.1 hcx with rfl | hcx
      · exact hchild _ hch
      · exact hl.ancestors_subset hcx (List.mem_cons_of_mem _ (hchild c hch))
    rw [List.nodup_cons, List.mem_append, not_or, List.nodup_append]
    refine ⟨⟨fun hm => hl.notMem_ancestors h (hdown h hm), hapart h List.mem_cons_self⟩,
      hbelow, hrest, fun x hx y hy hxy => ?_⟩
    exact hapart x (List.mem_cons_of_mem _ (hdown x hx)) (hxy ▸ hy)

/-- A walk depends on the children of the elements it meets alone. -/
theorem congr (hp : t.Preorder hs out)
    (hu : ∀ x ∈ out, u.contains x = true ∧ u.children x = t.children x) : u.Preorder hs out := by
  induction hp with
  | nil => exact .nil
  | visit hc _ _ ihb ihr =>
    obtain ⟨hc', hch⟩ := hu _ List.mem_cons_self
    refine .visit hc' ?_ (ihr fun x hx => hu x (by simp [hx]))
    rw [hch]
    exact ihb fun x hx => hu x (by simp [hx])

end Preorder

/-! ### Subtrees -/

/-- From starting points that have a walk each there is a walk from all of them. -/
theorem exists_preorder_of_each (hw : ∀ h ∈ hs, ∃ out, t.Preorder [h] out) :
    ∃ out, t.Preorder hs out := by
  induction hs with
  | nil => exact ⟨[], .nil⟩
  | cons h hs ih =>
    obtain ⟨out, ho⟩ := hw h List.mem_cons_self
    obtain ⟨out', ho'⟩ := ih fun k hk => hw k (List.mem_cons_of_mem _ hk)
    exact ⟨out ++ out', ho.append ho'⟩

/-- The walk down ends, because every step down makes the way up longer. -/
theorem exists_preorder (hl : t.Linked) (hh : t.contains h = true) : ∃ out, t.Preorder [h] out := by
  -- induction on how much longer a way up could get
  have key : ∀ n h, t.contains h = true → t.slots.size ≤ t.depth h + n →
      ∃ out, t.Preorder [h] out := by
    intro n
    induction n with
    | zero =>
      intro h hh hn
      have := (hl.lineage hh).length_lt
      simp only [depth] at hn
      omega
    | succ n ih =>
      intro h hh hn
      have hchildren : ∀ c ∈ t.children h, ∃ out, t.Preorder [c] out := by
        intro c hc
        refine ih c (hl.contains_child hc) ?_
        have hup := hl.ancestors_child ((hl.mem_children c h).1 hc)
        simp only [depth, hup, List.length_cons] at hn ⊢
        omega
      obtain ⟨below, hb⟩ := exists_preorder_of_each hchildren
      exact ⟨_, .visit hh hb .nil⟩
  exact key t.slots.size h hh (by omega)

theorem subtree_eq_nil (hh : ¬ t.contains h = true) : t.subtree h = [] := by
  rw [subtree, descend, get?_eq_none hh]
  cases t.slots.size <;> rfl

theorem Preorder.nodup_of_singleton (hl : t.Linked) (hp : t.Preorder [h] out) : out.Nodup :=
  hp.nodup hl (List.pairwise_singleton _ h) fun a ha b hb _ => by
    rw [List.mem_singleton.1 ha, List.mem_singleton.1 hb]

/-- The subtree of a live handle is a complete walk down. -/
theorem preorder_subtree (hl : t.Linked) (hh : t.contains h = true) :
    t.Preorder [h] (t.subtree h) := by
  obtain ⟨out, ho⟩ := exists_preorder hl hh
  have hlen : out.length ≤ t.slots.size :=
    length_le_of_contains (ho.nodup_of_singleton hl) fun x hx => ((ho.mem_iff hl).1 hx).1
  rwa [subtree, ho.descend_eq (Nat.le_succ_of_le hlen)]

theorem Preorder.subtree_eq (hl : t.Linked) (hp : t.Preorder [h] out) : t.subtree h = out := by
  have hlen : out.length ≤ t.slots.size :=
    length_le_of_contains (hp.nodup_of_singleton hl) fun x hx => ((hp.mem_iff hl).1 hx).1
  exact hp.descend_eq (Nat.le_succ_of_le hlen)

/-- A subtree consists of the live elements on or below its top. -/
theorem mem_subtree (hl : t.Linked) :
    x ∈ t.subtree h ↔ t.contains x = true ∧ h ∈ x :: t.ancestors x := by
  by_cases hh : t.contains h = true
  · simpa using (preorder_subtree hl hh).mem_iff (x := x) hl
  · rw [subtree_eq_nil hh]
    refine ⟨nofun, fun ⟨hx, hup⟩ => absurd (hl.contains_of_mem_path hx hup) hh⟩

/-- The subtree of a live element is the element and all that it is above. -/
theorem mem_subtree_iff_above (hl : t.Linked) (hh : t.contains h = true) :
    x ∈ t.subtree h ↔ x = h ∨ t.Above h x := by
  rw [mem_subtree hl, List.mem_cons, mem_ancestors_iff_above hh]
  constructor
  · rintro ⟨-, rfl | ha⟩
    · exact .inl rfl
    · exact .inr ha
  · rintro (rfl | ha)
    · exact ⟨hh, .inl rfl⟩
    · -- what is below something has a parent, and so is live
      obtain ⟨p, hp, -⟩ := Relation.TransGen.head'_iff.1 ha
      exact ⟨contains_of_parent? hp, .inr ha⟩

/-- Every element is in the subtree of a root. -/
theorem exists_root (hl : t.Linked) (hk : t.contains k = true) :
    ∃ r ∈ t.roots, k ∈ t.subtree r := by
  -- the way up ends at the root
  have key : ∀ {k as}, t.Lineage k as → ∃ r ∈ t.roots, r ∈ k :: as := by
    intro k as hlin
    induction hlin with
    | @root h hc hp =>
      refine ⟨h, List.mem_filter.2 ⟨mem_handles_of_contains hc, ?_⟩, List.mem_cons_self⟩
      rw [hp]
      rfl
    | @child h p as _ _ ih =>
      obtain ⟨r, hr, hm⟩ := ih
      exact ⟨r, hr, List.mem_cons_of_mem h hm⟩
  obtain ⟨r, hr, hm⟩ := key (hl.lineage hk)
  exact ⟨r, hr, (mem_subtree hl).2 ⟨hk, hm⟩⟩

theorem nodup_subtree (hl : t.Linked) (h : Handle) : (t.subtree h).Nodup := by
  by_cases hh : t.contains h = true
  · exact (preorder_subtree hl hh).nodup_of_singleton hl
  · rw [subtree_eq_nil hh]
    exact List.nodup_nil

/-! ### Destruction -/

/-- The books of the forest are right and its links are linked. -/
structure Sound (t : Forest) : Prop where
  /-- The books are right. -/
  slotted : t.Slotted
  /-- The links are linked. -/
  linked : t.Linked

/-- The parent of an element is not in its subtree. -/
theorem notMem_subtree_of_parent? (hl : t.Linked) {p : Handle} (hp : t.parent? h = some p) :
    p ∉ t.subtree h := by
  intro hm
  refine hl.notMem_ancestors h ?_
  rw [hl.ancestors_child hp]
  exact ((mem_subtree hl).1 hm).2

/-- The way up from an element outside a subtree stays outside. -/
theorem notMem_subtree_of_mem_path (hl : t.Linked) {a : Handle} (hk : t.contains k = true)
    (hm : k ∉ t.subtree h) (ha : a ∈ k :: t.ancestors k) : a ∉ t.subtree h := by
  intro hsub
  refine hm ((mem_subtree hl).2 ⟨hk, hl.path_subset ha ?_⟩)
  exact ((mem_subtree hl).1 hsub).2

/-- The subtree of an element stays the same when the element is detached. -/
theorem subtree_detach (hl : t.Linked) {old : Option Handle} (hd : t.detach h = (.ok old, u)) :
    u.subtree h = t.subtree h := by
  have hc : t.contains h = true := (detach_eq_ok hd).1
  refine Preorder.subtree_eq (hl.detach hd) ((preorder_subtree hl hc).congr ?_)
  intro x hx
  refine ⟨by rw [contains_detach hd]; exact ((mem_subtree hl).1 hx).1, ?_⟩
  rw [children_detach hl hd]
  exact hl.filter_children_eq_self fun hp => notMem_subtree_of_parent? hl hp hx

/-- The subtree of an element stays the same when the element is attached. -/
theorem subtree_attach (hl : t.Linked) {p : Handle} (ha : t.attach h p = (.ok (), u)) :
    u.subtree h = t.subtree h := by
  obtain ⟨hc, hp, hne, hanc, -⟩ := attach_eq_ok ha
  refine Preorder.subtree_eq (hl.attach ha) ((preorder_subtree hl hc).congr ?_)
  intro x hx
  refine ⟨by rw [contains_attach ha]; exact ((mem_subtree hl).1 hx).1, ?_⟩
  -- the new parent is not below the element
  have hxp : x ≠ p := by
    rintro rfl
    rcases List.mem_cons.1 ((mem_subtree hl).1 hx).2 with he | hup
    · exact hne he
    · exact hanc hup
  rw [children_attach hl ha, if_neg hxp, List.append_nil]
  exact hl.filter_children_eq_self fun hq => notMem_subtree_of_parent? hl hq hx

/-- Element data have no part in what a subtree consists of. -/
theorem subtree_edit (hl : t.Linked) (c : Element.Edit) :
    (t.update k (·.edit c)).subtree h = t.subtree h := by
  by_cases hh : t.contains h = true
  · refine Preorder.subtree_eq (hl.edit k c) ((preorder_subtree hl hh).congr ?_)
    intro x hx
    rw [contains_update]
    exact ⟨((mem_subtree hl).1 hx).1, children_edit t k c x⟩
  · rw [subtree_eq_nil hh, subtree_eq_nil (by rwa [contains_update])]

theorem destroy_stale (hh : ¬ t.contains h = true) :
    t.destroy h = (.error (.staleHandle h), t) := by
  rw [destroy, detach_stale hh]

/-- What is live can be destroyed. -/
theorem destroy_of_contains (hh : t.contains h = true) :
    ∃ removed u, t.destroy h = (.ok removed, u) := by
  obtain ⟨v, hv⟩ := detach_of_contains hh
  exact ⟨_, _, by rw [destroy, hv]⟩

theorem exists_of_destroy (hd : t.destroy h = (.ok removed, u)) :
    ∃ old v, t.detach h = (.ok old, v) ∧ removed = v.subtree h ∧ u = removed.foldl release v := by
  rcases hv : t.detach h with ⟨_ | old, v⟩
  · simp [destroy, hv] at hd
  · simp only [destroy, hv] at hd
    cases hd
    exact ⟨old, v, rfl, rfl, rfl⟩

/-- A refused destruction leaves the forest as it is. -/
theorem eq_of_destroy_error (hd : t.destroy h = (.error err, u)) : u = t := by
  rcases hv : t.detach h with ⟨e | old, v⟩
  · simp only [destroy, hv] at hd
    cases hd
    exact eq_of_detach_error hv
  · simp [destroy, hv] at hd

/-- What a successful destruction does: it detaches the element and empties the slots of
its subtree. -/
theorem destroy_eq_ok (hl : t.Linked) (hd : t.destroy h = (.ok removed, u)) :
    removed = t.subtree h ∧
      ∃ old v, t.detach h = (.ok old, v) ∧ u = (t.subtree h).foldl release v := by
  obtain ⟨old, v, hv, hr, hu⟩ := exists_of_destroy hd
  rw [subtree_detach hl hv] at hr
  exact ⟨hr, old, v, hv, hr ▸ hu⟩

@[simp] theorem slots_size_releaseAll (t : Forest) (hs : List Handle) :
    (hs.foldl release t).slots.size = t.slots.size := by
  induction hs generalizing t with
  | nil => rfl
  | cons h hs ih => rw [List.foldl_cons, ih, slots_size_release]

theorem slots_size_destroy (hd : t.destroy h = (.ok removed, u)) :
    u.slots.size = t.slots.size := by
  obtain ⟨old, v, hv, -, rfl⟩ := exists_of_destroy hd
  rw [slots_size_releaseAll, slots_size_detach hv]

section Destroy

variable (hl : t.Linked) (hd : t.destroy h = (.ok removed, u))
include hl hd

/-- After a destruction exactly the elements of the subtree are gone. -/
theorem get?_destroy (k : Handle) :
    ∃ old v, t.detach h = (.ok old, v) ∧ u.get? k = if k ∈ t.subtree h then none else v.get? k := by
  obtain ⟨-, old, v, hv, rfl⟩ := destroy_eq_ok hl hd
  -- no slot is emptied twice, since the walk meets nothing twice
  refine ⟨old, v, hv, get?_releaseAll (nodup_subtree hl h) (fun x hx => ?_) k⟩
  rw [contains_detach hv]
  exact ((mem_subtree hl).1 hx).1

theorem data?_destroy (k : Handle) : u.data? k = if k ∈ t.subtree h then none else t.data? k := by
  obtain ⟨old, v, hv, hk⟩ := get?_destroy hl hd k
  rw [data?, hk]
  split
  · rfl
  · exact data?_detach hv k

theorem contains_destroy (k : Handle) :
    u.contains k = true ↔ t.contains k = true ∧ k ∉ t.subtree h := by
  rw [contains_eq_data?, contains_eq_data?, data?_destroy hl hd]
  split <;> simp_all

theorem parent?_destroy (k : Handle) :
    u.parent? k = if k ∈ t.subtree h then none else t.parent? k := by
  obtain ⟨old, v, hv, hk⟩ := get?_destroy hl hd k
  have hc : t.contains h = true := (detach_eq_ok hv).1
  rw [parent?, hk]
  split
  · rfl
  · next hm =>
    have hne : k ≠ h := by
      rintro rfl
      exact hm ((mem_subtree hl).2 ⟨hc, List.mem_cons_self⟩)
    exact (parent?_detach hv k).trans (if_neg hne)

theorem children_destroy (k : Handle) :
    u.children k =
      if k ∈ t.subtree h then [] else (t.children k).filter fun c => decide (c ≠ h) := by
  obtain ⟨old, v, hv, hk⟩ := get?_destroy hl hd k
  rw [children, hk]
  split
  · rfl
  · exact children_detach hl hv k

theorem lineage_destroy (hk : t.contains k = true) (hm : k ∉ t.subtree h) :
    u.Lineage k (t.ancestors k) := by
  refine (hl.lineage hk).congr ?_
  intro a ha
  have hout := notMem_subtree_of_mem_path hl hk hm ha
  refine ⟨(contains_destroy hl hd a).2 ⟨hl.contains_of_mem_path hk ha, hout⟩, ?_⟩
  rw [parent?_destroy hl hd, if_neg hout]

theorem linked_destroy : u.Linked := by
  refine ⟨?_, ?_, ?_⟩
  · intro c p
    rw [children_destroy hl hd, parent?_destroy hl hd]
    -- a link is inside the subtree, outside, or the one that leads to its top
    have hdown : ∀ {c p}, t.parent? c = some p → c ∈ t.subtree h → c ≠ h → p ∈ t.subtree h := by
      intro c p hcp hc hne
      obtain ⟨-, hup⟩ := (mem_subtree hl).1 hc
      rw [hl.ancestors_child hcp] at hup
      refine (mem_subtree hl).2 ⟨hl.contains_parent hcp, ?_⟩
      exact (List.mem_cons.1 hup).resolve_left (Ne.symm hne)
    have hup : ∀ {c p}, t.parent? c = some p → p ∈ t.subtree h → c ∈ t.subtree h := by
      intro c p hcp hp
      refine (mem_subtree hl).2 ⟨contains_of_parent? hcp, ?_⟩
      rw [hl.ancestors_child hcp]
      exact List.mem_cons_of_mem _ ((mem_subtree hl).1 hp).2
    have hm := hl.mem_children c p
    by_cases hp : p ∈ t.subtree h
    · rw [if_pos hp]
      split
      · simp
      · next hc => simpa using fun hcp => hc (hup hcp hp)
    · rw [if_neg hp, List.mem_filter, hm]
      by_cases hc : c ∈ t.subtree h
      · rw [if_pos hc]
        by_cases hch : c = h
        · simp [hch]
        · simpa [hch] using fun hcp => hp (hdown hcp hc hch)
      · have hne : c ≠ h := by
          rintro rfl
          obtain ⟨-, old, v, hv, -⟩ := destroy_eq_ok hl hd
          exact hc ((mem_subtree hl).2 ⟨(detach_eq_ok hv).1, List.mem_cons_self⟩)
        simp [hc, hne]
  · intro p
    rw [children_destroy hl hd]
    split
    · exact List.nodup_nil
    · exact (hl.children_nodup p).filter _
  · intro k hk
    obtain ⟨hk, hm⟩ := (contains_destroy hl hd k).1 hk
    exact ⟨_, lineage_destroy hl hd hk hm⟩

theorem tallied_destroy (ht : t.Tallied) : u.Tallied ∧ u.size + removed.length = t.size := by
  obtain ⟨rfl, old, v, hv, rfl⟩ := destroy_eq_ok hl hd
  have hlive : ∀ x ∈ t.subtree h, v.contains x = true := by
    intro x hx
    rw [contains_detach hv]
    exact ((mem_subtree hl).1 hx).1
  obtain ⟨hs, hsize⟩ := (ht.detach hv).releaseAll (nodup_subtree hl h) hlive
  exact ⟨hs, by rw [hsize, size_detach hv]⟩

end Destroy

theorem Sound.destroy (ht : t.Sound) (hd : t.destroy h = (.ok removed, u)) : u.Sound where
  slotted :=
    (tallied_destroy ht.linked hd ht.slotted.tallied).1.slotted
      (by rw [slots_size_destroy hd]; exact ht.slotted.size_le)
  linked := linked_destroy ht.linked hd

end Forest
end Cascade
