import Cascade.Proofs.Forest.Runs
import Mathlib.Data.List.Chain
import Mathlib.Logic.Function.Iterate

/-!
# Walks up and walks down agree

The links of a forest are read in four ways: up along the parents, down along the children by a
loop with a stack, down by recursion, and across the slots in search of roots.  In every forest
that operations build, the four tell the same story.  The loop empties its stack, after one round
for each element it lists, and what it lists is what the recursion lists; an element is met on the
way up from exactly those that are below it; the way down to an element is the way up, backwards;
and the walks down from all roots meet every element once.

Only the search for roots needs slots that can all be addressed, since it makes handles up from
the positions of slots.

## Main definitions

* `Forest.round` — one round of the loop that walks down.
* `Forest.Walks` — the four readings agree, element by element.

## Main results

* `snd_iterate_round` — the bounded walk is so many rounds of the loop.
* `Preorder.iterate_round` — the loop ends, with what the recursion lists.
* `subtree_eq_cons` — an element, then the subtrees of its children in order.
* `count_flatMap_roots` — the subtrees of the roots list every element once.
* `walks_run` — **all of this in every forest that operations build.**
-/

namespace Cascade
namespace Forest

variable {t : Forest} {a h k x : Handle} {hs as out : List Handle}

/-! ### The loop -/

/-- One round of the loop that walks down.  The state is the stack, its top in front, and what has
been listed.  The top is taken off; if it is live, it is listed and its children go on the stack,
the first one on top.  With an empty stack the loop has ended. -/
def round (t : Forest) : List Handle × List Handle → List Handle × List Handle
  | ([], listed) => ([], listed)
  | (h :: stack, listed) =>
    match t.get? h with
    | none => (stack, listed)
    | some e => (e.children ++ stack, listed ++ [h])

/-- The bounded walk lists what so many rounds of the loop list, whether or not they are enough. -/
theorem snd_iterate_round (t : Forest) (n : Nat) (stack listed : List Handle) :
    (t.round^[n] (stack, listed)).2 = listed ++ t.descend n stack := by
  induction n generalizing stack listed with
  | zero => rw [Function.iterate_zero_apply, descend, List.append_nil]
  | succ n ih =>
    rw [Function.iterate_succ_apply]
    cases stack with
    | nil =>
      have hend : t.descend n [] = [] := by cases n <;> rfl
      rw [round, ih, hend, descend]
    | cons h stack =>
      rw [round, descend]
      cases t.get? h with
      | none => exact ih stack listed
      | some e =>
        rw [ih]
        exact List.append_assoc listed [h] _

/-- **The loop takes one round for each element that the recursion lists,** and has then listed
the same elements in the same order; what is further down on the stack is still there. -/
theorem Preorder.iterate_round (hp : t.Preorder hs out) (stack listed : List Handle) :
    t.round^[out.length] (hs ++ stack, listed) = (stack, listed ++ out) := by
  induction hp generalizing stack listed with
  | nil => rw [List.nil_append, List.append_nil, List.length_nil, Function.iterate_zero_apply]
  | @visit h hs below rest hc _ _ ihb ihr =>
    obtain ⟨e, he⟩ := contains_iff.1 hc
    have hround : t.round (h :: (hs ++ stack), listed) =
        (t.children h ++ (hs ++ stack), listed ++ [h]) := by
      rw [round, he, children_of_get? he]
    -- first the rounds for what is below the element, then those for the rest
    rw [List.cons_append, List.length_cons, Function.iterate_succ_apply, hround,
      List.length_append, Nat.add_comm, Function.iterate_add_apply, ihb, ihr]
    simp only [List.append_assoc, List.cons_append, List.nil_append]

/-! ### The recursion -/

/-- A walk down from several elements is the subtrees of these, one after the other. -/
theorem Preorder.eq_flatMap (hl : t.Linked) (hp : t.Preorder hs out) :
    out = hs.flatMap t.subtree := by
  induction hp with
  | nil => rfl
  | @visit h stack below rest hc hb _ _ ihr =>
    have htop : t.subtree h = h :: below := by
      rw [(Preorder.visit hc hb .nil).subtree_eq hl, List.append_nil]
    rw [List.flatMap_cons, htop, ← ihr, List.cons_append]

/-- **An element, then the subtrees of its children in order.** -/
theorem subtree_eq_cons (hl : t.Linked) (hh : t.contains h = true) :
    t.subtree h = h :: (t.children h).flatMap t.subtree := by
  have hp := preorder_subtree hl hh
  generalize t.subtree h = out at hp
  cases hp with
  | visit _ hb hr =>
    cases hr with
    | nil => rw [List.append_nil, ← hb.eq_flatMap hl]

/-- There is one walk down from an element, and the subtree is it. -/
theorem preorder_iff_eq_subtree (hl : t.Linked) (hh : t.contains h = true) :
    t.Preorder [h] out ↔ out = t.subtree h := by
  constructor
  · intro hp
    exact (hp.subtree_eq hl).symm
  · rintro rfl
    exact preorder_subtree hl hh

/-! ### The way up -/

/-- **An element is met on the way up from those that are below it,** and from no others. -/
theorem mem_ancestors_iff_mem_subtree (hl : t.Linked) :
    a ∈ t.ancestors x ↔ x ∈ t.subtree a ∧ x ≠ a := by
  rw [mem_subtree hl]
  constructor
  · intro ha
    refine ⟨⟨Linked.contains_of_mem_ancestors ha, List.mem_cons_of_mem x ha⟩, ?_⟩
    rintro rfl
    exact hl.notMem_ancestors x ha
  · rintro ⟨⟨-, hup⟩, hne⟩
    exact (List.mem_cons.1 hup).resolve_left (Ne.symm hne)

namespace Lineage

/-- Every step up leads to the parent. -/
theorem isChain (hl : t.Lineage h as) :
    List.IsChain (fun c p => t.parent? c = some p) (h :: as) := by
  induction hl with
  | root => exact .singleton _
  | child hp _ ih => exact .cons_cons hp ih

/-- The way up ends at a root. -/
theorem exists_getLast? (hl : t.Lineage h as) :
    ∃ r, (h :: as).getLast? = some r ∧ t.contains r = true ∧ t.parent? r = none := by
  induction hl with
  | @root h hc hp => exact ⟨h, rfl, hc, hp⟩
  | child _ _ ih =>
    obtain ⟨r, hr, hroot⟩ := ih
    exact ⟨r, by rwa [List.getLast?_cons_cons], hroot⟩

/-- The way down is the way up, backwards, from the element itself to the root. -/
theorem pathFromRoot_eq_reverse (hl : t.Lineage h as) : t.pathFromRoot h = (h :: as).reverse := by
  rw [hl.pathFromRoot_eq, List.reverse_cons]

end Lineage

/-! ### Roots -/

/-- The way up from a root is at its end at once. -/
theorem ancestors_of_mem_roots (hk : k ∈ t.roots) : t.ancestors k = [] := by
  obtain ⟨-, hp⟩ := List.mem_filter.1 hk
  rw [ancestors, Option.isNone_iff_eq_none.1 hp]
  cases t.slots.size <;> rfl

/-- **The subtrees of the roots list every element once, and nothing else.** -/
theorem count_flatMap_roots (hl : t.Linked) (hsz : t.slots.size ≤ 2 ^ 32) (h : Handle) :
    (t.roots.flatMap t.subtree).count h = if t.contains h = true then 1 else 0 := by
  have hlive : ∀ r ∈ t.roots, t.contains r = true := fun r hr =>
    (mem_handles hsz).1 (List.mem_of_mem_filter hr)
  obtain ⟨out, hout⟩ := exists_preorder_of_each fun r hr => exists_preorder hl (hlive r hr)
  -- no root is above another, so the walks from them do not meet
  have hnodup : out.Nodup := by
    refine hout.nodup hl ((nodup_handles hsz).filter _) ?_
    intro a _ b hb hab
    rw [ancestors_of_mem_roots hb] at hab
    exact List.mem_singleton.1 hab
  rw [← hout.eq_flatMap hl]
  split
  · next hh =>
    refine List.count_eq_one_of_mem hnodup ?_
    obtain ⟨r, hr, hm⟩ := exists_root hl hh
    exact (hout.mem_iff hl).2 ⟨hh, r, hr, ((mem_subtree hl).1 hm).2⟩
  · next hh =>
    refine List.count_eq_zero.2 fun hm => hh ?_
    exact ((hout.mem_iff hl).1 hm).1

/-! ### All walks -/

/-- The walks up and down tell the same of every element. -/
structure Walks (t : Forest) : Prop where
  /-- What is taken for the subtree is what the loop has listed after one round more than there
  are slots. -/
  rounds : ∀ a, t.subtree a = (t.round^[t.slots.size + 1] ([a], [])).2
  /-- The loop that starts with one element on its stack ends, after one round for each element of
  the subtree, with the subtree listed. -/
  loop : ∀ a, t.contains a = true → t.round^[(t.subtree a).length] ([a], []) = ([], t.subtree a)
  /-- The subtree is the element, then the subtrees of its children in order. -/
  recursion : ∀ a, t.contains a = true →
    t.subtree a = a :: (t.children a).flatMap t.subtree
  /-- It is the one list that a recursive walk gives. -/
  preorder_iff : ∀ a out, t.contains a = true → (t.Preorder [a] out ↔ out = t.subtree a)
  /-- Nothing is listed twice. -/
  nodup : ∀ a, (t.subtree a).Nodup
  /-- An element is an ancestor of those that are in its subtree, itself apart. -/
  mem_ancestors_iff : ∀ a x, t.contains a = true → t.contains x = true →
    (a ∈ t.ancestors x ↔ x ∈ t.subtree a ∧ x ≠ a)
  /-- The way down starts at a root. -/
  head?_path : ∀ x, t.contains x = true →
    ∃ r, (t.pathFromRoot x).head? = some r ∧ t.contains r = true ∧ t.parent? r = none
  /-- It ends at the element. -/
  getLast?_path : ∀ x, t.contains x = true → (t.pathFromRoot x).getLast? = some x
  /-- Each entry is the parent of the next. -/
  isChain_path : ∀ x, t.contains x = true →
    List.IsChain (fun p c => t.parent? c = some p) (t.pathFromRoot x)
  /-- There is one entry more than there are ancestors. -/
  length_path : ∀ x, t.contains x = true → (t.pathFromRoot x).length = t.depth x + 1

theorem Linked.walks (hl : t.Linked) : t.Walks where
  rounds := fun a => by rw [snd_iterate_round, List.nil_append, subtree]
  loop := fun a ha => (preorder_subtree hl ha).iterate_round [] []
  recursion := fun _ ha => subtree_eq_cons hl ha
  preorder_iff := fun _ _ ha => preorder_iff_eq_subtree hl ha
  nodup := nodup_subtree hl
  mem_ancestors_iff := fun _ _ _ _ => mem_ancestors_iff_mem_subtree hl
  head?_path := fun x hx => by
    rw [(hl.lineage hx).pathFromRoot_eq_reverse, List.head?_reverse]
    exact (hl.lineage hx).exists_getLast?
  getLast?_path := fun x hx => by
    rw [(hl.lineage hx).pathFromRoot_eq_reverse, List.getLast?_reverse, List.head?_cons]
  isChain_path := fun x hx => by
    rw [(hl.lineage hx).pathFromRoot_eq_reverse, List.isChain_reverse]
    exact (hl.lineage hx).isChain
  length_path := fun x hx => by
    rw [(hl.lineage hx).pathFromRoot_eq_reverse, List.length_reverse, List.length_cons, depth]

/-- **Walks up and walks down agree** in every forest that operations build, whatever they were and
with however many slots: the loop ends with what the recursion lists, and an element is met on the
way up from exactly those below it.  As long as the slots can be addressed, the subtrees of the
roots list every element once and nothing else. -/
theorem walks_run (ops : List Operation) :
    (({} : Forest).run ops).Walks ∧
      ((({} : Forest).run ops).slots.size ≤ 2 ^ 32 → ∀ h,
        ((({} : Forest).run ops).roots.flatMap (({} : Forest).run ops).subtree).count h =
          if (({} : Forest).run ops).contains h = true then 1 else 0) := by
  have hl : (({} : Forest).run ops).Linked := (wellFormed_empty.run ops).linked
  exact ⟨hl.walks, count_flatMap_roots hl⟩

/-- A window with a panel and an icon.  The label of the panel is destroyed, and another label,
which takes its slot, goes under the icon; a second window stays empty. -/
def movedLabel : List Operation :=
  [.insert { (default : Element) with typeName := "Window" },
    .insert { (default : Element) with typeName := "Panel" },
    .insert { (default : Element) with typeName := "Label" },
    .insert { (default : Element) with typeName := "Icon" },
    .attach ⟨1, 0⟩ ⟨0, 0⟩, .attach ⟨2, 0⟩ ⟨1, 0⟩, .attach ⟨3, 0⟩ ⟨0, 0⟩, .destroy ⟨2, 0⟩,
    .insert { (default : Element) with typeName := "Label" },
    .insert { (default : Element) with typeName := "Window" }, .attach ⟨2, 1⟩ ⟨3, 0⟩]

/-- The label comes last in the subtree of its window, though its slot comes before that of the
icon; the loop finds it in the fourth round. -/
theorem walks_run_movedLabel :
    let t := ({} : Forest).run movedLabel
    t.slots.size ≤ 2 ^ 32 ∧ t.contains ⟨0, 0⟩ = true ∧ t.contains ⟨2, 1⟩ = true ∧
      t.roots = [⟨0, 0⟩, ⟨4, 0⟩] ∧ t.subtree ⟨0, 0⟩ = [⟨0, 0⟩, ⟨1, 0⟩, ⟨3, 0⟩, ⟨2, 1⟩] ∧
      t.round^[4] ([⟨0, 0⟩], []) = ([], [⟨0, 0⟩, ⟨1, 0⟩, ⟨3, 0⟩, ⟨2, 1⟩]) ∧
      ⟨0, 0⟩ ∈ t.ancestors ⟨2, 1⟩ ∧ (t.roots.flatMap t.subtree).count ⟨2, 1⟩ = 1 := by
  intro t
  obtain ⟨hwalks, hroots⟩ := walks_run movedLabel
  have hsz : t.slots.size ≤ 2 ^ 32 := by decide
  have hwindow : t.contains ⟨0, 0⟩ = true := by decide
  have hlabel : t.contains ⟨2, 1⟩ = true := by decide
  have hsubtree : t.subtree ⟨0, 0⟩ = [⟨0, 0⟩, ⟨1, 0⟩, ⟨3, 0⟩, ⟨2, 1⟩] := by decide
  refine ⟨hsz, hwindow, hlabel, by decide, hsubtree, ?_, ?_, ?_⟩
  · have hloop := hwalks.loop ⟨0, 0⟩ hwindow
    rwa [hsubtree] at hloop
  · exact (hwalks.mem_ancestors_iff _ _ hwindow hlabel).2 ⟨hsubtree ▸ by decide, by decide⟩
  · exact (hroots hsz ⟨2, 1⟩).trans (if_pos hlabel)

end Forest
end Cascade
