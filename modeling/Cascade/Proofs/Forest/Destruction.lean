import Cascade.Proofs.Forest.Runs

/-!
# What a destruction changes

A destruction takes an element and all that is below it out of the forest and lists them, each
before its children.  Of the elements that are left only the former parent notices: it has lost
one child.  The handles in the list are stale afterwards and no others are, so that no link is
left dangling and no slot is emptied twice.  Nothing here depends on how many slots there are.

## Main definitions

* `Forest.Destroyed` — two forests differ by one subtree.

## Main results

* `destroyed_of_destroy` — what has been removed, and that nothing else has changed.
* `destroy_run` — **both, in every forest that operations build.**
-/

namespace Cascade
namespace Forest

variable {t u : Forest} {h k : Handle} {e : Element} {removed : List Handle}

/-- `u` is `t` without `h` and without all that is below `h`, which makes up `removed`. -/
structure Destroyed (t u : Forest) (h : Handle) (removed : List Handle) : Prop where
  /-- The list has each element before its children, and the children in their order. -/
  preorder : t.Preorder [h] removed
  /-- Nothing is listed twice. -/
  nodup : removed.Nodup
  /-- The element and all that it is above are listed. -/
  mem_iff : ∀ k, k ∈ removed ↔ k = h ∨ t.Above h k
  /-- Exactly what is listed is no longer live. -/
  contains_iff : ∀ k, u.contains k = true ↔ t.contains k = true ∧ k ∉ removed
  /-- The former parent has lost just the element. -/
  get?_former : ∀ p e, t.get? p = some e → t.parent? h = some p →
    ∃ front back, e.children = front ++ h :: back ∧ h ∉ front ++ back ∧
      u.get? p = some { e with children := front ++ back }
  /-- No other handle that is not listed shows a difference. -/
  get?_other : ∀ k, k ∉ removed → t.parent? h ≠ some k → u.get? k = t.get? k
  /-- The elements that are listed do not count any more. -/
  size_eq : u.size + removed.length = t.size

/-- Every element that is left, all its parts at once. -/
theorem get?_destroy_of_notMem (hl : t.Linked) (hd : t.destroy h = (.ok removed, u))
    (he : t.get? k = some e) (hk : k ∉ t.subtree h) :
    u.get? k = some { e with children := e.children.filter fun c => decide (c ≠ h) } := by
  refine get?_of_views ?_ ?_ ?_
  · rw [data?_destroy hl hd, if_neg hk, data?_of_get? he]
    rfl
  · rw [parent?_destroy hl hd, if_neg hk, parent?_of_get? he]
  · rw [children_destroy hl hd, if_neg hk, children_of_get? he]

/-- **A destruction removes one subtree, and changes nothing else.** -/
theorem destroyed_of_destroy (ht : t.WellFormed) (hd : t.destroy h = (.ok removed, u)) :
    t.Destroyed u h removed := by
  have hl := ht.linked
  obtain ⟨rfl, old, v, hv, -⟩ := destroy_eq_ok hl hd
  have hh : t.contains h = true := (detach_eq_ok hv).1
  refine
    { preorder := preorder_subtree hl hh
      nodup := nodup_subtree hl h
      mem_iff := fun k => mem_subtree_iff_above hl hh
      contains_iff := contains_destroy hl hd
      get?_former := ?_
      get?_other := ?_
      size_eq := (tallied_destroy hl hd ht.tallied).2 }
  · intro p e he hp
    obtain ⟨front, back, heq, hout, hfilter⟩ := hl.exists_split hp
    rw [children_of_get? he] at heq hfilter
    refine ⟨front, back, heq, hout, ?_⟩
    rw [get?_destroy_of_notMem hl hd he (notMem_subtree_of_parent? hl hp), hfilter]
  · intro k hk hp
    cases he : t.get? k with
    | none =>
      refine get?_eq_none fun hc => ?_
      rw [contains_destroy hl hd, contains, he] at hc
      exact absurd hc.1 (by decide)
    | some e =>
      rw [get?_destroy_of_notMem hl hd he hk, ← children_of_get? he,
        hl.filter_children_eq_self hp, children_of_get? he]

/-- **Destroying removes exactly one subtree.**  In every forest that operations build, whatever
they were and with however many slots, a live element can be destroyed, and then it and all that
is below it have been removed, listed each before its children, and nothing else has changed.  A
handle that is not live is refused as stale, and the forest stays as it is. -/
theorem destroy_run (ops : List Operation) (h : Handle) :
    let t := ({} : Forest).run ops
    (t.contains h = true → ∃ removed u, t.destroy h = (.ok removed, u) ∧
      t.apply (.destroy h) = u ∧ t.Destroyed u h removed) ∧
    (¬ t.contains h = true →
      t.destroy h = (.error (.staleHandle h), t) ∧ t.apply (.destroy h) = t) := by
  intro t
  have ht : t.WellFormed := wellFormed_empty.run ops
  constructor
  · intro hh
    obtain ⟨removed, u, hd⟩ := destroy_of_contains hh
    exact ⟨removed, u, hd, by rw [apply, hd], destroyed_of_destroy ht hd⟩
  · intro hh
    have hstale := destroy_stale hh
    exact ⟨hstale, by rw [apply, hstale]⟩

end Forest
end Cascade
