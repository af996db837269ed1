import Cascade.Proofs.Forest.Runs

/-!
# What an attachment changes

An attachment is refused for one of four reasons, which are looked at in a fixed order, and a
refused one changes nothing.  One that succeeds writes to the child, to its former parent and to
its new one, of which the last two may be the same; all other elements stay as they are, and so
does everything below the child, which moves with it.  Nothing here depends on how many slots
there are.

## Main definitions

* `Forest.Objection` — what stands against an attachment.
* `Forest.Attached` — two forests differ by one child that has been moved.

## Main results

* `attach_eq_error_iff`, `exists_attach_iff` — when an attachment fails, and when it succeeds.
* `get?_attach` — every element after an attachment.
* `attached_of_attach` — what has been moved, and that nothing else has changed.
* `attach_run` — **all of this in every forest that operations build.**
-/

namespace Cascade
namespace Forest

variable {t u : Forest} {k p child parent : Handle} {e : Element} {err : ForestError}

/-! ### What is refused -/

/-- What stands against putting `child` under `parent`.  Each reason counts only where those
before it do not hold. -/
inductive Objection (t : Forest) (child parent : Handle) : ForestError → Prop
  /-- The child is not live. -/
  | staleChild : ¬ t.contains child = true → Objection t child parent (.staleHandle child)
  /-- The parent is not live. -/
  | staleParent : t.contains child = true → ¬ t.contains parent = true →
    Objection t child parent (.staleHandle parent)
  /-- They are the same element. -/
  | self : t.contains child = true → t.contains parent = true → child = parent →
    Objection t child parent (.selfParent child)
  /-- The child is an ancestor of the parent. -/
  | cycle : t.contains child = true → t.contains parent = true → child ≠ parent →
    t.Above child parent → Objection t child parent (.wouldCreateCycle child parent)

/-- The first objection is the answer, and the forest stays as it is. -/
theorem Objection.attach_eq (ho : t.Objection child parent err) :
    t.attach child parent = (.error err, t) := by
  cases ho with
  | staleChild hc => exact attach_stale (by simp [hc])
  | staleParent hc hp => exact attach_stale (by simp [hc, hp])
  | self hc hp heq =>
    obtain ⟨u, hu⟩ := attach_of_contains hc hp
    rw [hu, if_pos heq]
  | cycle hc hp hne ha =>
    obtain ⟨u, hu⟩ := attach_of_contains hc hp
    rw [hu, if_neg hne, if_pos ((mem_ancestors_iff_above hc).2 ha)]

/-- Live elements of which the one is neither the other nor above it can be linked. -/
theorem attach_of_not_above (hc : t.contains child = true) (hp : t.contains parent = true)
    (hne : child ≠ parent) (ha : ¬ t.Above child parent) :
    ∃ u, t.attach child parent = (.ok (), u) := by
  obtain ⟨u, hu⟩ := attach_of_contains hc hp
  exact ⟨u, by rw [hu, if_neg hne, if_neg (mt (mem_ancestors_iff_above hc).1 ha)]⟩

/-- There is an objection, or there is none of the four. -/
theorem objection_or (t : Forest) (child parent : Handle) :
    (∃ err, t.Objection child parent err) ∨
      t.contains child = true ∧ t.contains parent = true ∧ child ≠ parent ∧
        ¬ t.Above child parent := by
  by_cases hc : t.contains child = true
  · by_cases hp : t.contains parent = true
    · by_cases heq : child = parent
      · exact .inl ⟨_, .self hc hp heq⟩
      · by_cases ha : t.Above child parent
        · exact .inl ⟨_, .cycle hc hp heq ha⟩
        · exact .inr ⟨hc, hp, heq, ha⟩
    · exact .inl ⟨_, .staleParent hc hp⟩
  · exact .inl ⟨_, .staleChild hc⟩

theorem attach_eq_error_iff :
    (t.attach child parent).1 = .error err ↔ t.Objection child parent err := by
  refine ⟨fun herr => ?_, fun ho => by rw [ho.attach_eq]⟩
  rcases objection_or t child parent with ⟨err', ho⟩ | ⟨hc, hp, hne, ha⟩
  · rw [ho.attach_eq] at herr
    cases herr
    exact ho
  · obtain ⟨u, hu⟩ := attach_of_not_above hc hp hne ha
    rw [hu] at herr
    cases herr

theorem exists_attach_iff :
    (∃ u, t.attach child parent = (.ok (), u)) ↔
      t.contains child = true ∧ t.contains parent = true ∧ child ≠ parent ∧
        ¬ t.Above child parent := by
  refine ⟨fun ⟨u, hu⟩ => ?_, fun ⟨hc, hp, hne, ha⟩ => attach_of_not_above hc hp hne ha⟩
  rcases objection_or t child parent with ⟨err, ho⟩ | hnone
  · rw [ho.attach_eq] at hu
    cases hu
  · exact hnone

/-! ### What is changed -/

/-- `u` is `t` with `child` moved to the last place under `parent`. -/
structure Attached (t u : Forest) (child parent : Handle) : Prop where
  /-- The child has the new parent, and nothing else about it has changed. -/
  get?_child : ∀ e, t.get? child = some e → u.get? child = some { e with parent := some parent }
  /-- The new parent has the child in the last place, and in no other even if it had it before. -/
  get?_parent : ∀ e, t.get? parent = some e →
    u.get? parent =
      some { e with children := (e.children.filter fun c => decide (c ≠ child)) ++ [child] }
  /-- Any other former parent has lost just the child. -/
  get?_former : ∀ p e, t.get? p = some e → t.parent? child = some p → p ≠ parent →
    ∃ front back, e.children = front ++ child :: back ∧ child ∉ front ++ back ∧
      u.get? p = some { e with children := front ++ back }
  /-- No other handle shows a difference. -/
  get?_other : ∀ k, k ≠ child → k ≠ parent → t.parent? child ≠ some k → u.get? k = t.get? k
  /-- The same handles are live. -/
  contains_eq : ∀ k, u.contains k = t.contains k
  /-- There are as many elements. -/
  size_eq : u.size = t.size
  /-- What is below the child has stayed there, in the same order. -/
  preorder_iff : ∀ out, u.Preorder [child] out ↔ t.Preorder [child] out
  /-- All of it is below the new parent now. -/
  above : ∀ x, x = child ∨ t.Above child x → u.Above parent x

theorem size_attach (ha : t.attach child parent = (.ok (), u)) : u.size = t.size :=
  attach_keeps (P := fun v => v.size = t.size) (fun v h f hv => (size_update v h f).trans hv) rfl ha

/-- Every element after an attachment, all its parts at once. -/
theorem get?_attach (hl : t.Linked) (ha : t.attach child parent = (.ok (), u))
    (he : t.get? k = some e) :
    u.get? k = some { e with
      parent := if k = child then some parent else e.parent
      children := (e.children.filter fun c => decide (c ≠ child)) ++
        if k = parent then [child] else [] } := by
  refine get?_of_views ?_ ?_ ?_
  · rw [data?_attach ha, data?_of_get? he]
    rfl
  · rw [parent?_attach ha, parent?_of_get? he]
  · rw [children_attach hl ha, children_of_get? he]

/-- **An attachment moves the child and what is below it, and changes nothing else.** -/
theorem attached_of_attach (hl : t.Linked) (ha : t.attach child parent = (.ok (), u)) :
    t.Attached u child parent := by
  obtain ⟨hc, hp, hne, -, -⟩ := attach_eq_ok ha
  have hself : t.parent? child ≠ some child := fun hcc =>
    hl.notMem_ancestors child (by rw [hl.ancestors_child hcc]; exact List.mem_cons_self)
  have hl' := hl.attach ha
  have hc' : u.contains child = true := by rw [contains_attach ha, hc]
  have hsub := subtree_attach hl ha
  refine
    { get?_child := ?_
      get?_parent := ?_
      get?_former := ?_
      get?_other := ?_
      contains_eq := contains_attach ha
      size_eq := size_attach ha
      preorder_iff := ?_
      above := ?_ }
  · intro e he
    rw [get?_attach hl ha he, if_pos rfl, if_neg hne, List.append_nil,
      ← children_of_get? he, hl.filter_children_eq_self hself]
  · intro e he
    rw [get?_attach hl ha he, if_neg (Ne.symm hne), if_pos rfl]
  · intro p e he hpc hpp
    have hpne : p ≠ child := by
      rintro rfl
      exact hself hpc
    obtain ⟨front, back, heq, hout, hfilter⟩ := hl.exists_split hpc
    rw [children_of_get? he] at heq hfilter
    refine ⟨front, back, heq, hout, ?_⟩
    rw [get?_attach hl ha he, if_neg hpne, if_neg hpp, List.append_nil, hfilter]
  · intro k hkc hkp hk
    cases he : t.get? k with
    | none =>
      refine get?_eq_none ?_
      rw [contains_attach ha, contains, he]
      decide
    | some e =>
      rw [get?_attach hl ha he, if_neg hkc, if_neg hkp, List.append_nil,
        ← children_of_get? he, hl.filter_children_eq_self hk, children_of_get? he]
  · -- from the child there is one walk down in each forest, and they are the same
    intro out
    constructor
    · intro hout
      rw [← hout.subtree_eq hl', hsub]
      exact preorder_subtree hl hc
    · intro hout
      rw [← hout.subtree_eq hl, ← hsub]
      exact preorder_subtree hl' hc'
  · intro x hx
    rw [← mem_subtree_iff_above hl hc, ← hsub, mem_subtree_iff_above hl' hc'] at hx
    have hup : u.parent? child = some parent := by rw [parent?_attach ha, if_pos rfl]
    rcases hx with rfl | hx
    · exact .single hup
    · exact .tail hx hup

/-- **Attaching is exact.**  In every forest that operations build, whatever they were and with
however many slots, an attachment succeeds exactly if both elements are live and the child is
neither the parent nor above it.  Otherwise it answers with the first thing that stands against
it and leaves the forest as it is; and if it succeeds, the child has been moved with all that is
below it, and nothing else has changed. -/
theorem attach_run (ops : List Operation) (child parent : Handle) :
    let t := ({} : Forest).run ops
    ((∃ u, t.attach child parent = (.ok (), u)) ↔
      t.contains child = true ∧ t.contains parent = true ∧ child ≠ parent ∧
        ¬ t.Above child parent) ∧
    (∀ err, (t.attach child parent).1 = .error err ↔ t.Objection child parent err) ∧
    (∀ err, t.Objection child parent err →
      t.attach child parent = (.error err, t) ∧ t.apply (.attach child parent) = t) ∧
    ∀ u, t.attach child parent = (.ok (), u) →
      t.apply (.attach child parent) = u ∧ t.Attached u child parent := by
  intro t
  have hl : t.Linked := (wellFormed_empty.run ops).linked
  refine ⟨exists_attach_iff, fun err => attach_eq_error_iff, ?_, ?_⟩
  · intro err ho
    exact ⟨ho.attach_eq, by rw [apply, ho.attach_eq]⟩
  · intro u hu
    exact ⟨by rw [apply, hu], attached_of_attach hl hu⟩

/-- A child that is attached to its parent again becomes the last one. -/
example : (({} : Forest).run [.insert default, .insert default, .insert default,
    .attach ⟨1, 0⟩ ⟨0, 0⟩, .attach ⟨2, 0⟩ ⟨0, 0⟩, .attach ⟨1, 0⟩ ⟨0, 0⟩]).children ⟨0, 0⟩ =
      [⟨2, 0⟩, ⟨1, 0⟩] := by decide

end Forest
end Cascade
