import Cascade.Overlay

/-!
# What blending leaves

A blend of two values of one kind has that kind, whatever the factor.  The table of all blended
values and the blend of a single value are two walks over the same overlays; they agree on every
key.

## Main results

* `Value.kind_blend` — the kind of a blend.
* `get?_combine` — **the table of blended values holds under every key the blend of its value.**
-/

namespace Cascade

/-! ### One value -/

namespace Value

theorem kind_mix? {a b v : Value} {t : Float32} (h : a.mix? b t = some v) : v.kind = a.kind := by
  unfold mix? at h
  split at h
  · cases h
  · next hk =>
    have hkind : a.kind = b.kind := Decidable.not_not.1 (mt .inl hk)
    -- the way starts at `a`, ends at `b`, and keeps the constructor in between
    split at h
    · cases h
      rfl
    · split at h
      · cases h
        exact hkind.symm
      · split at h <;> cases h <;> rfl

/-- A blend of two values of one kind has that kind. -/
theorem kind_blend {a b : Value} (hk : b.kind = a.kind) (t threshold : Float32) :
    (a.blend b t threshold).kind = a.kind := by
  unfold blend
  cases hm : a.mix? b t with
  | some v => exact kind_mix? hm
  | none =>
    show (if threshold ≤ t then b else a).kind = a.kind
    split
    · exact hk
    · rfl

end Value

/-! ### All values -/

/-- Writing all entries of one table into another, each on top of what is there. -/
theorem Table.get?_foldl_insert {κ β : Type} [DecidableEq κ] (f : Option β → β → β)
    (u t : Table κ β) (k : κ) :
    (u.entries.foldl (fun t (k, v) => t.insert k (f (t.get? k) v)) t).get? k =
      (u.get? k).elim (t.get? k) fun v => some (f (t.get? k) v) := by
  obtain ⟨es, hes⟩ := u
  simp only [get?]
  induction es generalizing t with
  | nil => rfl
  | cons e es ih =>
    obtain ⟨k', v⟩ := e
    rw [List.map_cons, List.nodup_cons] at hes
    rw [List.foldl_cons, ih _ hes.2, find]
    by_cases hk : k' = k
    · subst hk
      -- the key comes once, so what is written stays
      have hnone : find es k' = none := by
        cases hv : find es k' with
        | none => rfl
        | some w =>
          have hmem : (k', w) ∈ es := (get?_eq_some_iff (t := ⟨es, hes.2⟩)).1 hv
          exact absurd (List.mem_map_of_mem hmem) hes.1
      rw [hnone, if_pos rfl]
      exact (find_put _ _ _ _).trans (if_pos rfl)
    · have hinsert : ∀ w, find (t.insert k' w).entries k = find t.entries k :=
        fun w => (find_put _ _ _ _).trans (if_neg hk)
      rw [hinsert, if_neg hk]

/-- **The table of all blended values holds under every key the blend of its value.** -/
theorem get?_combine (base : Values) (overlays : List Overlay) (threshold : Float32)
    (key : String) :
    (combine base overlays threshold).get? key =
      combinedValue (base.get? key) overlays key threshold := by
  unfold combine combinedValue
  induction overlays.filter (·.isActive) generalizing base with
  | nil => rfl
  | cons o os ih =>
    have hfirst := Table.get?_foldl_insert (o.onto threshold) o.values base key
    rw [List.foldl_cons, List.foldl_cons, ih, hfirst]
    cases o.values.get? key <;> rfl

end Cascade
