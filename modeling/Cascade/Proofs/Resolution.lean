import Cascade.Resolution
import Mathlib.Data.List.Nodup
import Mathlib.Data.List.Induction

/-!
# What values depend on

The value of a property depends on what wins, property by property, and on the values taken
over, key by key.  It depends on neither the order of registration nor the element, and not on
where the winning declarations stand.

## Main definitions

* `Registry.Same` — two registries have the same properties, in whatever order.
* `Sources.Agrees` — two sources agree on all that values depend on.

## Main results

* `Registry.get?_inheritable_eq_some_iff` — what a child takes over.
* `Sources.get?_resolveEach`, `Sources.get?_resolveAll` — what is in a table of values.
* `Sources.Agrees.settle_eq` — sources that agree give every property the same value.
-/

namespace Cascade

/-! ### Tables -/

namespace Table

variable {κ β : Type} [DecidableEq κ]

/-- A choice among the keys shows in every look-up. -/
theorem get?_filter_key (p : κ → Bool) (t : Table κ β) (k : κ) :
    (t.filter fun k' _ => p k').get? k = if p k then t.get? k else none := by
  refine Option.ext fun v => ?_
  rw [get?_eq_some_iff]
  show (k, v) ∈ t.entries.filter _ ↔ _
  rw [List.mem_filter, ← get?_eq_some_iff]
  by_cases hp : p k = true <;> simp [hp]

/-- A table made of a list holds what is in the list, if no key has two values there. -/
theorem get?_ofList {es : List (κ × β)}
    (hes : ∀ k v w, (k, v) ∈ es → (k, w) ∈ es → v = w) (k : κ) (v : β) :
    (ofList es).get? k = some v ↔ (k, v) ∈ es := by
  induction es using List.reverseRecOn with
  | nil => simp [ofList]
  | append_singleton es e ih =>
    obtain ⟨k', v'⟩ := e
    have hlast : (k', v') ∈ es ++ [(k', v')] := List.mem_append_right es (List.mem_singleton_self _)
    have hofList : ofList (es ++ [(k', v')]) = (ofList es).insert k' v' := by
      rw [ofList, List.foldl_append]
      rfl
    have ih := ih fun k v w hv hw =>
      hes k v w (List.mem_append_left _ hv) (List.mem_append_left _ hw)
    rw [hofList, get?_insert]
    by_cases hk : k' = k
    · subst hk
      rw [if_pos rfl]
      constructor
      · intro h
        cases h
        exact hlast
      · intro hv
        rw [hes k' v' v hlast hv]
    · rw [if_neg hk, ih]
      simp [Ne.symm hk]

end Table

/-! ### Registries -/

namespace Registry

variable {r r' : Registry} {key : String} {p : Property}

/-- A look-up finds exactly the properties. -/
theorem lookup_eq_some_iff : r.lookup key = some p ↔ p ∈ r.properties ∧ p.key = key := by
  constructor
  · intro h
    exact ⟨List.mem_of_find?_eq_some h, eq_of_beq (List.find?_eq_some_iff_append.1 h).1⟩
  · rintro ⟨hp, rfl⟩
    cases hq : r.lookup p.key with
    | none =>
      exact absurd (beq_self_eq_true p.key) (List.find?_eq_none.1 hq p hp)
    | some q =>
      -- no key is registered twice
      have hqp : q.key = p.key := eq_of_beq (List.find?_eq_some_iff_append.1 hq).1
      rw [List.inj_on_of_nodup_map r.nodup (List.mem_of_find?_eq_some hq) hp hqp]

theorem lookup_of_mem (hp : p ∈ r.properties) : r.lookup p.key = some p :=
  lookup_eq_some_iff.2 ⟨hp, rfl⟩

/-- Two registries have the same properties, in whatever order. -/
def Same (r r' : Registry) : Prop := ∀ p, p ∈ r.properties ↔ p ∈ r'.properties

theorem Same.lookup_eq (hr : r.Same r') (key : String) : r'.lookup key = r.lookup key := by
  refine Option.ext fun p => ?_
  rw [lookup_eq_some_iff, lookup_eq_some_iff, hr p]

theorem Same.size_eq (hr : r.Same r') : r'.size = r.size := by
  have hperm : r'.properties.Perm r.properties :=
    (List.perm_ext_iff_of_nodup r'.nodup.of_map r.nodup.of_map).2 fun p => (hr p).symm
  exact hperm.length_eq

theorem Same.isInheritable_eq (hr : r.Same r') (key : String) :
    r'.isInheritable key = r.isInheritable key := by
  rw [isInheritable, isInheritable, hr.lookup_eq]

/-- What is taken over can be looked up key by key. -/
theorem Same.get?_inheritable (hr : r.Same r') {v v' : Values}
    (hv : ∀ key, v'.get? key = v.get? key) (key : String) :
    (v'.inheritable r').get? key = (v.inheritable r).get? key := by
  rw [Values.inheritable, Values.inheritable, Table.get?_filter_key, Table.get?_filter_key,
    hr.isInheritable_eq, hv]

/-- What is taken over: the values of the registered properties that are inheritable. -/
theorem get?_inheritable_eq_some_iff {vs : Values} {v : Value} :
    (vs.inheritable r).get? key = some v ↔
      vs.get? key = some v ∧ ∃ p, r.lookup key = some p ∧ p.inheritable = true := by
  rw [Values.inheritable, Table.get?_filter_key, isInheritable]
  cases r.lookup key with
  | none => simp
  | some p => cases hp : p.inheritable <;> simp [hp]

end Registry

/-! ### Sources -/

namespace Sources

variable {s s' : Sources} {key : String} {p : Property}

/-- The values of some properties are just those: every one has its value. -/
theorem get?_resolveEach {ps : List Property}
    (hps : ∀ p ∈ ps, s.registry.lookup p.key = some p) (key : String) (v : Value) :
    (s.resolveEach ps).1.get? key = some v ↔ ∃ p ∈ ps, p.key = key ∧ (s.settle p).1 = v := by
  have hmem : ∀ (key : String) (v : Value),
      (key, v) ∈ (ps.filterMap fun p => (s.resolve p.key).map (p.key, ·)).map
        (fun x => (x.1, x.2.1)) ↔ ∃ p ∈ ps, p.key = key ∧ (s.settle p).1 = v := by
    intro key v
    constructor
    · intro h
      obtain ⟨x, hx, hkv⟩ := List.mem_map.1 h
      obtain ⟨p, hp, hx⟩ := List.mem_filterMap.1 hx
      rw [resolve, hps p hp, Option.map_some, Option.map_some] at hx
      cases hx
      cases hkv
      exact ⟨p, hp, rfl, rfl⟩
    · rintro ⟨p, hp, rfl, rfl⟩
      have hx : (s.resolve p.key).map (p.key, ·) = some (p.key, (s.settle p).1,
          (s.settle p).2.map fun problem => ⟨s.element, p.key, problem⟩) := by
        rw [resolve, hps p hp]
        rfl
      exact List.mem_map.2 ⟨_, List.mem_filterMap.2 ⟨p, hp, hx⟩, rfl⟩
  refine (Table.get?_ofList ?_ key v).trans (hmem key v)
  intro key v w hv hw
  -- a key is registered once, so both values are that of the same property
  obtain ⟨p, hp, rfl, rfl⟩ := (hmem key v).1 hv
  obtain ⟨q, hq, hqp, rfl⟩ := (hmem p.key w).1 hw
  have hpq := hps q hq
  rw [hqp, hps p hp] at hpq
  cases hpq
  rfl

/-- Every registered property has its value, and no other key has one. -/
theorem get?_resolveAll (s : Sources) (key : String) :
    s.resolveAll.1.get? key = (s.registry.lookup key).map fun p => (s.settle p).1 := by
  refine Option.ext fun v => ?_
  rw [resolveAll, get?_resolveEach (fun p hp => Registry.lookup_of_mem hp),
    Option.map_eq_some_iff]
  simp only [Registry.lookup_eq_some_iff, and_assoc]

/-- Two sources agree on all that values depend on: the properties, the winning declaration of
each property, and the values taken over. -/
structure Agrees (s s' : Sources) : Prop where
  registry : s.registry.Same s'.registry
  winner : ∀ p, s.registry.lookup p.key = some p →
    (s'.ranking.winner p).map (·.declaration) = (s.ranking.winner p).map (·.declaration)
  snapshot : ∀ key, s'.snapshot.get? key = s.snapshot.get? key

namespace Agrees

theorem fallback_eq (ha : s.Agrees s') (p : Property) : s'.fallback p = s.fallback p := by
  rw [fallback, fallback, ha.snapshot]

/-- Variables lead to the same place. -/
theorem follow_eq (ha : s.Agrees s') (n : Nat) (visited : List String)
    (hp : s.registry.lookup p.key = some p) : s'.follow n visited p = s.follow n visited p := by
  induction n generalizing visited p with
  | zero => rfl
  | succ n ih =>
    have hwinner := ha.winner p hp
    rw [follow, follow]
    split
    · rfl
    · cases hw : s.ranking.winner p with
      | none =>
        rw [hw, Option.map_none, Option.map_eq_none_iff] at hwinner
        rw [hwinner]
        exact congrArg _ (ha.fallback_eq p)
      | some c =>
        rw [hw, Option.map_some, Option.map_eq_some_iff] at hwinner
        obtain ⟨c', hc', hd⟩ := hwinner
        rw [hc']
        dsimp only
        rw [hd]
        split
        · rfl
        · rfl
        · exact congrArg _ (ha.fallback_eq p)
        · next name _ _ =>
          rw [ha.registry.lookup_eq]
          split
          · rfl
          · next q hq =>
            -- the next property is registered as well
            have hkey : q.key = name := (Registry.lookup_eq_some_iff.1 hq).2
            exact ih _ (by rw [hkey, hq])

/-- **Sources that agree give every registered property the same value.** -/
theorem settle_eq (ha : s.Agrees s') (hp : s.registry.lookup p.key = some p) :
    s'.settle p = s.settle p := by
  rw [settle, settle, destination, destination, ha.registry.size_eq, ha.follow_eq _ _ hp]

theorem get?_resolveAll_eq (ha : s.Agrees s') (key : String) :
    s'.resolveAll.1.get? key = s.resolveAll.1.get? key := by
  rw [get?_resolveAll, get?_resolveAll, ha.registry.lookup_eq]
  cases hp : s.registry.lookup key with
  | none => rfl
  | some p =>
    have hkey : p.key = key := (Registry.lookup_eq_some_iff.1 hp).2
    rw [Option.map_some, Option.map_some, ha.settle_eq (by rw [hkey, hp])]

end Agrees
end Sources
end Cascade
