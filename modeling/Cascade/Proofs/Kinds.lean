import Cascade.Proofs.Overlay
import Cascade.Proofs.Variables

/-!
# Kinds of values

Registration fixes the kind of a property's values.  A value of another kind can enter in one way
only, at the end of a way along variables, and there it is caught and reported; literals of
another kind provide nothing.

## Main definitions

* `Registry.Admits` — a value has the kind that was registered for its key.
* `Registry.Kinded`, `Values.Kinded` — all initial values have, and all values of a table.
* `Registry.Extends` — a registry to which properties may have been added.

## Main results

* `Values.Kinded.combinedValue`, `Values.Kinded.combine` — blending keeps kinds.
* `Sources.kinded_resolveAll`, `Overlay.kinded_recompute` — what is computed is of the right kind.
* `Sources.refers_of_mismatch` — **a mismatch is reported at variables only.**
-/

namespace Cascade

/-! ### Registered kinds -/

namespace Registry

variable {r r' : Registry} {key : String} {v : Value} {p : Property}

/-- The key is registered, and the value has its kind. -/
def Admits (r : Registry) (key : String) (v : Value) : Prop :=
  ∃ p, r.lookup key = some p ∧ v.kind = p.kind

/-- The initial value of every property is of its kind. -/
def Kinded (r : Registry) : Prop := ∀ p ∈ r.properties, p.initial.kind = p.kind

/-- All properties are there as they were. -/
def Extends (r' r : Registry) : Prop := ∀ key p, r.lookup key = some p → r'.lookup key = some p

theorem Extends.refl (r : Registry) : r.Extends r := fun _ _ => id

theorem Extends.trans {r'' : Registry} (h₁ : r'.Extends r) (h₂ : r''.Extends r') : r''.Extends r :=
  fun key p hp => h₂ key p (h₁ key p hp)

theorem Admits.mono (ha : r.Admits key v) (he : r'.Extends r) : r'.Admits key v := by
  obtain ⟨p, hp, hk⟩ := ha
  exact ⟨p, he key p hp, hk⟩

theorem Admits.contains (ha : r.Admits key v) : r.contains key = true := by
  obtain ⟨p, hp, -⟩ := ha
  rw [Registry.contains, hp, Option.isSome_some]

/-- Two values under one key have one kind. -/
theorem Admits.kind_eq {w : Value} (hv : r.Admits key v) (hw : r.Admits key w) :
    v.kind = w.kind := by
  obtain ⟨p, hp, hv⟩ := hv
  obtain ⟨q, hq, hw⟩ := hw
  rw [hp] at hq
  cases hq
  rw [hv, hw]

/-- A registration adds one property, of the kind of its initial value. -/
theorem register?_eq_some {initial : Value} {inheritable : Bool} {id : PropertyId}
    (h : r.register? key initial inheritable = some (id, r')) :
    r.contains key = false ∧
      r'.properties = r.properties ++ [⟨key, initial.kind, inheritable, initial⟩] := by
  unfold register? at h
  dsimp only at h
  split at h
  · cases h
  · next hn =>
    cases h
    exact ⟨Bool.eq_false_iff.2 hn, rfl⟩

theorem Kinded.register? {initial : Value} {inheritable : Bool} {id : PropertyId}
    (hr : r.Kinded) (h : r.register? key initial inheritable = some (id, r')) : r'.Kinded := by
  intro p hp
  rw [(register?_eq_some h).2, List.mem_append, List.mem_singleton] at hp
  rcases hp with hp | rfl
  · exact hr p hp
  · rfl

theorem extends_register? {initial : Value} {inheritable : Bool} {id : PropertyId}
    (h : r.register? key initial inheritable = some (id, r')) : r'.Extends r := by
  intro k p hp
  rw [lookup_eq_some_iff] at hp ⊢
  rw [(register?_eq_some h).2]
  exact ⟨List.mem_append_left _ hp.1, hp.2⟩

/-- What was registered can be looked up. -/
theorem lookup_register? {initial : Value} {inheritable : Bool} {id : PropertyId}
    (h : r.register? key initial inheritable = some (id, r')) :
    r'.lookup key = some ⟨key, initial.kind, inheritable, initial⟩ := by
  rw [lookup_eq_some_iff, (register?_eq_some h).2]
  exact ⟨List.mem_append_right _ (List.mem_singleton_self _), rfl⟩

end Registry

/-! ### Tables of values -/

/-- Every key of the table is registered, and its value has the kind. -/
def Values.Kinded (vs : Values) (r : Registry) : Prop :=
  ∀ key v, vs.get? key = some v → r.Admits key v

namespace Values

variable {vs : Values} {r r' : Registry} {os : List Overlay} {key : String} {v : Value}

theorem kinded_empty (r : Registry) : Kinded {} r := nofun

theorem Kinded.mono (hv : vs.Kinded r) (he : r'.Extends r) : vs.Kinded r' :=
  fun key v h => (hv key v h).mono he

theorem Kinded.inheritable (hv : vs.Kinded r) (r' : Registry) : (vs.inheritable r').Kinded r := by
  intro key v h
  rw [Values.inheritable, Table.get?_filter_key] at h
  split at h
  · exact hv key v h
  · cases h

/-- A value with values of its kind blended over it keeps its kind; where it is missing, it is
only filled in by what is blended over it. -/
theorem Kinded.combinedValue {base : Option Value} (hb : ∀ v, base = some v → r.Admits key v)
    (ho : ∀ o ∈ os, o.values.Kinded r) (threshold : Float32) :
    ∀ v, combinedValue base os key threshold = some v → r.Admits key v := by
  unfold Cascade.combinedValue
  have hactive : ∀ o ∈ os.filter (·.isActive), o.values.Kinded r :=
    fun o h => ho o (List.mem_of_mem_filter h)
  generalize os.filter (·.isActive) = active at hactive ⊢
  induction active generalizing base with
  | nil => exact hb
  | cons o active ih =>
    refine ih ?_ fun o' h => hactive o' (List.mem_cons_of_mem o h)
    have htop := hactive o List.mem_cons_self key
    dsimp only
    cases hv : o.values.get? key with
    | none => exact hb
    | some top =>
      intro v h
      cases h
      cases base with
      | none => exact htop top hv
      | some b =>
        have hbase := hb b rfl
        have hkind := Value.kind_blend ((htop top hv).kind_eq hbase) o.blend threshold
        obtain ⟨p, hp, hk⟩ := hbase
        exact ⟨p, hp, hkind.trans hk⟩

/-- Blending loses no value. -/
theorem isSome_combinedValue {base : Option Value} (hb : base.isSome = true) (os : List Overlay)
    (key : String) (threshold : Float32) :
    (Cascade.combinedValue base os key threshold).isSome = true := by
  unfold Cascade.combinedValue
  induction os.filter (·.isActive) generalizing base with
  | nil => exact hb
  | cons o os ih =>
    refine ih ?_
    dsimp only
    cases o.values.get? key with
    | none => exact hb
    | some v => rfl

theorem Kinded.combine (hv : vs.Kinded r) (ho : ∀ o ∈ os, o.values.Kinded r)
    (threshold : Float32) : (combine vs os threshold).Kinded r := by
  intro key v h
  rw [get?_combine] at h
  exact Kinded.combinedValue (hv key) ho threshold v h

end Values

/-! ### What is computed -/

namespace Sources

variable {s : Sources} {p q : Property} {visited : List String} {v : Value}

/-- Settling a property gives a value of its kind, whatever the way leads to. -/
theorem kind_settle (hp : p.initial.kind = p.kind) : (s.settle p).1.kind = p.kind := by
  unfold settle
  split
  · split
    · assumption
    · exact hp
  · exact hp
  · exact hp

theorem kinded_resolveEach (hr : s.registry.Kinded) {ps : List Property}
    (hps : ∀ p ∈ ps, p ∈ s.registry.properties) : (s.resolveEach ps).1.Kinded s.registry := by
  intro key v h
  have hlook : ∀ p ∈ ps, s.registry.lookup p.key = some p :=
    fun p hp => Registry.lookup_of_mem (hps p hp)
  obtain ⟨p, hp, rfl, rfl⟩ := (get?_resolveEach hlook key v).1 h
  exact ⟨p, hlook p hp, kind_settle (hr p (hps p hp))⟩

theorem kinded_resolveAll (hr : s.registry.Kinded) : s.resolveAll.1.Kinded s.registry :=
  kinded_resolveEach hr fun _ hp => hp

/-- What is there without a look at another property is of the right kind. -/
theorem Terminal.kind_eq (hr : s.registry.Kinded) (hs : s.snapshot.Kinded s.registry)
    (hp : p ∈ s.registry.properties) (hv : s.Terminal p v) : v.kind = p.kind := by
  cases hv with
  | reset => exact hr p hp
  | literal hw hm hv =>
    -- a literal of another kind would not have won
    obtain ⟨-, -, -, hprovides, -⟩ := Ranking.winner_eq_some_iff.1 hw
    obtain hi | ⟨-, ⟨name, hn⟩ | ⟨w, hw, hk⟩⟩ := hprovides
    · exact absurd hi hm
    · rw [hv] at hn
      cases hn
    · rw [hv] at hw
      cases hw
      exact hk
  | inherited hw hi hv =>
    obtain ⟨q, hq, hk⟩ := hs p.key v hv
    rw [Registry.lookup_of_mem hp] at hq
    cases hq
    exact hk
  | initial => exact hr p hp

/-- A way that leads to another property starts with a variable. -/
theorem Trail.refers (ht : s.Trail p visited q) : q = p ∨ ∃ name, s.Refers p name := by
  induction ht with
  | start => exact .inl rfl
  | next _ _ hn _ ih =>
    rcases ih with rfl | hp
    · exact .inr ⟨_, hn⟩
    · exact .inr hp

/-- **A mismatch is reported at variables only:** the winning declaration of the property is a
variable, no reset and no literal, and the property has not taken its value over. -/
theorem refers_of_mismatch (hr : s.registry.Kinded) (hs : s.snapshot.Kinded s.registry)
    (hp : p ∈ s.registry.properties) {expected found : Kind}
    (h : (s.settle p).2 = some (.typeMismatch expected found)) :
    expected = p.kind ∧ ∃ name, s.Refers p name := by
  obtain ⟨value, hsettle⟩ : ∃ value, s.settle p = (value, some (.typeMismatch expected found)) :=
    ⟨(s.settle p).1, by rw [← h]⟩
  cases (settle_eq_iff (Registry.lookup_of_mem hp)).1 hsettle with
  | mismatch ht hq hv hk =>
    refine ⟨rfl, ht.refers.resolve_left ?_⟩
    rintro rfl
    exact hk (hv.kind_eq hr hs hp)

/-- A report is about the element and one of the properties. -/
theorem mem_resolveEach_snd {ps : List Property} {d : Diagnostic}
    (hps : ∀ p ∈ ps, p ∈ s.registry.properties) (hd : d ∈ (s.resolveEach ps).2) :
    d.element = s.element ∧ ∃ p ∈ ps, p.key = d.key ∧ (s.settle p).2 = some d.problem := by
  obtain ⟨x, hx, hd⟩ := List.mem_filterMap.1 hd
  obtain ⟨p, hp, hx⟩ := List.mem_filterMap.1 hx
  rw [resolve, Registry.lookup_of_mem (hps p hp), Option.map_some, Option.map_some] at hx
  cases hx
  obtain ⟨problem, hproblem, rfl⟩ := Option.map_eq_some_iff.1 hd
  exact ⟨rfl, p, hp, rfl, hproblem⟩

end Sources

theorem Overlay.kinded_recompute {s : Scene} (hr : s.registry.Kinded) (o : Overlay)
    (snapshot : Values) : (o.recompute s snapshot).1.values.Kinded s.registry :=
  Sources.kinded_resolveEach (s := ⟨s.element, s.registry, _, snapshot⟩) hr
    fun _ hp => List.mem_of_mem_filter hp

end Cascade
