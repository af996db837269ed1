import Cascade.Proofs.Json.Reading
import Cascade.Proofs.Json.Records
import Cascade.Proofs.Number.Finite
import Cascade.Value.Json

/-!
# Values come out of JSON again

A value is an object named after its kind, and what it contains is found again.  The one thing that
has no written form is a float that is no number: `null` is written for it, and `null` is no float.
How close the decimal of a float comes to it is up to the number layer; of that it is assumed that
the finite floats in the value are read back.

## Main definitions

* `Json.ReadsBack` — the number layer reads back what it writes for a float.
* `Value.isFinite` — every float in a value is finite.

## Main results

* `Json.ofFloat32_eq_null` — `null` is written for what is no number.
* `Value.legible_toJson`, `Value.isProper_toJson` — what is written can be read, and kept whole.
* `Value.recovers` — **a value comes out of JSON again** if the floats in it are finite.
-/

namespace Cascade

/-! ### Floats -/

namespace Json

/-- The number layer reads back what it writes for a float, if that is finite. -/
def ReadsBack (x : Float32) : Prop := x.isFinite = true → (ofFloat32 x).float32? = some x

instance : DecidablePred ReadsBack := fun _ => inferInstanceAs (Decidable (_ → _))

theorem ofFloat32_eq_null {x : Float32} (hx : x.isFinite = false) : ofFloat32 x = .null := by
  have hnone : Numeral.ofFloat32? x = none := by
    rw [Numeral.ofFloat32?, (BinaryNumber.ofFloat32?_eq_none_iff x).2 hx, Option.map_none]
  rw [ofFloat32, hnone]

theorem legible_ofFloat32 (x : Float32) : Legible (ofFloat32 x) := by
  unfold ofFloat32
  split
  · next n hn => exact .number (Numeral.isWhole_ofFloat32? hn)
  · exact .null

theorem depth_ofFloat32 (x : Float32) : (ofFloat32 x).depth = 0 := by
  unfold ofFloat32
  split <;> rfl

/-- A finite float comes out again, any other is refused. -/
theorem recovers_float {x : Float32} (hx : ReadsBack x) :
    Recovers float32? ofFloat32 Float32.isFinite x := by
  unfold Recovers Option.guard
  by_cases hfinite : x.isFinite = true
  · rw [hx hfinite, if_pos hfinite]
  · rw [ofFloat32_eq_null (Bool.eq_false_iff.2 hfinite), if_neg hfinite]
    rfl

/-- A number that comes out is in range. -/
theorem isProper_of_float32? {j : Json} {x : Float32} (hj : j.float32? = some x) :
    j.isProper = true := by
  cases j with
  | number n =>
    -- a float is read from a whole number or from a fraction, and either is in range
    show (n.integer?.isSome || n.float?.isSome) = true
    have hn : n.float32? = some x := hj
    unfold Numeral.float32? at hn
    cases hi : n.integer? with
    | some i => rfl
    | none =>
      rw [hi] at hn
      obtain ⟨y, hy, -⟩ := Option.map_eq_some_iff.1 hn
      rw [hy]
      rfl
  | _ => cases hj

theorem isProper_of_integer? {j : Json} {i : Int} (hj : j.integer? = some i) :
    j.isProper = true := by
  cases j with
  | number n =>
    show (n.integer?.isSome || n.float?.isSome) = true
    have hn : n.integer? = some i := hj
    rw [hn]
    rfl
  | _ => cases hj

theorem isProper_ofFloat32 {x : Float32} (hx : ReadsBack x) (hfinite : x.isFinite = true) :
    (ofFloat32 x).isProper = true := isProper_of_float32? (hx hfinite)

theorem legible_array_map {α : Type} {put : α → Json} {xs : List α}
    (hxs : ∀ x ∈ xs, Legible (put x)) : Legible (.array (xs.map put)) :=
  .array (List.forall_mem_map.2 hxs)

theorem legible_ofMembers {ms : List (String × Json)} (hms : ∀ m ∈ ms, Legible m.2) :
    Legible (ofMembers ms) := by
  refine .object ?_ ?_
  · intro m hm
    obtain ⟨⟨k, x⟩, -, rfl⟩ := List.mem_map.1 hm
    rfl
  · intro m hm
    obtain ⟨⟨k, x⟩, hx, rfl⟩ := List.mem_map.1 hm
    exact hms _ hx

end Json

open Json

/-! ### Values -/

/-- Whether every float in a value is finite. -/
def Value.isFinite (v : Value) : Bool := v.floats.all (·.isFinite)

theorem Color.recovers {c : Color} (hc : ∀ x ∈ (Value.color c).floats, ReadsBack x) :
    Recovers Color.ofJson? Color.toJson (fun c => (Value.color c).isFinite) c := by
  have hfields : c.toJson.fields? ["r", "g", "b", "a"] =
      some [some (.ofFloat32 c.r), some (.ofFloat32 c.g), some (.ofFloat32 c.b),
        some (.ofFloat32 c.a)] := by
    refine (fields?_ofMembers (by simp) _).trans ?_
    simp [List.lookup_cons]
  have hr := recovers_float (hc c.r (by simp [Value.floats]))
  have hg := recovers_float (hc c.g (by simp [Value.floats]))
  have hb := recovers_float (hc c.b (by simp [Value.floats]))
  have ha := recovers_float (hc c.a (by simp [Value.floats]))
  unfold Recovers at *
  unfold Color.ofJson?
  rw [hfields]
  simp only [Option.bind_eq_bind, Option.bind_some, orElse, hr, hg, hb, ha, guard_bind]
  simp only [Option.guard, Value.isFinite, Value.floats, List.all_cons, List.all_nil, Bool.and_true,
    Bool.and_eq_true, ite_and]
  rfl

theorem Vector2.recovers {v : Vector2} (hv : ∀ x ∈ (Value.vector2 v).floats, ReadsBack x) :
    Recovers Vector2.ofJson? Vector2.toJson (fun v => (Value.vector2 v).isFinite) v := by
  have hfields : v.toJson.fields? ["x", "y"] =
      some [some (.ofFloat32 v.x), some (.ofFloat32 v.y)] := by
    refine (fields?_ofMembers (by simp) _).trans ?_
    simp [List.lookup_cons]
  have hx := recovers_float (hv v.x (by simp [Value.floats]))
  have hy := recovers_float (hv v.y (by simp [Value.floats]))
  unfold Recovers at *
  unfold Vector2.ofJson?
  rw [hfields]
  simp only [Option.bind_eq_bind, Option.bind_some, hx, hy, guard_bind]
  simp only [Option.guard, Value.isFinite, Value.floats, List.all_cons, List.all_nil, Bool.and_true,
    Bool.and_eq_true, ite_and]
  rfl

theorem Kind.ofName?_name (k : Kind) : Kind.ofName? k.name = some k := by
  cases k <;> decide

/-- A finite value is equal to itself as a number. -/
theorem Value.agrees_self {v : Value} (hv : v.isFinite = true) : v.agrees v = true := by
  have hself : ∀ x ∈ v.floats, (x == x) = true :=
    fun x hx => beq_self_of_isFinite (List.all_eq_true.1 hv x hx)
  cases v with
  | color c =>
    simp only [Value.floats, List.forall_mem_cons] at hself
    obtain ⟨hr, hg, hb, ha, -⟩ := hself
    simp [Value.agrees, Color.agrees, hr, hg, hb, ha]
  | float x => exact hself x List.mem_cons_self
  | vector2 w =>
    simp only [Value.floats, List.forall_mem_cons] at hself
    obtain ⟨hx, hy, -⟩ := hself
    simp [Value.agrees, Vector2.agrees, hx, hy]
  | int n => exact beq_self_eq_true n
  | bool b => exact beq_self_eq_true b
  | keyword s => exact beq_self_eq_true s
  | sprite s => exact beq_self_eq_true s
  | font s => exact beq_self_eq_true s
  | text s => exact beq_self_eq_true s

/-- **A value comes out again,** if the floats in it are finite. -/
theorem Value.recovers {v : Value} (hv : ∀ x ∈ v.floats, ReadsBack x) :
    Recovers Value.ofJson? Value.toJson Value.isFinite v := by
  show ((Kind.ofName? v.kind.name).bind fun k => ofContent? k v.content) = _
  rw [Kind.ofName?_name, Option.bind_some]
  cases v with
  | color c =>
    show (Color.ofJson? c.toJson).map Value.color = _
    rw [Color.recovers hv, Option.map_guard]
    rfl
  | float x =>
    show (float32? (ofFloat32 x)).map Value.float = _
    rw [recovers_float (hv x List.mem_cons_self), Option.map_guard]
    simp only [Option.guard, Value.isFinite, Value.floats, List.all_cons, List.all_nil,
      Bool.and_true]
  | int n =>
    show ((ofInt n.toInt).int32?).map Value.int = _
    rw [int32?_ofInt]
    rfl
  | vector2 w =>
    show (Vector2.ofJson? w.toJson).map Value.vector2 = _
    rw [Vector2.recovers hv, Option.map_guard]
    rfl
  | bool b => rfl
  | keyword s => rfl
  | sprite s => rfl
  | font s => rfl
  | text s => rfl

/-- A finite value is in range, whatever its kind. -/
theorem Value.isProper_toJson {v : Value} (hv : ∀ x ∈ v.floats, ReadsBack x)
    (hfinite : v.isFinite = true) : v.toJson.isProper = true := by
  have hproper : ∀ x ∈ v.floats, (ofFloat32 x).isProper = true :=
    fun x hx => isProper_ofFloat32 (hv x hx) (List.all_eq_true.1 hfinite x hx)
  cases v with
  | color c =>
    simp only [Value.floats, List.forall_mem_cons] at hproper
    obtain ⟨hr, hg, hb, ha, -⟩ := hproper
    simp [Value.toJson, Value.content, Color.toJson, ofMembers, isProper, membersProper,
      memberProper, hr, hg, hb, ha]
  | float x =>
    have hx := hproper x List.mem_cons_self
    simp [Value.toJson, Value.content, ofMembers, isProper, membersProper, memberProper, hx]
  | int n =>
    have hlow := n.le_toInt
    have hhigh := n.toInt_lt
    have hn := isProper_of_integer? (integer?_ofInt (n := n.toInt) (by omega) (by omega))
    simp [Value.toJson, Value.content, ofMembers, isProper, membersProper, memberProper, hn]
  | vector2 w =>
    simp only [Value.floats, List.forall_mem_cons] at hproper
    obtain ⟨hx, hy, -⟩ := hproper
    simp [Value.toJson, Value.content, Vector2.toJson, ofMembers, isProper, membersProper,
      memberProper, hx, hy]
  | bool _ => rfl
  | keyword _ => rfl
  | sprite _ => rfl
  | font _ => rfl
  | text _ => rfl

theorem Value.depth_toJson_le (v : Value) : v.toJson.depth ≤ 2 := by
  cases v with
  | color c =>
    simp [Value.toJson, Value.content, Color.toJson, ofMembers, depth, membersDepth, memberDepth,
      depth_ofFloat32]
  | float x =>
    simp [Value.toJson, Value.content, ofMembers, depth, membersDepth, memberDepth, depth_ofFloat32]
  | vector2 w =>
    simp [Value.toJson, Value.content, Vector2.toJson, ofMembers, depth, membersDepth, memberDepth,
      depth_ofFloat32]
  | int _ => exact Nat.le_succ 1
  | bool _ => exact Nat.le_succ 1
  | keyword _ => exact Nat.le_succ 1
  | sprite _ => exact Nat.le_succ 1
  | font _ => exact Nat.le_succ 1
  | text _ => exact Nat.le_succ 1

theorem Value.legible_toJson (v : Value) : v.toJson.Legible := by
  have hcontent : v.content.Legible := by
    cases v with
    | color c =>
      refine legible_ofMembers ?_
      simp [legible_ofFloat32]
    | float x => exact legible_ofFloat32 x
    | int n => exact .number (Numeral.isWhole_ofInt n.toInt)
    | vector2 w =>
      refine legible_ofMembers ?_
      simp [legible_ofFloat32]
    | bool b => exact .bool b
    | keyword s => exact .string s
    | sprite s => exact .string s
    | font s => exact .string s
    | text s => exact .string s
  refine legible_ofMembers ?_
  rintro _ (_ | ⟨_, ⟨⟩⟩)
  exact hcontent

end Cascade
