import Cascade.Proofs.Value.Recovery
import Cascade.Sheet.Json

/-!
# Sheets come back from their text

A sheet is written in full: every rule, every declaration, its payload if it has one, whatever its
mode.  No literal is taken for a name, since no kind is called like the member that names a
property.  So a sheet comes back from its text if all floats in it are finite, and else the text is
refused.

## Main definitions

* `Payload.isFinite`, `Declaration.isFinite`, `Rule.isFinite`, `Sheet.isFinite` — every float is
  finite.

## Main results

* `Payload.variableOfJson?_toJson` — no literal is taken for a name.
* `Payload.recovers`, `Declaration.recovers`, `Rule.recovers`, `Sheet.recovers` — what comes out of
  JSON again.
* `Sheet.ofJsonText?_toJsonText` — **sheets come back from their text** if their floats are finite,
  and no others do.
-/

namespace Cascade

open Json

/-! ### Payloads -/

/-- The floats in a payload. -/
def Payload.floats : Payload → List Float32
  | .variable _ => []
  | .literal v => v.floats

/-- Whether every float in a payload is finite. -/
def Payload.isFinite (p : Payload) : Bool := p.floats.all (·.isFinite)

/-- No kind is called like the member that names a property, so no literal is taken for one. -/
theorem Payload.variableOfJson?_toJson (v : Value) : variableOfJson? v.toJson = none := by
  have hfields : v.toJson.objectFields? ["variableRef"] = some [none] := by
    refine (objectFields?_ofMembers (by simp) _).trans ?_
    cases v <;> simp [List.lookup_cons, Value.kind, Kind.name]
  unfold variableOfJson?
  rw [hfields]
  rfl

/-- **A payload comes out again,** as a name or as a literal. -/
theorem Payload.recovers {outer : Nat} (ho : outer + 2 ≤ bracketLimit) {p : Payload}
    (hp : ∀ x ∈ p.floats, ReadsBack x) :
    Recovers (Payload.ofJson? outer) Payload.toJson Payload.isFinite p := by
  match p, hp with
  | .variable name, _ =>
    have hfields : (Payload.variable name).toJson.objectFields? ["variableRef"] =
        some [some (ofString name)] := by
      refine (objectFields?_ofMembers (by simp) _).trans ?_
      simp [List.lookup_cons]
    have hname : variableOfJson? (Payload.variable name).toJson = some name := by
      unfold variableOfJson?
      rw [hfields]
      rfl
    unfold Recovers Payload.ofJson?
    rw [hname]
    exact if_pos ⟨rfl, Nat.le_of_succ_le ho⟩
  | .literal v, hv =>
    -- no name is found in a literal, so it is read as a value
    have hvalue : Value.ofJson? v.toJson = Option.guard Value.isFinite v := Value.recovers hv
    have htext : (Payload.literal v).toJson = v.toJson := rfl
    unfold Recovers Payload.ofJson?
    rw [htext, variableOfJson?_toJson, hvalue, Option.map_guard]
    dsimp only
    by_cases hfinite : v.isFinite = true
    · have hdepth := v.depth_toJson_le
      rw [if_pos ⟨Value.isProper_toJson hv hfinite, by omega⟩]
      rfl
    · rw [if_neg hfinite, ite_self]
      exact (if_neg hfinite).symm

theorem Payload.legible_toJson (p : Payload) : p.toJson.Legible := by
  cases p with
  | literal v => exact v.legible_toJson
  | _ name =>
    refine legible_ofMembers ?_
    rintro _ (_ | ⟨_, ⟨⟩⟩)
    exact .string name

/-! ### Declarations -/

/-- The floats in a declaration. -/
def Declaration.floats (d : Declaration) : List Float32 := (d.literal?.map Value.floats).getD []

/-- Whether every float in a declaration is finite. -/
def Declaration.isFinite (d : Declaration) : Bool := d.floats.all (·.isFinite)

theorem Mode.ofJson?_toJson (m : Mode) : Mode.ofJson? m.toJson = some m := by
  cases m <;> decide

/-- **A declaration comes out again,** with its payload or without. -/
theorem Declaration.recovers {outer : Nat} (ho : outer + 3 ≤ bracketLimit) {d : Declaration}
    (hd : ∀ x ∈ d.floats, ReadsBack x) :
    Recovers (Declaration.ofJson? outer) Declaration.toJson Declaration.isFinite d := by
  obtain ⟨key, mode, payload⟩ := d
  have hmode := Mode.ofJson?_toJson mode
  unfold Recovers Declaration.ofJson?
  cases payload with
  | none =>
    have hfields : (Declaration.toJson ⟨key, mode, none⟩).fields? ["key", "valueType", "value"] =
        some [some (ofString key), some mode.toJson, none] := by
      refine (fields?_ofMembers (by simp) _).trans ?_
      simp [List.lookup_cons]
    rw [hfields]
    simp only [Option.bind_eq_bind, Option.bind_some, orElse, hmode, payloadField?]
    rfl
  | some p =>
    have hp : ∀ x ∈ p.floats, ReadsBack x := by
      cases p with
      | literal v => exact hd
      | _ => exact fun x hx => absurd hx List.not_mem_nil
    have hfields : (Declaration.toJson ⟨key, mode, some p⟩).fields? ["key", "valueType", "value"] =
        some [some (ofString key), some mode.toJson, some p.toJson] := by
      refine (fields?_ofMembers (by simp) _).trans ?_
      simp [List.lookup_cons]
    -- a payload that is refused makes the declaration fail; it is not taken for a missing one
    have hpayload : payloadField? (outer + 1) (some p.toJson) =
        (Option.guard Payload.isFinite p).map some := by
      have hpayload : Payload.ofJson? (outer + 1) p.toJson = Option.guard Payload.isFinite p :=
        Payload.recovers ho hp
      rw [← hpayload]
      cases p <;> rfl
    have hfinite : Declaration.isFinite ⟨key, mode, some p⟩ = p.isFinite := by cases p <;> rfl
    rw [hfields]
    simp only [Option.bind_eq_bind, Option.bind_some, orElse, hmode, hpayload, Option.bind_map,
      Function.comp_def, guard_bind]
    rw [Option.guard, hfinite]
    rfl

theorem Declaration.agrees_self {d : Declaration} (hd : d.isFinite = true) :
    d.agrees d = true := by
  obtain ⟨key, mode, payload⟩ := d
  have hpayload : ∀ p, payload = some p → p.agrees p = true := by
    rintro p rfl
    cases p with
    | literal v => exact Value.agrees_self hd
    | _ name => exact beq_self_eq_true name
  unfold Declaration.agrees
  cases payload with
  | none => simp
  | some p => simp [hpayload p rfl]

theorem Declaration.legible_toJson (d : Declaration) : d.toJson.Legible := by
  have hmode : d.mode.toJson.Legible := .string d.mode.name
  refine legible_ofMembers ?_
  cases hp : d.payload with
  | none => simp [hmode, ofString, Legible.string]
  | some p => simp [hmode, p.legible_toJson, ofString, Legible.string]

/-! ### Rules and sheets -/

/-- The floats in a rule. -/
def Rule.floats (r : Rule) : List Float32 := r.declarations.flatMap Declaration.floats

/-- Whether every float in a rule is finite. -/
def Rule.isFinite (r : Rule) : Bool := r.declarations.all (·.isFinite)

/-- **A rule comes out again,** if all its declarations do. -/
theorem Rule.recovers {outer : Nat} (ho : outer + 5 ≤ bracketLimit) {r : Rule}
    (hr : ∀ x ∈ r.floats, ReadsBack x) :
    Recovers (Rule.ofJson? outer) Rule.toJson Rule.isFinite r := by
  have hds : list? (Declaration.ofJson? (outer + 2))
      (.array (r.declarations.map Declaration.toJson)) =
        Option.guard (·.all (·.isFinite)) r.declarations :=
    recovers_list fun d hd =>
      Declaration.recovers ho fun x hx => hr x (List.mem_flatMap.2 ⟨d, hd, hx⟩)
  have hfields : r.toJson.fields? ["selector", "properties"] =
      some [some (ofString r.selector), some (.array (r.declarations.map Declaration.toJson))] := by
    refine (fields?_ofMembers (by simp) _).trans ?_
    simp [List.lookup_cons]
  unfold Recovers Rule.ofJson?
  rw [hfields]
  simp only [Option.bind_eq_bind, Option.bind_some, orElse, hds, guard_bind]
  rfl

/-- A list agrees with itself if its items do. -/
theorem listAgrees_self {α : Type} {agrees : α → α → Bool} {xs : List α}
    (hxs : ∀ x ∈ xs, agrees x x = true) : listAgrees agrees xs xs = true := by
  induction xs with
  | nil => rfl
  | cons x xs ih =>
    rw [listAgrees, hxs x List.mem_cons_self, ih fun y hy => hxs y (List.mem_cons_of_mem x hy)]
    rfl

theorem Rule.agrees_self {r : Rule} (hr : r.isFinite = true) : r.agrees r = true := by
  have hds := listAgrees_self fun d hd => Declaration.agrees_self (List.all_eq_true.1 hr d hd)
  simp [Rule.agrees, hds]

theorem Rule.legible_toJson (r : Rule) : r.toJson.Legible := by
  have hds : (Json.array (r.declarations.map Declaration.toJson)).Legible :=
    legible_array_map fun d _ => d.legible_toJson
  refine legible_ofMembers ?_
  simp [hds, ofString, Legible.string]

namespace Sheet

/-- Whether every float in a sheet is finite. -/
def isFinite (s : Sheet) : Bool := s.rules.all (·.isFinite)

theorem isFinite_iff (s : Sheet) : s.isFinite = true ↔ ∀ x ∈ s.floats, x.isFinite = true := by
  rw [← List.all_eq_true]
  simp only [floats, List.all_flatMap]
  rfl

/-- **A sheet comes out of JSON again,** if all its rules do. -/
theorem recovers {s : Sheet} (hs : ∀ x ∈ s.floats, ReadsBack x) :
    Recovers Sheet.ofJson? Sheet.toJson isFinite s := by
  have hrules : list? (Rule.ofJson? 2) (.array (s.rules.map Rule.toJson)) =
      Option.guard (·.all (·.isFinite)) s.rules :=
    recovers_list fun r hr =>
      Rule.recovers (by decide) fun x hx => hs x (List.mem_flatMap.2 ⟨r, hr, hx⟩)
  have hfields : s.toJson.fields? ["rules", "isReadOnly", "sortIndex"] =
      some [some (.array (s.rules.map Rule.toJson)), some (.bool s.readOnly),
        some (.ofInt s.sortIndex.toInt)] := by
    refine (fields?_ofMembers (by simp) _).trans ?_
    simp [List.lookup_cons]
  unfold Recovers Sheet.ofJson?
  rw [hfields]
  simp only [Option.bind_eq_bind, Option.bind_some, orElse, hrules, int32?_ofInt, guard_bind]
  rfl

theorem agrees_self {s : Sheet} (hs : s.isFinite = true) : s.agrees s = true := by
  have hrules := listAgrees_self fun r hr => Rule.agrees_self (List.all_eq_true.1 hs r hr)
  simp [agrees, hrules]

theorem legible_toJson (s : Sheet) : s.toJson.Legible := by
  have hrules : (Json.array (s.rules.map Rule.toJson)).Legible :=
    legible_array_map fun r _ => r.legible_toJson
  have hindex : (Json.ofInt s.sortIndex.toInt).Legible := .number (Numeral.isWhole_ofInt _)
  refine legible_ofMembers ?_
  simp [hrules, hindex, Legible.bool]

/-- **A sheet comes back from its text** equal to what it was just if all floats in it are finite;
the text of any other sheet is refused.  Of the number layer it is assumed that it reads back the
finite floats in the sheet. -/
theorem ofJsonText?_toJsonText (s : Sheet) (hs : ∀ x ∈ s.floats, ReadsBack x) :
    ((∃ t, ofJsonText? s.toJsonText = some t ∧ t.agrees s = true) ↔
      ∀ x ∈ s.floats, x.isFinite = true) ∧
    ofJsonText? s.toJsonText =
      if ∀ x ∈ s.floats, x.isFinite = true then some s else none := by
  -- the text gives back the tree, and the tree the sheet, unless a float has become `null`
  have hread : ofJsonText? s.toJsonText = Option.guard isFinite s := by
    rw [ofJsonText?, toJsonText, parse?_render s.legible_toJson, Option.bind_some]
    exact recovers hs
  simp only [hread, ← isFinite_iff]
  refine ⟨⟨?_, fun hfinite => ⟨s, Option.guard_pos hfinite, agrees_self hfinite⟩⟩, rfl⟩
  rintro ⟨t, ht, -⟩
  exact (Option.guard_eq_some_iff.1 ht).2

/-- A sheet with each kind of float in it, texts that need escapes, and declarations of all modes,
in which payloads do not fit. -/
def gallery : Sheet where
  rules :=
    [⟨"Button.primary:hover",
      [{ key := "tint", payload := some (.literal (.color ⟨1, 0.5, .ofBits 0x3DCCCCCD, 0⟩)) },
        { key := "opacity", payload := some (.literal (.float (.ofBits 0x33D6BF95))) },
        { key := "offset", payload := some (.literal (.vector2 ⟨.ofBits 0xFF7FFFFF, .ofBits 1⟩)) },
        { key := "width", mode := .initial, payload := some (.literal (.int (-7))) },
        { key := "title", mode := .inherited, payload := some (.literal (.text "\"é\"\n\x01")) }]⟩,
      ⟨"variableRef",
        [{ key := "", payload := some (.variable "variableRef") }, { key := "none" }]⟩,
      { selector := "" }]
  readOnly := true
  sortIndex := -3

/-- The sheet comes back; with an infinite opacity it does not. -/
theorem ofJsonText?_gallery :
    let infinite : Sheet :=
      { rules := [⟨"*", [.ofLiteral "opacity" (.float (.ofBits 0x7F800000))]⟩] }
    (∀ x ∈ gallery.floats, ReadsBack x) ∧ (∀ x ∈ infinite.floats, ReadsBack x) ∧
    (∃ t, ofJsonText? gallery.toJsonText = some t ∧ t.agrees gallery = true) ∧
    ofJsonText? gallery.toJsonText = some gallery ∧ ofJsonText? infinite.toJsonText = none := by
  intro infinite
  have hs : ∀ x ∈ gallery.floats, ReadsBack x := by decide +kernel
  have hs' : ∀ x ∈ infinite.floats, ReadsBack x := by decide +kernel
  have hfinite : ∀ x ∈ gallery.floats, x.isFinite = true := by decide +kernel
  have hinfinite : ¬ ∀ x ∈ infinite.floats, x.isFinite = true := by decide +kernel
  obtain ⟨hequal, hread⟩ := ofJsonText?_toJsonText gallery hs
  have hread' := (ofJsonText?_toJsonText infinite hs').2
  rw [if_pos hfinite] at hread
  rw [if_neg hinfinite] at hread'
  exact ⟨hs, hs', hequal.2 hfinite, hread, hread'⟩

end Sheet

end Cascade
