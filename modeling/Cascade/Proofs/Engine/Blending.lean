import Cascade.Engine.Queries
import Cascade.Proofs.Engine.Furnished
import Cascade.Proofs.Overlay

/-!
# What blending shows

Overlays that are not active, and those that do not hold a key, do not show under the key.  The
last one that shows, if it is faded in all the way and past the threshold, hides all that is
below it: at the end of the way there is no arithmetic, and no switch is left to be thrown.

## Main definitions

* `Holds` — an active overlay has a value for a key.
* `OnTop` — the last active overlay that has a value for a key, with the value.

## Main results

* `combinedValue_of_not_holds` — what no overlay holds shows as it is.
* `OnTop.combinedValue_eq` — what is on top and opaque shows alone.
* `Engine.value?_eq` — the two ways to ask for a value.
* `Engine.combined_run` — **blending, for all overlays and after every run.**
-/

namespace Cascade

open Float.Model (UnpackedFloat)

variable {overlays front back : List Overlay} {o : Overlay} {key : String} {v : Value}
  {threshold : Float32}

/-! ### Factors -/

theorem unpack_zero : (0 : Float32).toModel.unpack = .zero .positive := rfl

/-- A positive factor is a number, and not at the start of the way. -/
theorem not_start_of_pos {t : Float32} (ht : 0 < t) : ¬ (t.isNaN = true ∨ t ≤ 0) := by
  have hlt : (0 : Float32).toModel.unpack.lt t.toModel.unpack = true := of_decide_eq_true ht
  have hle : t ≤ 0 ↔ t.toModel.unpack.le (0 : Float32).toModel.unpack = true :=
    decide_eq_true_iff
  have hnan : t.isNaN = t.toModel.unpack.isNaN := rfl
  rw [hle, hnan]
  rw [unpack_zero] at hlt ⊢
  -- above a zero there are the positive numbers and the positive infinity
  cases hu : t.toModel.unpack with
  | notANumber => rw [hu] at hlt; cases hlt
  | zero s => rw [hu] at hlt; cases hlt
  | infinity s =>
    rw [hu] at hlt
    cases s
    · cases hlt
    · rintro (h | h) <;> cases h
  | finite s m e hm =>
    rw [hu] at hlt
    cases s
    · cases hlt
    · rintro (h | h) <;> cases h

/-- At the end of the way there is the value on top, past the threshold. -/
theorem Value.blend_eq_top (base top : Value) {t threshold : Float32} (ht : 0 < t) (hend : 1 ≤ t)
    (hthreshold : threshold ≤ t) : base.blend top t threshold = top := by
  unfold blend mix?
  by_cases hswitch : base.kind ≠ top.kind ∨ base.kind.isGradual = false
  · rw [if_pos hswitch, Option.getD_none, if_pos hthreshold]
  · rw [if_neg hswitch, if_neg (not_start_of_pos ht), if_pos hend, Option.getD_some]

/-! ### One value -/

/-- An active overlay has a value for a key. -/
def Overlay.Holds (o : Overlay) (key : String) : Prop :=
  o.isActive = true ∧ (o.values.get? key).isSome = true

/-- The last active overlay that has a value for a key, with the value. -/
def OnTop (overlays : List Overlay) (key : String) (o : Overlay) (v : Value) : Prop :=
  ∃ below above, overlays = below ++ o :: above ∧ o.isActive = true ∧
    o.values.get? key = some v ∧ ∀ o' ∈ above, ¬ o'.Holds key

theorem combinedValue_append (base : Option Value) (below above : List Overlay) (key : String)
    (threshold : Float32) : combinedValue base (below ++ above) key threshold =
      combinedValue (combinedValue base below key threshold) above key threshold := by
  rw [combinedValue, List.filter_append, List.foldl_append]
  rfl

/-- An overlay that does not hold a key does not show. -/
theorem combinedValue_cons_of_not_holds (h : ¬ o.Holds key) (base : Option Value) :
    combinedValue base (o :: overlays) key threshold =
      combinedValue base overlays key threshold := by
  unfold combinedValue
  rw [List.filter_cons]
  split
  · next hactive =>
    have hnone : o.values.get? key = none := by simpa [Overlay.Holds, hactive] using h
    rw [List.foldl_cons, hnone]
  · rfl

theorem combinedValue_cons_of_get? (hactive : o.isActive = true)
    (hv : o.values.get? key = some v) (base : Option Value) :
    combinedValue base (o :: overlays) key threshold =
      combinedValue (some (o.onto threshold base v)) overlays key threshold := by
  unfold combinedValue
  rw [List.filter_cons, if_pos hactive, List.foldl_cons, hv]

/-- What no overlay holds shows as it is. -/
theorem combinedValue_of_not_holds (h : ∀ o ∈ overlays, ¬ o.Holds key) (base : Option Value) :
    combinedValue base overlays key threshold = base := by
  induction overlays with
  | nil => rfl
  | cons o overlays ih =>
    rw [combinedValue_cons_of_not_holds (h o List.mem_cons_self)]
    exact ih fun o' ho' => h o' (List.mem_cons_of_mem o ho')

/-- What is on top shows alone, if it is faded in all the way and past the threshold. -/
theorem OnTop.combinedValue_eq (h : OnTop overlays key o v) (hend : 1 ≤ o.blend)
    (hthreshold : threshold ≤ o.blend) (base : Option Value) :
    combinedValue base overlays key threshold = some v := by
  obtain ⟨below, above, rfl, hactive, hv, habove⟩ := h
  have hpos : 0 < o.blend := of_decide_eq_true (Bool.and_eq_true_iff.mp hactive).2
  have honto : ∀ current, o.onto threshold current v = v := by
    intro current
    cases current with
    | none => rfl
    | some b => exact b.blend_eq_top v hpos hend hthreshold
  rw [combinedValue_append, combinedValue_cons_of_get? hactive hv, honto,
    combinedValue_of_not_holds habove]

/-! ### The engine -/

namespace Engine

variable {g : Engine} {h : Handle}

/-- **The two ways to ask for a value** give the same answer. -/
theorem value?_eq (g : Engine) (h : Handle) (key : String) :
    g.value? h key = (g.combined? h).bind (·.get? key) := by
  unfold value? combined?
  cases g.styles.get? h with
  | none => rfl
  | some s => exact (get?_combine s.base s.overlays _ key).symm

/-- What is no element has no values. -/
theorem Furnished.value?_eq_none (hg : g.Furnished) (hh : ¬ g.forest.contains h = true)
    (key : String) : g.value? h key = none := by
  unfold value?
  cases hs : g.styles.get? h with
  | none => rfl
  | some s =>
    obtain ⟨hbase, hoverlays⟩ := hg.blank h s hh hs
    rw [Option.bind_some, hbase, hoverlays]
    rfl

/-- **Blending, for all overlays and after every run.**  The table of all values has under
every key the blend of its value; what no active overlay holds is as it is below them; and the
last active overlay that holds a key hides all that is below, if its factor is at least one and
at least the threshold.  So the two ways to ask for a value agree on every handle and key, and
only elements have answers. -/
theorem combined_run {config : Config} (hg : ofConfig config = .ok g) (cs : List Command) :
    (∀ (base : Values) (overlays : List Overlay) (threshold : Float32) (key : String),
      (combine base overlays threshold).get? key =
          combinedValue (base.get? key) overlays key threshold ∧
        ((∀ o ∈ overlays, ¬ o.Holds key) →
          combinedValue (base.get? key) overlays key threshold = base.get? key) ∧
        ∀ o v, OnTop overlays key o v → 1 ≤ o.blend → threshold ≤ o.blend →
          combinedValue (base.get? key) overlays key threshold = some v) ∧
    ∀ (h : Handle) (key : String),
      (g.run cs).value? h key = ((g.run cs).combined? h).bind (·.get? key) ∧
        ((g.run cs).forest.contains h = true → ((g.run cs).combined? h).isSome = true) ∧
        (¬ (g.run cs).forest.contains h = true → (g.run cs).value? h key = none) := by
  have hfurnished := furnished_run hg cs
  refine ⟨fun base overlays threshold key => ⟨?_, ?_, ?_⟩, fun h key => ⟨?_, ?_, ?_⟩⟩
  · exact get?_combine base overlays threshold key
  · exact fun hnone => combinedValue_of_not_holds hnone _
  · exact fun o v htop hend hthreshold => htop.combinedValue_eq hend hthreshold _
  · exact value?_eq _ h key
  · intro hh
    rw [combined?, Option.isSome_map]
    exact hfurnished.styled h hh
  · exact fun hh => hfurnished.value?_eq_none hh key

/-- A button is half hovered and fully pressed. -/
def pressedButton : List Command :=
  [.register "opacity" (.int 10) true, .register "caption" (.text "none") false,
    .insert { (default : Element) with typeName := "Button" },
    .addSheet
      { rules :=
        [⟨"Button:hover", [{ key := "opacity", payload := some (.literal (.int 5)) }]⟩,
          ⟨"Button:pressed", [{ key := "opacity", payload := some (.literal (.int 7)) }]⟩] },
    .setOverlay ⟨0, 0⟩ "hover" true 0.5, .setOverlay ⟨0, 0⟩ "pressed" true 1]

/-- The pressed look is on top of the hovered one. -/
theorem combined_run_pressedButton :
    let g : Engine := { config := {} }
    let looks : List Overlay :=
      [⟨"hover", true, 0.5, .ofList [("opacity", .int 5)]⟩,
        ⟨"pressed", true, 1, .ofList [("opacity", .int 7)]⟩]
    ofConfig {} = .ok g ∧ OnTop looks "opacity" looks[1] (.int 7) ∧
    combinedValue (some (.int 10)) looks "opacity" 0.5 = some (.int 7) ∧
    combinedValue (some (.text "none")) looks "caption" 0.5 = some (.text "none") ∧
    (g.run pressedButton).value? ⟨0, 0⟩ "opacity" = some (.int 7) ∧
    ((g.run pressedButton).combined? ⟨0, 0⟩).isSome = true ∧
    (g.run pressedButton).value? ⟨1, 0⟩ "opacity" = none := by
  intro g looks
  have hg : ofConfig {} = .ok g := rfl
  have htop : OnTop looks "opacity" looks[1] (.int 7) := by
    refine ⟨[looks[0]], [], rfl, by decide, by decide, ?_⟩
    intro o ho
    cases ho
  have hcaption : ∀ o ∈ looks, ¬ o.Holds "caption" := by
    intro o ho hholds
    rcases List.mem_pair.mp ho with rfl | rfl <;> cases hholds.2
  obtain ⟨hblend, hanswers⟩ := combined_run hg pressedButton
  obtain ⟨-, -, hopacity⟩ := hblend (.ofList [("opacity", .int 10)]) looks 0.5 "opacity"
  obtain ⟨-, hbelow, -⟩ := hblend (.ofList [("caption", .text "none")]) looks 0.5 "caption"
  exact ⟨hg, htop, hopacity _ _ htop (by decide) (by decide), hbelow hcaption, by decide +kernel,
    (hanswers ⟨0, 0⟩ "opacity").2.1 (by decide +kernel),
    (hanswers ⟨1, 0⟩ "opacity").2.2 (by decide +kernel)⟩

end Engine
end Cascade
