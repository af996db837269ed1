import Cascade.Proofs.Engine.Furnished

/-!
# Overlays remember their settings

Every time a style is computed its overlays are put together anew, and setting an overlay writes
into them without computing anything.  Still the overlays of an element are at all times what
the calls on it have asked for since it came: an overlay for every name, in the order in which
the names came up, with the settings of the last call that has set it.

## Main definitions

* `OverlayCall`, `OverlayCall.roster` — calls on an element, and the overlays they amount to.
* `Engine.callsAfter`, `Engine.overlayCalls` — the calls on an element since it was inserted.
* `Engine.Remembers` — the overlays of an element are those of its calls.

## Main results

* `Engine.overlaySettings?_registerOverlay`, `Engine.overlaySettings?_setOverlay` — one call.
* `Engine.Furnished.remembers_after` — the step: every operation keeps overlays as called for.
* `Engine.overlays_run` — **the overlays of an element, after every run.**
-/

namespace Cascade

/-! ### Calls -/

/-- A call that registers an overlay and, if it has settings, sets it. -/
structure OverlayCall where
  /-- The name of the overlay. -/
  name : String
  /-- The switch and the blend factor as given, if the call sets the overlay. -/
  settings : Option (Bool × Float32)
  deriving DecidableEq

namespace OverlayCall

variable {calls : List OverlayCall} {name n : String}

/-- The names that calls have registered, in the order in which they came up. -/
def names (calls : List OverlayCall) : List String := (calls.map (·.name)).eraseDups

/-- The settings of the last call that sets the overlay of a name, or those of a new overlay. -/
def lastSettings (calls : List OverlayCall) (name : String) : Bool × Float32 :=
  match (calls.filterMap fun c => if c.name = name then c.settings else none).getLast? with
  | some (enabled, blend) => (enabled, clampBlend blend)
  | none => (false, 0)

/-- The overlays that calls amount to. -/
def roster (calls : List OverlayCall) : List (String × Bool × Float32) :=
  (names calls).map fun name => (name, lastSettings calls name)

theorem mem_names : name ∈ names calls ↔ name ∈ calls.map (·.name) := List.mem_eraseDups

theorem names_roster (calls : List OverlayCall) : (roster calls).map (·.1) = names calls := by
  rw [roster, List.map_map]
  exact List.map_id _

/-- Overlays with the settings of a roster have its names. -/
theorem map_name_eq {os : List Overlay}
    (hos : (os.map fun o => (o.name, o.enabled, o.blend)) = roster calls) :
    os.map (·.name) = names calls := by
  rw [← names_roster, ← hos, List.map_map]
  rfl

/-- A name that has come up before keeps its place. -/
theorem names_append_of_mem {c : OverlayCall} (hc : c.name ∈ names calls) :
    names (calls ++ [c]) = names calls := by
  rw [names, List.map_append, List.map_singleton, eraseDups_append_of_mem (mem_names.1 hc), names]

/-- A new name goes to the end. -/
theorem names_append_of_notMem {c : OverlayCall} (hc : c.name ∉ names calls) :
    names (calls ++ [c]) = names calls ++ [c.name] := by
  rw [names, List.map_append, List.map_singleton, eraseDups_append_of_notMem (mt mem_names.2 hc),
    names]

theorem nodup_names (calls : List OverlayCall) : (names calls).Nodup := by
  induction calls using List.reverseRecOn with
  | nil => exact List.nodup_nil
  | append_singleton calls c ih =>
    by_cases hc : c.name ∈ names calls
    · rwa [names_append_of_mem hc]
    · rw [names_append_of_notMem hc]
      exact List.nodup_append_comm.1 (List.nodup_cons.2 ⟨hc, ih⟩)

/-- The settings of a new overlay stay until a call sets it. -/
theorem lastSettings_of_notMem (hn : name ∉ names calls) :
    lastSettings calls name = (false, 0) := by
  have hnone : calls.filterMap (fun c => if c.name = name then c.settings else none) = [] := by
    rw [List.filterMap_eq_nil_iff]
    intro c hc
    have hne : c.name ≠ name := fun he => hn (mem_names.2 (he ▸ List.mem_map_of_mem hc))
    exact if_neg hne
  rw [lastSettings, hnone]
  rfl

theorem lastSettings_append_none (calls : List OverlayCall) (name n : String) :
    lastSettings (calls ++ [⟨n, none⟩]) name = lastSettings calls name := by
  have hnone : [(⟨n, none⟩ : OverlayCall)].filterMap
      (fun c => if c.name = name then c.settings else none) = [] := by simp
  rw [lastSettings, List.filterMap_append, hnone, List.append_nil, lastSettings]

/-- A call that sets an overlay sets that one, and it alone. -/
theorem lastSettings_append_some (calls : List OverlayCall) (name n : String) (enabled : Bool)
    (blend : Float32) : lastSettings (calls ++ [⟨n, some (enabled, blend)⟩]) name =
      if n = name then (enabled, clampBlend blend) else lastSettings calls name := by
  rw [lastSettings, List.filterMap_append]
  by_cases hn : n = name <;> simp [hn, lastSettings]

/-- Registering an overlay appends it, unless it is there. -/
theorem roster_append_none (calls : List OverlayCall) (n : String) :
    roster (calls ++ [⟨n, none⟩]) =
      if n ∈ names calls then roster calls else roster calls ++ [(n, false, 0)] := by
  unfold roster
  simp only [lastSettings_append_none]
  split
  · next hn => rw [names_append_of_mem hn]
  · next hn =>
    rw [names_append_of_notMem hn, List.map_append, List.map_singleton, lastSettings_of_notMem hn]

/-- Setting an overlay registers it first, and then changes its settings. -/
theorem roster_append_some (calls : List OverlayCall) (n : String) (enabled : Bool)
    (blend : Float32) : roster (calls ++ [⟨n, some (enabled, blend)⟩]) =
      (roster (calls ++ [⟨n, none⟩])).map fun x =>
        if x.1 = n then (x.1, enabled, clampBlend blend) else x := by
  have hnames : names (calls ++ [⟨n, some (enabled, blend)⟩]) = names (calls ++ [⟨n, none⟩]) := by
    simp only [names, List.map_append, List.map_singleton]
  unfold roster
  rw [hnames, List.map_map]
  refine List.map_congr_left fun name _ => ?_
  rw [lastSettings_append_some]
  simp only [Function.comp_apply, lastSettings_append_none]
  by_cases hn : n = name
  · rw [if_pos hn, if_pos hn.symm]
  · rw [if_neg hn, if_neg (Ne.symm hn)]

end OverlayCall

namespace Engine

variable {g g' : Engine} {h k : Handle} {s : Styling} {c : Command} {cs : List Command}
  {calls : List OverlayCall}

/-! ### One call -/

/-- Setting the first overlay of a name sets the one of that name. -/
theorem map_settings_setFirst (name : String) (enabled : Bool) (blend : Float32)
    {os : List Overlay} (hos : (os.map (·.name)).Nodup) :
    (setFirst name enabled blend os).map (fun o => (o.name, o.enabled, o.blend)) =
      (os.map fun o => (o.name, o.enabled, o.blend)).map fun x =>
        if x.1 = name then (x.1, enabled, clampBlend blend) else x := by
  induction os with
  | nil => rfl
  | cons o os ih =>
    rw [List.map_cons, List.nodup_cons] at hos
    rw [setFirst]
    split
    · next ho =>
      -- no other overlay has the name
      have hrest : (os.map fun o => (o.name, o.enabled, o.blend)).map (fun x =>
          if x.1 = name then (x.1, enabled, clampBlend blend) else x) =
            os.map fun o => (o.name, o.enabled, o.blend) := by
        rw [List.map_map]
        refine List.map_congr_left fun o' ho' => if_neg ?_
        rintro rfl
        exact hos.1 (ho ▸ List.mem_map_of_mem ho')
      rw [List.map_cons, List.map_cons, List.map_cons, hrest, if_pos ho]
      rfl
    · next ho => rw [List.map_cons, List.map_cons, List.map_cons, ih hos.2, if_neg ho]

theorem registerOverlay_eq (hh : g.forest.contains h = true) (hs : g.styles.get? h = some s)
    (name : String) : g.registerOverlay h name =
      (.ok (), if name ∈ s.overlays.map (·.name) then g else (g.overlaid h s name).flush) := by
  have hfound : (s.overlay? name).isSome = true ↔ name ∈ s.overlays.map (·.name) := by
    simp [Styling.overlay?]
  unfold registerOverlay
  rw [require_of_contains hh, hs]
  simp only [hfound]
  split <;> rfl

/-- **Registering an overlay** on an element adds it to those that were called for. -/
theorem overlaySettings?_registerOverlay (hh : g.forest.contains h = true)
    (hr : g.overlaySettings? h = some (OverlayCall.roster calls)) (name : String) :
    ∃ g', g.registerOverlay h name = (.ok (), g') ∧
      g'.overlaySettings? h = some (OverlayCall.roster (calls ++ [⟨name, none⟩])) := by
  obtain ⟨s, hs, hsettings⟩ := Option.map_eq_some_iff.1 hr
  have hnames := OverlayCall.map_name_eq hsettings
  refine ⟨_, registerOverlay_eq hh hs name, ?_⟩
  -- a name that has been called for is registered already, and else it comes last
  rw [OverlayCall.roster_append_none]
  simp only [hnames]
  split
  · exact hr
  · rw [(restyled_flush _).overlaySettings?_eq, overlaySettings?, get?_overlaid, if_pos rfl,
      ← hsettings, Option.map_some, List.map_append]
    rfl

/-- **Setting an overlay** of an element registers it and changes its settings. -/
theorem overlaySettings?_setOverlay (hh : g.forest.contains h = true)
    (hr : g.overlaySettings? h = some (OverlayCall.roster calls)) (name : String) (enabled : Bool)
    (blend : Float32) :
    ∃ g', g.setOverlay h name enabled blend = (.ok (), g') ∧
      g'.overlaySettings? h =
        some (OverlayCall.roster (calls ++ [⟨name, some (enabled, blend)⟩])) := by
  obtain ⟨g', hg', hr'⟩ := overlaySettings?_registerOverlay hh hr name
  refine ⟨g'.withOverlay h name enabled blend, by rw [setOverlay, hg']; rfl, ?_⟩
  obtain ⟨s, hs, hsettings⟩ := Option.map_eq_some_iff.1 hr'
  have hnodup : (s.overlays.map (·.name)).Nodup := by
    rw [OverlayCall.map_name_eq hsettings]
    exact OverlayCall.nodup_names _
  have hget : (g'.withOverlay h name enabled blend).styles.get? h =
      some { s with overlays := setFirst name enabled blend s.overlays } := by
    refine (Table.get?_modify _ _ _ _).trans ?_
    rw [if_pos rfl, hs, Option.map_some]
  rw [overlaySettings?_of_get? hget, OverlayCall.roster_append_some, ← hsettings,
    map_settings_setFirst name enabled blend hnodup]

/-- Registering an overlay keeps the elements. -/
theorem contains_registerOverlay (g : Engine) (h k : Handle) (name : String) :
    (g.registerOverlay h name).2.forest.contains k = g.forest.contains k := by
  rw [(effect_registerOverlay g h name).forest_registerOverlay]

theorem contains_setOverlay (g : Engine) (h k : Handle) (name : String) (enabled : Bool)
    (blend : Float32) :
    (g.setOverlay h name enabled blend).2.forest.contains k = g.forest.contains k := by
  rw [← contains_registerOverlay g h k name, setOverlay]
  split <;> next heq => rw [heq]

/-- The other elements have the overlays they had. -/
theorem overlaySettings?_registerOverlay_of_ne (hk : h ≠ k) (name : String) :
    (g.registerOverlay h name).2.overlaySettings? k = g.overlaySettings? k := by
  have heff := effect_registerOverlay g h name
  generalize (g.registerOverlay h name).2 = g' at heff ⊢
  cases heff with
  | idle => rfl
  | registerOverlay =>
    rw [(restyled_flush _).overlaySettings?_eq, overlaySettings?, get?_overlaid, if_neg hk,
      overlaySettings?]

theorem overlaySettings?_setOverlay_of_ne (hk : h ≠ k) (name : String) (enabled : Bool)
    (blend : Float32) :
    (g.setOverlay h name enabled blend).2.overlaySettings? k = g.overlaySettings? k := by
  have hregister := overlaySettings?_registerOverlay_of_ne (g := g) hk name
  rw [setOverlay]
  split
  · next heq => rwa [heq] at hregister
  · next g' heq =>
    rw [heq] at hregister
    have hget : (g'.withOverlay h name enabled blend).styles.get? k = g'.styles.get? k :=
      (Table.get?_modify _ _ _ _).trans (if_neg hk)
    exact (congrArg (Option.map _) hget).trans hregister

/-! ### All calls -/

/-- The calls on an element after one more command.  An insertion that gives out its handle
starts anew, and a call that fails does not count. -/
def callsAfter (g : Engine) (h : Handle) (calls : List OverlayCall) : Command → List OverlayCall
  | .insert e => if (g.insert e).1 = h then [] else calls
  | .registerOverlay k name =>
    if k = h ∧ (g.registerOverlay k name).1.isOk = true then calls ++ [⟨name, none⟩] else calls
  | .setOverlay k name enabled blend =>
    if k = h ∧ (g.setOverlay k name enabled blend).1.isOk = true then
      calls ++ [⟨name, some (enabled, blend)⟩]
    else calls
  | _ => calls

/-- The calls on an element since it was inserted, after a list of commands. -/
def overlayCalls (g : Engine) (h : Handle) (calls : List OverlayCall) :
    List Command → List OverlayCall
  | [] => calls
  | c :: cs => (g.after c).overlayCalls h (g.callsAfter h calls c) cs

/-- If it is live, an element has the overlays that the calls amount to. -/
def Remembers (g : Engine) (h : Handle) (calls : List OverlayCall) : Prop :=
  g.forest.contains h = true → g.overlaySettings? h = some (OverlayCall.roster calls)

theorem remembers_registerOverlay (hr : g.Remembers h calls) (k : Handle) (name : String) :
    (g.after (.registerOverlay k name)).Remembers h
      (g.callsAfter h calls (.registerOverlay k name)) := by
  intro hlive
  show (g.registerOverlay k name).2.overlaySettings? h = some (OverlayCall.roster (ite _ _ _))
  have hh : g.forest.contains h = true :=
    (contains_registerOverlay g k h name).symm.trans hlive
  by_cases hk : k = h
  · subst hk
    obtain ⟨g', hg', hr'⟩ := overlaySettings?_registerOverlay hh (hr hh) name
    rw [hg', if_pos ⟨rfl, rfl⟩]
    exact hr'
  · rw [if_neg fun hc => hk hc.1, overlaySettings?_registerOverlay_of_ne hk]
    exact hr hh

theorem remembers_setOverlay (hr : g.Remembers h calls) (k : Handle) (name : String)
    (enabled : Bool) (blend : Float32) :
    (g.after (.setOverlay k name enabled blend)).Remembers h
      (g.callsAfter h calls (.setOverlay k name enabled blend)) := by
  intro hlive
  show (g.setOverlay k name enabled blend).2.overlaySettings? h =
    some (OverlayCall.roster (ite _ _ _))
  have hh : g.forest.contains h = true :=
    (contains_setOverlay g k h name enabled blend).symm.trans hlive
  by_cases hk : k = h
  · subst hk
    obtain ⟨g', hg', hr'⟩ := overlaySettings?_setOverlay hh (hr hh) name enabled blend
    rw [hg', if_pos ⟨rfl, rfl⟩]
    exact hr'
  · rw [if_neg fun hc => hk hc.1, overlaySettings?_setOverlay_of_ne hk]
    exact hr hh

/-- A new element has no overlays, and the others have theirs. -/
theorem Furnished.remembers_insert (hg : g.Furnished) (hr : g.Remembers h calls) (e : Element) :
    (g.after (.insert e)).Remembers h (g.callsAfter h calls (.insert e)) := by
  intro hlive
  show (g.inserted e).flush.overlaySettings? h = some (OverlayCall.roster (ite _ _ _))
  have hlive : (g.inserted e).forest.contains h = true := by
    rw [← (restyled_flush (g.inserted e)).forest]
    exact hlive
  rw [(restyled_flush _).overlaySettings?_eq, overlaySettings?, get?_inserted]
  by_cases hh : (g.forest.insert e).1 = h
  · have hnew : (g.insert e).1 = h := hh
    rw [if_pos hh, if_pos hnew]
    rfl
  · have hold : ¬ (g.insert e).1 = h := hh
    rw [if_neg hh, if_neg hold]
    exact hr (((Forest.contains_insert_cases hg.forest.tallied e h).2 hlive).resolve_left hh)

/-- **Every operation keeps overlays as called for.** -/
theorem Furnished.remembers_after (hg : g.Furnished) (hr : g.Remembers h calls) (c : Command) :
    (g.after c).Remembers h (g.callsAfter h calls c) := by
  cases hc : c.furnishes with
  | true =>
    cases c with
    | insert e => exact hg.remembers_insert hr e
    | registerOverlay k name => exact remembers_registerOverlay hr k name
    | setOverlay k name enabled blend => exact remembers_setOverlay hr k name enabled blend
    | _ => cases hc
  | false =>
    -- no other operation touches settings, so the calls so far still account for them
    have hv := hg.conserves_effect (effect_after g c) hc
    have hcalls : g.callsAfter h calls c = calls := by
      cases c <;> first | rfl | cases hc
    intro hlive
    rw [hcalls, hv.settings h hlive]
    exact hr (hv.contains h hlive)

theorem Furnished.remembers_run (hg : g.Furnished) (hr : g.Remembers h calls) (cs : List Command) :
    (g.run cs).Remembers h (g.overlayCalls h calls cs) := by
  induction cs generalizing g calls with
  | nil => exact hr
  | cons c cs ih => exact ih (hg.after c) (hg.remembers_after hr c)

/-- **The overlays of an element, after every run.**  They have the names of the successful calls
on it since it was inserted, each once and in the order in which they came up, and each has the
settings of the last call that has set it, or those of a new overlay. -/
theorem overlays_run {config : Config} (hg : ofConfig config = .ok g) (cs : List Command)
    (hh : (g.run cs).forest.contains h = true) :
    ∃ s, (g.run cs).styles.get? h = some s ∧
      s.overlays.map (·.name) = OverlayCall.names (g.overlayCalls h [] cs) ∧
      (s.overlays.map (·.name)).Nodup ∧
      ∀ o ∈ s.overlays,
        (o.enabled, o.blend) = OverlayCall.lastSettings (g.overlayCalls h [] cs) o.name := by
  obtain rfl := eq_of_ofConfig hg
  have hstart : Remembers { config } h [] := fun hlive => by cases hlive
  obtain ⟨s, hs, hsettings⟩ :=
    Option.map_eq_some_iff.1 ((Furnished.empty config).remembers_run hstart cs hh)
  have hnames := OverlayCall.map_name_eq hsettings
  refine ⟨s, hs, hnames, hnames ▸ OverlayCall.nodup_names _, ?_⟩
  intro o ho
  have hmem := List.mem_map_of_mem (f := fun o : Overlay => (o.name, o.enabled, o.blend)) ho
  rw [hsettings] at hmem
  obtain ⟨name, -, heq⟩ := List.mem_map.1 hmem
  obtain ⟨rfl, hlast⟩ := Prod.mk.inj heq
  exact hlast.symm

/-- A button is faded while it moves, changes, and is restyled; a call on no element fails. -/
def fadedButton : List Command :=
  [.insert { (default : Element) with typeName := "Button" }, .setOverlay ⟨0, 0⟩ "hover" true 1.5,
    .registerOverlay ⟨0, 0⟩ "pressed",
    .addSheet
      { rules := [⟨"Button:hover", [{ key := "size", payload := some (.literal (.int 20)) }]⟩] },
    .insert { (default : Element) with typeName := "Panel" }, .attach ⟨0, 0⟩ ⟨1, 0⟩,
    .registerOverlay ⟨0, 0⟩ "hover", .setOverlay ⟨7, 0⟩ "hover" false 0,
    .setOverlay ⟨0, 0⟩ "focus" false 0.25, .edit ⟨0, 0⟩ (.addClass "dark")]

theorem overlays_run_fadedButton :
    let g : Engine := { config := {} }
    let calls : List OverlayCall :=
      [⟨"hover", some (true, 1.5)⟩, ⟨"pressed", none⟩, ⟨"hover", none⟩,
        ⟨"focus", some (false, 0.25)⟩]
    (ofConfig {} = .ok g ∧ (g.run fadedButton).forest.contains ⟨0, 0⟩ = true) ∧
    OverlayCall.roster calls = [("hover", true, 1), ("pressed", false, 0), ("focus", false, 0.25)] ∧
    ∃ s, (g.run fadedButton).styles.get? ⟨0, 0⟩ = some s ∧
      s.overlays.map (·.name) = ["hover", "pressed", "focus"] ∧
      ∀ o ∈ s.overlays, (o.enabled, o.blend) = OverlayCall.lastSettings calls o.name := by
  intro g calls
  have hg : ofConfig {} = .ok g := rfl
  have hh : (g.run fadedButton).forest.contains ⟨0, 0⟩ = true := by decide +kernel
  have hcalls : g.overlayCalls ⟨0, 0⟩ [] fadedButton = calls := by decide +kernel
  obtain ⟨s, hs, hnames, -, hsettings⟩ := overlays_run hg fadedButton hh
  rw [hcalls] at hnames hsettings
  exact ⟨⟨hg, hh⟩, by decide +kernel, s, hs, hnames.trans (by decide +kernel), hsettings⟩

end Engine
end Cascade
