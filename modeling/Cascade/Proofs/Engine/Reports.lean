import Cascade.Proofs.Engine.Kinds

/-!
# What is reported, and when

A style is computed by resolving several times: once with the ranked candidates of the element,
and once more for every overlay, with its pseudo-class forced.  The sources of all these stay
with the style, so that the reports of an operation can be told afterwards: they are those of the
elements whose styles it has computed, one after the other.

## Main definitions

* `Resolution` — sources, and the properties that are asked for.
* `Engine.resolutions`, `Engine.reportsOf` — what a style has been computed from.
* `Engine.Reports` — the reports of one operation.
* `Engine.MismatchesRefer` — what is said of the mismatches among them.

## Main results

* `Engine.exists_reports_foldl_refresh` — a walk reports for the elements that it computes.
* `Engine.Coherent.reports_after` — the step: one operation.
* `Engine.Kinded.refers_of_reports` — a mismatch is reported at variables only.
* `Engine.kinds_run` — **after every run, values have the kinds of their keys, and mismatches
  come from variables.**
-/

namespace Cascade

/-- What values come from, and the properties that are asked for. -/
structure Resolution where
  /-- The sources. -/
  sources : Sources
  /-- The properties. -/
  properties : List Property

/-- The reports, in the order of the properties. -/
def Resolution.reports (x : Resolution) : List Diagnostic :=
  (x.sources.resolveEach x.properties).2

/-- What the overlay of a pseudo-class is computed from: the candidates in the scene in which it
is forced, and those properties that a rule asking for it wins. -/
def Scene.forcedResolution (s : Scene) (snapshot : Values) (pseudo : String) : Resolution where
  sources := ⟨s.element, s.registry, (s.force pseudo).ranking, snapshot⟩
  properties := s.registry.properties.filter fun p =>
    ((s.force pseudo).ranking.winner p).any fun c => s.isDeclaredFor pseudo c.origin

theorem Overlay.recompute_snd (o : Overlay) (s : Scene) (snapshot : Values) :
    (o.recompute s snapshot).2 = (s.forcedResolution snapshot o.name).reports := rfl

namespace Engine

variable {g g' : Engine} {h k : Handle} {s s' : Styling} {c : Command} {cs : List Command}

/-- What the style of an element has been computed from: its own candidates, and those of every
overlay. -/
def resolutions (g : Engine) (h : Handle) : List Resolution :=
  match g.styles.get? h with
  | none => []
  | some s =>
    ⟨⟨h, g.registry, s.ranking, s.snapshot⟩, g.registry.properties⟩ ::
      (s.overlays.map (·.name)).map ((g.scene h s.inline).forcedResolution s.snapshot)

/-- What was reported when the style of an element was computed. -/
def reportsOf (g : Engine) (h : Handle) : List Diagnostic :=
  (g.resolutions h).flatMap Resolution.reports

/-! ### What reports depend on -/

theorem Restyled.scene_eq (hr : g.Restyled g') (h : Handle) (inline : List Declaration) :
    g'.scene h inline = g.scene h inline := by
  have hsheets : g'.localSheets h = g.localSheets h := by
    unfold localSheets
    rw [hr.forest]
    exact List.filterMap_congr fun a _ => hr.localSheet?_eq a
  unfold scene
  rw [hr.forest, hr.config, hr.catalogue, hr.registry, hsheets]

/-- Reports depend on the candidates, the values taken over, the inline declarations and the
names of the overlays, and on nothing else of a style. -/
theorem resolutions_congr {f : Styling → Styling} (hr : g'.registry = g.registry)
    (hscene : ∀ inline, g'.scene h inline = g.scene h inline)
    (hs : g'.styles.get? h = (g.styles.get? h).map f)
    (hf : ∀ s, (f s).ranking = s.ranking ∧ (f s).snapshot = s.snapshot ∧ (f s).inline = s.inline ∧
      (f s).overlays.map (·.name) = s.overlays.map (·.name)) :
    g'.resolutions h = g.resolutions h := by
  unfold resolutions
  rw [hs]
  cases g.styles.get? h with
  | none => rfl
  | some s =>
    obtain ⟨hranking, hsnapshot, hinline, hnames⟩ := hf s
    dsimp only [Option.map_some]
    rw [hr, hscene, hranking, hsnapshot, hinline, hnames]

/-- The reports about an element stay while other styles are computed. -/
theorem Restyled.reportsOf_eq (hr : g.Restyled g') (hs : g'.styles.get? h = g.styles.get? h) :
    g'.reportsOf h = g.reportsOf h := by
  have hid : g'.styles.get? h = (g.styles.get? h).map id := by rw [hs, Option.map_id, id]
  have hsame := resolutions_congr hr.registry (hr.scene_eq h) hid fun _ => ⟨rfl, rfl, rfl, rfl⟩
  rw [reportsOf, reportsOf, hsame]

/-! ### Computing -/

/-- A style that is computed is reported about. -/
theorem diagnostics_recompute (hh : g.forest.contains h = true) (hs : g.styles.get? h = some s) :
    (g.recompute h).diagnostics = g.diagnostics ++ (g.recompute h).reportsOf h := by
  have hr := restyled_recompute g h
  have hself : (g.recompute h).styles.get? h =
      some (g.computed h s (g.rank (g.scene h s.inline)).1).1 := by
    rw [recompute_of_contains hh hs]
    exact (Table.get?_insert _ _ _ _).trans (if_pos rfl)
  have hnames : ((g.computed h s (g.rank (g.scene h s.inline)).1).1.overlays.map (·.name)) =
      s.overlays.map (·.name) := by
    simp [computed, Overlay.recompute, Function.comp_def]
  have hreports : (g.recompute h).reportsOf h =
      (g.computed h s (g.rank (g.scene h s.inline)).1).2 := by
    rw [reportsOf, resolutions, hself]
    dsimp only
    rw [hnames, hr.registry, hr.scene_eq, List.flatMap_cons, List.map_map, List.flatMap_map]
    simp only [computed, List.flatMap_map, Overlay.recompute_snd]
    rfl
  rw [hreports, recompute_of_contains hh hs]
  rfl

/-- **A walk reports for the elements whose styles it computes,** for each of them once, and
before those that it computes later. -/
theorem exists_reports_foldl_refresh (hg : g.Styled) {walk : List Handle}
    (hlive : ∀ k ∈ walk, g.forest.contains k = true) :
    ∃ hs : List Handle, hs.Nodup ∧ (∀ k ∈ hs, k ∈ walk ∧ g.isDirty k = true) ∧
      (walk.foldl refresh g).diagnostics =
        g.diagnostics ++ hs.flatMap (walk.foldl refresh g).reportsOf := by
  induction walk generalizing g with
  | nil => exact ⟨[], List.nodup_nil, nofun, (List.append_nil _).symm⟩
  | cons h walk ih =>
    have hr := restyled_refresh g h
    have hlive' : ∀ k ∈ walk, (g.refresh h).forest.contains k = true := by
      intro k hk
      rw [hr.forest]
      exact hlive k (List.mem_cons_of_mem h hk)
    obtain ⟨hs, hnodup, hmem, hreports⟩ := ih (hg.restyled hr) hlive'
    rw [List.foldl_cons]
    by_cases hd : g.isDirty h = true
    · have hh := hlive h List.mem_cons_self
      obtain ⟨s, hget⟩ := Option.isSome_iff_exists.1 (hg h hh)
      have hrefresh : g.refresh h = g.recompute h := by rw [refresh, if_pos hd]
      have hfirst : g.Visited (g.refresh h) [h] := by
        rw [hrefresh]
        exact visited_recompute hh hget
      -- the style is clean now: later visits pass it over, and its reports stay
      have hclean := hfirst.isDirty_of_mem (List.mem_singleton_self h)
      have hnot : ∀ ks : List Handle, (∀ k ∈ ks, (g.refresh h).isDirty k = true) → h ∉ ks := by
        intro ks hks hm
        rw [hks h hm] at hclean
        cases hclean
      obtain ⟨ks, hv, hks⟩ := visited_foldl_refresh (hg.restyled hr) hlive'
      have hkept := (Restyled.foldl restyled_refresh (g.refresh h) walk).reportsOf_eq
        (hv.kept h (hnot ks fun k hk => ((hks k).1 hk).2))
      have hhs := hnot hs fun k hk => (hmem k hk).2
      refine ⟨h :: hs, List.nodup_cons.2 ⟨hhs, hnodup⟩, ?_, ?_⟩
      · intro k hk
        rcases List.mem_cons.1 hk with rfl | hk
        · exact ⟨List.mem_cons_self, hd⟩
        · have hne : k ∉ [h] := fun hm => hhs (List.mem_singleton.1 hm ▸ hk)
          rw [← hfirst.isDirty_of_notMem hne]
          exact ⟨List.mem_cons_of_mem h (hmem k hk).1, (hmem k hk).2⟩
      · rw [hreports, List.flatMap_cons, hkept, ← List.append_assoc, hrefresh]
        rw [diagnostics_recompute hh hget]
    · have hsame : g.refresh h = g := by rw [refresh, if_neg hd]
      rw [hsame] at hmem hreports ⊢
      exact ⟨hs, hnodup, fun k hk => ⟨List.mem_cons_of_mem h (hmem k hk).1, (hmem k hk).2⟩,
        hreports⟩

/-- The engine has reported what is listed, and then about live elements, about each of them
once. -/
def Reports (g : Engine) (ds : List Diagnostic) : Prop :=
  ∃ hs : List Handle, hs.Nodup ∧ (∀ h ∈ hs, g.forest.contains h = true) ∧
    g.diagnostics = ds ++ hs.flatMap g.reportsOf

theorem reports_self (g : Engine) : g.Reports g.diagnostics :=
  ⟨[], List.nodup_nil, nofun, (List.append_nil _).symm⟩

theorem Coherent.reports_flush (hg : g.Coherent) : g.flush.Reports g.diagnostics := by
  unfold Engine.flush
  split
  · exact reports_self g
  · rw [foldl_refreshSubtree_eq]
    have hstyled : Styled { g with pending := [], passes := g.passes + 1 } := hg.styled
    have hwalk : ∀ k ∈ g.pendingRoots.flatMap g.forest.subtree, g.forest.contains k = true := by
      intro k hk
      obtain ⟨r, -, hkr⟩ := List.mem_flatMap.1 hk
      exact ((Forest.mem_subtree hg.linked).1 hkr).1
    obtain ⟨hs, hnodup, hmem, hreports⟩ := exists_reports_foldl_refresh hstyled hwalk
    refine ⟨hs, hnodup, ?_, hreports⟩
    intro k hk
    rw [(Restyled.foldl restyled_refresh _ _).forest]
    exact hwalk k (hmem k hk).1

theorem Coherent.reports_foldl_markSubtree (hg : g.Coherent) (rs : List Handle) :
    (rs.foldl markSubtree g).flush.Reports g.diagnostics := by
  have hmarked := hg.restyled (restyled_foldl_markSubtree hg.linked hg.styled rs)
  have hsame : (rs.foldl markSubtree g).diagnostics = g.diagnostics := by
    rw [foldl_markSubtree_eq]
  exact hsame ▸ hmarked.reports_flush

theorem Coherent.reports_restyle (hg : g.Coherent) (h : Handle) :
    (g.restyle h).Reports g.diagnostics := hg.reports_foldl_markSubtree [h]

theorem Coherent.reports_restyleAll (hg : g.Coherent) : g.restyleAll.Reports g.diagnostics :=
  hg.reports_foldl_markSubtree _

/-! ### Operations -/

/-- Other settings of an overlay are not reported about, and the reports that there were stand. -/
theorem reportsOf_withOverlay (g : Engine) (h : Handle) (name : String) (enabled : Bool)
    (blend : Float32) (k : Handle) :
    (g.withOverlay h name enabled blend).reportsOf k = g.reportsOf k := by
  have hget : (g.withOverlay h name enabled blend).styles.get? k = _ := Table.get?_modify _ _ _ _
  have hscene : ∀ inline, (g.withOverlay h name enabled blend).scene k inline =
      g.scene k inline := by
    intro inline
    have hlocal : ∀ a, (g.withOverlay h name enabled blend).localSheet? a = g.localSheet? a :=
      localSheet?_modify_eq
        (f := fun s => { s with overlays := setFirst name enabled blend s.overlays }) fun _ => rfl
    have hsheets : (g.withOverlay h name enabled blend).localSheets k = g.localSheets k :=
      List.filterMap_congr fun a _ => hlocal a
    unfold scene
    rw [hsheets]
    rfl
  have hsame : (g.withOverlay h name enabled blend).resolutions k = g.resolutions k := by
    by_cases hk : h = k
    · subst hk
      exact resolutions_congr rfl hscene (hget.trans (if_pos rfl)) fun s =>
        ⟨rfl, rfl, rfl, map_setFirst name enabled blend (fun _ => rfl) s.overlays⟩
    · have hid := (hget.trans (if_neg hk)).trans (congrFun Option.map_id _).symm
      exact resolutions_congr rfl hscene hid fun _ => ⟨rfl, rfl, rfl, rfl⟩
  rw [reportsOf, reportsOf, hsame]

theorem Coherent.reports_registerOverlay (hg : g.Coherent) {name : String}
    (he : Effect g (.registerOverlay h name) g') : g'.Reports g.diagnostics := by
  cases he with
  | idle => exact reports_self g
  | registerOverlay hh hs ho => exact (hg.overlaid hh hs name).reports_flush

/-- **An operation reports about the elements whose styles it computes,** after what there was. -/
theorem Coherent.reports_effect (hg : g.Coherent) (he : Effect g c g') (hw : g.Unwrapped g')
    (hc : c ≠ .takeDiagnostics) : g'.Reports g.diagnostics := by
  cases he with
  | idle => exact reports_self g
  | registerEarly => exact reports_self { g with registry := _ }
  | @register _ _ _ _ registry =>
    have hregistered : Coherent { g with registry } := hg.congr rfl rfl rfl rfl
    exact hregistered.reports_restyleAll
  | insert e => exact (hg.inserted e hw.of_flush).reports_flush
  | @destroy _ removed u =>
    have hsame : (g.destroyed removed u).diagnostics = g.diagnostics := by rw [destroyed_eq]
    exact hsame ▸ reports_self _
  | attach ha => exact ((hg.attached ha).restyled (restyled_forgetMatches _)).reports_restyle _
  | detach hd => exact ((hg.detached hd).restyled (restyled_forgetMatches _)).reports_restyle _
  | noteChange => exact (hg.restyled (restyled_forgetMatches g)).reports_restyle _
  | edit c hh => exact ((hg.edited _ c).restyled (restyled_forgetMatches _)).reports_restyle _
  | editUnnoted c hh => exact reports_self (g.edited _ c)
  | @assignSheet h sheet hh =>
    have hsame : (g.assigned h sheet).diagnostics = g.diagnostics := by rw [assigned_eq]
    exact hsame ▸ (hg.assigned h sheet hw.of_restyle).reports_restyle h
  | @setInline h inline hh =>
    have hinline : (g.withInline h inline).Coherent := hg.modify fun _ => rfl
    exact hinline.reports_restyle h
  | addSheet sheet => exact (hg.withGlobal sheet hw.of_restyleAll).reports_restyleAll
  | removeSheet hs ho =>
    have hremoved := hg.removeSheet (hg.localSheet?_ne hs ho)
    exact (hremoved.restyled (restyled_forgetMatches _)).reports_restyleAll
  | registerOverlay hh hs ho => exact hg.reports_registerOverlay (.registerOverlay hh hs ho)
  | @setOverlay h name g' enabled blend hh he =>
    obtain ⟨hs, hnodup, hlive, hreports⟩ := hg.reports_registerOverlay he
    refine ⟨hs, hnodup, hlive, ?_⟩
    rw [funext (reportsOf_withOverlay g' h name enabled blend)]
    exact hreports
  | takeDiagnostics => exact absurd rfl hc

/-- The reports that are still there after a command: all, unless they are taken. -/
def keptReports (g : Engine) : Command → List Diagnostic
  | .takeDiagnostics => []
  | _ => g.diagnostics

theorem Coherent.reports_after (hg : g.Coherent) (c : Command) (hw : g.Unwrapped (g.after c)) :
    (g.after c).Reports (g.keptReports c) := by
  by_cases hc : c = .takeDiagnostics
  · subst hc
    exact reports_self { g with diagnostics := [] }
  · have hkept : g.keptReports c = g.diagnostics := by
      cases c <;> first | rfl | exact absurd rfl hc
    rw [hkept]
    exact hg.reports_effect (effect_after g c) hw hc

/-! ### Mismatches -/

/-- **A mismatch is reported at variables only:** while the property of the report was resolved,
the winning declaration was a variable. -/
theorem Kinded.refers_of_reports (hg : g.Kinded) {x : Resolution} (hx : x ∈ g.resolutions h)
    {d : Diagnostic} (hd : d ∈ x.reports) {expected found : Kind}
    (hm : d.problem = .typeMismatch expected found) :
    d.element = h ∧ ∃ p name, g.registry.lookup d.key = some p ∧ expected = p.kind ∧
      x.sources.Refers p name := by
  -- whichever resolution it is, it is about the element and the values it takes over
  have hsources : x.sources.element = h ∧ x.sources.registry = g.registry ∧
      x.sources.snapshot.Kinded g.registry ∧ ∀ p ∈ x.properties, p ∈ g.registry.properties := by
    unfold resolutions at hx
    split at hx
    · cases hx
    · next s hs =>
      have hsnapshot := (hg.styles hs).snapshot
      rcases List.mem_cons.1 hx with rfl | hx
      · exact ⟨rfl, rfl, hsnapshot, fun _ => id⟩
      · obtain ⟨pseudo, -, rfl⟩ := List.mem_map.1 hx
        exact ⟨rfl, rfl, hsnapshot, fun _ => List.mem_of_mem_filter⟩
  obtain ⟨helement, hregistry, hsnapshot, hproperties⟩ := hsources
  rw [← hregistry] at hsnapshot hproperties
  have hkinded : x.sources.registry.Kinded := hregistry ▸ hg.registry
  obtain ⟨hself, p, hp, hkey, hproblem⟩ := Sources.mem_resolveEach_snd hproperties hd
  rw [hm] at hproblem
  obtain ⟨hexpected, name, hrefers⟩ :=
    Sources.refers_of_mismatch hkinded hsnapshot (hproperties p hp) hproblem
  refine ⟨hself.trans helement, p, name, ?_, hexpected, hrefers⟩
  rw [← hregistry, ← hkey]
  exact Registry.lookup_of_mem (hproperties p hp)

/-! ### Runs -/

/-- A mismatch that was reported when the present styles were computed came from a variable: it
names the element, the kind of the property, and nothing else but the winning declaration of the
property has led to it. -/
def MismatchesRefer (g : Engine) : Prop :=
  ∀ h, ∀ x ∈ g.resolutions h, ∀ d ∈ x.reports, ∀ expected found,
    d.problem = .typeMismatch expected found →
      d.element = h ∧ ∃ p name, g.registry.lookup d.key = some p ∧ expected = p.kind ∧
        x.sources.Refers p name

/-- **After every run, values have the kinds of their keys, and mismatches come from variables.**
The kind of a key is the one with which it was registered; what every operation on the way has
reported are the reports of resolutions, and all mismatches among them are of this sort. -/
theorem kinds_run {config : Config} (hg : ofConfig config = .ok g) (hf : g.Fitting cs) :
    (g.run cs).WellKinded ∧
      (∀ ds key initial inheritable es, cs = ds ++ .register key initial inheritable :: es →
        (g.run ds).registry.contains key = false →
        (g.run cs).registry.lookup key = some ⟨key, initial.kind, inheritable, initial⟩) ∧
      ∀ ds c es, cs = ds ++ c :: es →
        ((g.run ds).after c).Reports ((g.run ds).keptReports c) ∧
          ((g.run ds).after c).MismatchesRefer := by
  obtain rfl := eq_of_ofConfig hg
  refine ⟨(hf.quiet (quiet_empty _)).wellKinded (hf.kinded (coherent_empty _) (kinded_empty _)),
    ?_, ?_⟩
  · rintro ds key initial inheritable es rfl hkey
    rw [run, List.foldl_append]
    exact extends_run _ es _ _ (lookup_after_register hkey initial inheritable)
  · rintro ds c es rfl
    obtain ⟨hfds, hw, -⟩ := fitting_append.1 hf
    have hquiet := hfds.quiet (quiet_empty config)
    have hkinded := hfds.kinded (coherent_empty config) (kinded_empty config)
    refine ⟨hquiet.reports_after c hw, ?_⟩
    intro h x hx d hd expected found hm
    have hkinded' := hkinded.effect hquiet.toCoherent (effect_after _ c) hw
    exact hkinded'.refers_of_reports hx hd hm

/-- A label takes its size from its caption, which is no number. -/
def captionSize : List Command :=
  [.register "size" (.int 10) true, .register "caption" (.text "none") false,
    .insert { (default : Element) with typeName := "Label" },
    .addSheet
      { rules :=
        [⟨"Label", [{ key := "size", payload := some (.variable "caption") }]⟩,
          ⟨"Label:hover", [{ key := "size", payload := some (.literal (.int 20)) }]⟩] },
    .setOverlay ⟨0, 0⟩ "hover" true 1]

/-- The mismatch is reported, the initial value stands in, and the overlay is blended over it. -/
theorem kinds_run_captionSize :
    let g : Engine := { config := {} }
    ofConfig {} = .ok g ∧ g.Fitting captionSize ∧
      (g.run captionSize).diagnostics =
        [⟨⟨0, 0⟩, "size", .typeMismatch .int .text⟩, ⟨⟨0, 0⟩, "size", .typeMismatch .int .text⟩] ∧
      (g.run captionSize).baseValue? ⟨0, 0⟩ "size" = some (.int 10) ∧
      (g.run captionSize).value? ⟨0, 0⟩ "size" = some (.int 20) ∧
      (g.run captionSize).WellKinded ∧
      ((g.run (captionSize.take 3)).after captionSize[3]).MismatchesRefer := by
  intro g
  have hg : ofConfig {} = .ok g := rfl
  have hp : g.Proper none captionSize := .of_bounds rfl (room_empty {} (by decide) (by decide))
  obtain ⟨hkinds, -, hreports⟩ := kinds_run hg hp.fitting
  exact ⟨hg, hp.fitting, by decide +kernel, by decide +kernel, by decide +kernel, hkinds,
    (hreports (captionSize.take 3) captionSize[3] (captionSize.drop 4) rfl).2⟩

end Engine
end Cascade
