import Cascade.Proofs.Engine.RootPath
import Cascade.Proofs.Engine.Visits

/-!
# Nothing outlives its element or its sheet

What the engine keeps beside the elements is keyed by handles, by numbers of sheets and by numbers
of selectors.  It goes when what it is about goes: a style and a local sheet with their element, a
candidate with its rule, and an answer in the memo with its element or with the last rule that
asks for it.

## Main definitions

* `Engine.Uses` — a selector is used by a sheet that reaches an element.
* `Engine.Swept` — the invariant about local sheets and the memo.
* `Engine.Traceable` — candidates name rules that are there.
* `Engine.Tidy` — all this together.

## Main results

* `Engine.Swept.flush` — computing styles asks the memo about rules that reach the element.
* `Engine.Swept.effect` — the step: every operation sweeps up.
* `Engine.Proper.traceable` — the candidates of every style stand in the sheets.
* `Engine.tidy_run` — **after every proper run nothing outlives its element or its sheet.**
-/

namespace Cascade
namespace Engine

variable {g g' : Engine} {h k : Handle} {id : SheetId} {σ : SelectorId} {s : Styling}
  {c : Command} {cs : List Command}

/-- The selector with a number is used by a rule of a sheet that reaches the element. -/
def Uses (g : Engine) (h : Handle) (σ : SelectorId) : Prop :=
  ∃ id sheet, g.Reaches h id ∧ g.catalogue.get? id = some sheet ∧
    ∃ r ∈ sheet.rules, r.selector.id = σ

/-- What is asked about: a live element, and a selector that is used for it. -/
def Asks (g : Engine) (key : MemoKey) : Prop :=
  g.forest.contains key.element = true ∧ g.Uses key.element key.selector

/-- The books are right, every local sheet belongs to an element, and the memo holds answers to
questions that are still asked. -/
structure Swept (g : Engine) : Prop extends Coherent g where
  owned : ∀ {id sheet}, g.catalogue.get? id = some sheet → sheet.owner = .element →
    ∃ h, g.localSheet? h = some id
  memo : g.memo.Keeps fun key _ => g.Asks key

theorem swept_empty (config : Config) : Swept { config } where
  toCoherent := coherent_empty config
  owned := nofun
  memo := Memo.keeps_empty rfl

/-! ### What is still asked -/

/-- A selector stays in use while the sheets that reach the element stay. -/
theorem Uses.mono (hu : g.Uses h σ)
    (hr : ∀ id sheet, g.Reaches h id → g.catalogue.get? id = some sheet →
      g'.Reaches h id ∧ g'.catalogue.get? id = some sheet) : g'.Uses h σ := by
  obtain ⟨id, sheet, hid, hs, hrule⟩ := hu
  obtain ⟨hid', hs'⟩ := hr id sheet hid hs
  exact ⟨id, sheet, hid', hs', hrule⟩

theorem Uses.of_sameView (hu : g.Uses h σ) (hv : g.SameView g' h) : g'.Uses h σ :=
  hu.mono fun id _ hid hs => ⟨hv.reaches_iff.2 hid, (hv.sheet id hid).trans hs⟩

/-- Which sheets reach an element depends on what is above it, on the global order and on local
sheets. -/
theorem Reaches.mono (hr : g.Reaches h id) (ha : g'.forest.ancestors h = g.forest.ancestors h)
    (ho : ∀ id ∈ g.catalogue.globalOrder, id ∈ g'.catalogue.globalOrder)
    (hs : ∀ a, g.localSheet? a = some id → g'.localSheet? a = some id) : g'.Reaches h id := by
  rcases hr with hid | ⟨a, hup, hid⟩
  · exact .inl (ho id hid)
  · exact .inr ⟨a, ha ▸ hup, hs a hid⟩

theorem Asks.congr {key : MemoKey} (hk : g.Asks key) (hf : g'.forest = g.forest)
    (hc : g'.catalogue = g.catalogue) (hs : ∀ a, g'.localSheet? a = g.localSheet? a) :
    g'.Asks key := by
  refine ⟨hf ▸ hk.1, hk.2.mono fun id sheet hid hsheet => ⟨?_, hc ▸ hsheet⟩⟩
  exact hid.mono (by rw [hf]) (fun _ hm => hc ▸ hm) fun a ha => (hs a).trans ha

namespace Swept

/-- Elements may move and change their data, and all that is computed may change, as long as the
memo holds answers that are still asked for. -/
theorem congr (hg : g.Swept) (hg' : g'.Coherent) (hc : g'.catalogue = g.catalogue)
    (hs : ∀ a, g'.localSheet? a = g.localSheet? a)
    (hm : g'.memo.Keeps fun key _ => g'.Asks key) : g'.Swept where
  toCoherent := hg'
  owned := fun {id sheet} hid ho => by
    rw [hc] at hid
    obtain ⟨h, hh⟩ := hg.owned hid ho
    exact ⟨h, (hs h).trans hh⟩
  memo := hm

/-- Settings other than local sheets do not matter. -/
theorem of_settings (hg : g.Swept) (hg' : g'.Coherent) (hf : g'.forest = g.forest)
    (hc : g'.catalogue = g.catalogue) (hs : ∀ a, g'.localSheet? a = g.localSheet? a)
    (hm : g'.memo = g.memo) : g'.Swept :=
  hg.congr hg' hc hs (hm ▸ hg.memo.mono fun _ _ hk => hk.congr hf hc hs)

/-- Elements may move and change their data if all answers are dropped. -/
theorem forgotten (hg : g.Swept) {u : Forest} (hu : Coherent { g with forest := u }) :
    (Engine.forgetMatches { g with forest := u }).Swept :=
  hg.congr (hu.restyled (restyled_forgetMatches _)) rfl (fun _ => rfl) (Memo.keeps_empty rfl)

/-! ### Computing -/

/-- Computing a style asks about the element and the rules of the sheets that reach it. -/
theorem keeps_rank (hg : g.Swept) (hh : g.forest.contains h = true) (inline : List Declaration) :
    (g.rank (g.scene h inline)).2.Keeps fun key _ => g.Asks key := by
  unfold rank
  split
  · refine Scene.keeps_rankingMemo hg.memo fun r hr _ _ => ⟨hh, ?_⟩
    obtain ⟨hid, sheet, hs, hrule⟩ := Scene.exists_sheet_of_mem_rules hr
    refine ⟨r.sheet, sheet, ?_, hs, r.rule, List.mem_of_getElem? hrule, rfl⟩
    refine (List.mem_append.1 hid).imp_right fun hid => ?_
    obtain ⟨a, ha, hid⟩ := List.mem_filterMap.1 hid
    exact ⟨a, (Forest.mem_pathFromRoot hh).1 ha, hid⟩
  · exact hg.memo

theorem restyled (hg : g.Swept) (hr : g.Restyled g')
    (hm : g'.memo.Keeps fun key _ => g.Asks key) : g'.Swept :=
  hg.congr (hg.toCoherent.restyled hr) hr.catalogue hr.localSheet?_eq
    (hm.mono fun _ _ hk => hk.congr hr.forest hr.catalogue hr.localSheet?_eq)

theorem refresh (hg : g.Swept) (h : Handle) : (g.refresh h).Swept := by
  refine hg.restyled (restyled_refresh g h) ?_
  unfold Engine.refresh
  split
  · rw [recompute_eq]
    split
    · next s he hs => exact hg.keeps_rank (Forest.contains_of_get? he) s.inline
    · exact hg.memo
  · exact hg.memo

theorem foldl_refresh {hs : List Handle} (hg : g.Swept) : (hs.foldl Engine.refresh g).Swept := by
  induction hs generalizing g with
  | nil => exact hg
  | cons h hs ih => exact ih (hg.refresh h)

/-- **Computing styles sweeps up.** -/
theorem flush (hg : g.Swept) : g.flush.Swept := by
  unfold Engine.flush
  split
  · exact hg
  · rw [foldl_refreshSubtree_eq]
    exact foldl_refresh (hg.of_settings (hg.toCoherent.congr rfl rfl rfl rfl) rfl rfl
      (fun _ => rfl) rfl)

theorem foldl_markSubtree (hg : g.Swept) (rs : List Handle) :
    (rs.foldl markSubtree g).flush.Swept := by
  refine Swept.flush (hg.restyled (restyled_foldl_markSubtree hg.linked hg.styled rs) ?_)
  rw [foldl_markSubtree_eq]
  exact hg.memo

theorem restyle (hg : g.Swept) : (g.restyle h).Swept := hg.foldl_markSubtree [h]

theorem restyleAll (hg : g.Swept) : g.restyleAll.Swept := hg.foldl_markSubtree _

end Swept

/-! ### Changes -/

/-- A sheet that is gone is not found, and every other one is. -/
theorem get?_withoutSheet (g : Engine) (old : Option SheetId) (id : SheetId) :
    (g.withoutSheet old).catalogue.get? id =
      if old = some id then none else g.catalogue.get? id := by
  cases old with
  | none => rfl
  | some old =>
    refine (Catalogue.get?_remove _ _ _).trans ?_
    simp only [Option.some_inj]

theorem get?_catalogue_drop (g : Engine) (h : Handle) (id : SheetId) :
    (g.drop h).catalogue.get? id =
      if g.localSheet? h = some id then none else g.catalogue.get? id := by
  rw [← get?_withoutSheet, catalogue_drop]
  cases g.localSheet? h <;> rfl

namespace Swept

/-- A new element has no local sheet, and asks for nothing yet. -/
theorem inserted (hg : g.Swept) (e : Element) (hw : g.Unwrapped (g.inserted e)) :
    (g.inserted e).Swept := by
  have hsheet : ∀ k, (g.inserted e).localSheet? k = g.localSheet? k :=
    hg.toCoherent.localSheet?_inserted e hw.slots
  -- no answer is about the new element, and the path of every other is what it was
  refine hg.congr (hg.toCoherent.inserted e hw) rfl hsheet ?_
  refine Memo.Keeps.mono hg.memo fun key _ hk => ?_
  have hpath := Forest.samePath_insert hg.forest e hw.slots hk.1
  refine ⟨hpath.contains.2, hk.2.mono fun id sheet hid hs => ⟨?_, hs⟩⟩
  exact hid.mono hpath.ancestors_eq (fun _ hm => hm) fun a ha => (hsheet a).trans ha

/-- A local sheet that is left belongs to an element that is left. -/
theorem owned_dropAll (hs : List Handle)
    (hg : ∀ {id sheet}, g.catalogue.get? id = some sheet → sheet.owner = .element →
      ∃ h, g.localSheet? h = some id) :
    ∀ {id sheet}, (hs.foldl Engine.drop g).catalogue.get? id = some sheet →
      sheet.owner = .element → ∃ h, (hs.foldl Engine.drop g).localSheet? h = some id := by
  induction hs generalizing g with
  | nil => exact hg
  | cons h hs ih =>
    refine ih ?_
    intro id sheet hid ho
    rw [get?_catalogue_drop] at hid
    split at hid
    · cases hid
    · -- the sheet is not the one that went with the element
      next hkept =>
      obtain ⟨a, ha⟩ := hg hid ho
      have hne : ¬ h = a := by
        rintro rfl
        exact hkept ha
      refine ⟨a, ?_⟩
      rw [localSheet?, get?_drop, if_neg hne]
      exact ha

/-- With the elements go their local sheets and the answers about them, and what is left is about
others. -/
theorem destroyed (hg : g.Swept) {removed : List Handle} {u : Forest}
    (hd : g.forest.destroy h = (.ok removed, u)) : (g.destroyed removed u).Swept where
  toCoherent := hg.toCoherent.destroyed hd
  owned := owned_dropAll (g := { g with forest := u }) removed hg.owned
  memo := by
    intro key b hb
    obtain ⟨hb, hm⟩ := (get?_memo_dropAll _ removed key b).1 hb
    have hk : g.Asks key := hg.memo key b hb
    -- an answer that is left is about an element that is left, and above that nothing has gone
    rw [(Forest.destroy_eq_ok hg.linked hd).1] at hm
    have hlive : u.contains key.element = true :=
      (Forest.contains_destroy hg.linked hd key.element).2 ⟨hk.1, hm⟩
    have hview := SameView.destroyed hg.toCoherent hd hlive
    exact ⟨hview.path.contains.2, hk.2.of_sameView hview⟩

theorem edited (hg : g.Swept) (h : Handle) (e : Element.Edit) : (g.edited h e).Swept := by
  refine hg.congr (hg.toCoherent.edited h e) rfl (fun _ => rfl) ?_
  refine Memo.Keeps.mono hg.memo fun key _ hk => ?_
  -- an edit changes no links, so the sheets that reach an element reach it still
  have hlin := hg.linked.lineage hk.1
  have hlin' : (g.edited h e).forest.Lineage key.element (g.forest.ancestors key.element) :=
    hlin.congr fun a ha =>
      ⟨(contains_edited g h a e).trans (hlin.contains_of_mem ha), Forest.parent?_edit _ _ _ _⟩
  refine ⟨hlin'.contains, hk.2.mono fun id sheet hid hs => ⟨?_, hs⟩⟩
  exact hid.mono hlin'.ancestors_eq (fun _ hm => hm) fun _ ha => ha

end Swept

/-- The new sheet is there, and of the old ones all but that of the element. -/
theorem get?_assigned (g : Engine) (h : Handle) (sheet : Option Sheet) (id : SheetId) :
    (g.assigned h sheet).catalogue.get? id =
      if g.localSheet? h = some id then none else (g.filed sheet).2.catalogue.get? id :=
  get?_withoutSheet _ _ _

theorem memo_assigned (g : Engine) (h : Handle) (sheet : Option Sheet) :
    (g.assigned h sheet).memo = if (g.localSheet? h).isSome then g.memo.clear else g.memo := by
  have hfiled : (g.filed sheet).2.memo = g.memo := by cases sheet <;> rfl
  show (((g.filed sheet).2.withLocalSheet h _).withoutSheet (g.localSheet? h)).memo = _
  rw [← hfiled]
  cases g.localSheet? h <;> rfl

theorem get?_filed (g : Engine) (sheet : Option Sheet) (id : SheetId) :
    (g.filed sheet).2.catalogue.get? id = g.catalogue.get? id ∨ (g.filed sheet).1 = some id := by
  cases sheet with
  | none => exact .inl rfl
  | some sheet =>
    by_cases hid : (⟨g.catalogue.next⟩ : SheetId) = id
    · exact .inr (congrArg some hid)
    · exact .inl ((Catalogue.get?_compile _ _ _ _ _).trans (if_neg hid))

theorem localSheet?_assigned (g : Engine) (h : Handle) (sheet : Option Sheet) (k : Handle) :
    (g.assigned h sheet).localSheet? k =
      if h = k then (g.styles.get? h).bind fun _ => (g.filed sheet).1 else g.localSheet? k := by
  have hstyles : (g.assigned h sheet).localSheet? k =
      ((g.filed sheet).2.withLocalSheet h (g.filed sheet).1).localSheet? k := by
    unfold assigned withoutSheet
    split <;> rfl
  have hfiled : (g.filed sheet).2.styles = g.styles := by cases sheet <;> rfl
  rw [hstyles, localSheet?_withLocalSheet, localSheet?, localSheet?, hfiled]

namespace Swept

/-- The new sheet belongs to the element, and the old one is gone. -/
theorem owned_assigned (hg : g.Swept) (hh : g.forest.contains h = true) (sheet : Option Sheet)
    {id : SheetId} {compiled : CompiledSheet}
    (hid : (g.assigned h sheet).catalogue.get? id = some compiled)
    (ho : compiled.owner = .element) : ∃ k, (g.assigned h sheet).localSheet? k = some id := by
  obtain ⟨s, hs⟩ := hg.exists_styling hh
  rw [get?_assigned] at hid
  split at hid
  · cases hid
  · next hold =>
    -- the sheet that is left is an old one with its element, or the new one of this element
    rcases get?_filed g sheet id with heq | hnew
    · rw [heq] at hid
      obtain ⟨k, hk⟩ := hg.owned hid ho
      have hne : ¬ h = k := by
        rintro rfl
        exact hold hk
      exact ⟨k, by rw [localSheet?_assigned, if_neg hne, hk]⟩
    · exact ⟨h, by rw [localSheet?_assigned, if_pos rfl, hs, Option.bind_some, hnew]⟩

/-- If the element had no local sheet, no sheet goes, and what is asked is still asked. -/
theorem asks_assigned (hg : g.Swept) (sheet : Option Sheet) (hold : g.localSheet? h = none)
    {key : MemoKey} (hk : g.Asks key) : (g.assigned h sheet).Asks key := by
  have hforest := forest_assigned g h sheet
  have horder : (g.assigned h sheet).catalogue.globalOrder = g.catalogue.globalOrder := by
    show (((g.filed sheet).2.withLocalSheet h _).withoutSheet
      (g.localSheet? h)).catalogue.globalOrder = _
    rw [hold]
    cases sheet <;> rfl
  refine ⟨hforest ▸ hk.1, hk.2.mono fun id compiled hid hs => ⟨?_, ?_⟩⟩
  · refine hid.mono (by rw [hforest]) (fun _ hm => horder ▸ hm) fun a ha => ?_
    -- the sheet of another element, since this one had none
    have hne : ¬ h = a := by
      rintro rfl
      rw [hold] at ha
      cases ha
    rw [localSheet?_assigned, if_neg hne, ha]
  · rw [get?_assigned, hold, if_neg nofun]
    cases sheet with
    | none => exact hs
    | some sheet =>
      exact (Catalogue.get?_compile _ _ _ _ _).trans ((if_neg (hg.filed.ne_next hs)).trans hs)

/-- If the element had a local sheet, all answers go. -/
theorem assigned (hg : g.Swept) (hh : g.forest.contains h = true) (sheet : Option Sheet)
    (hw : g.Unwrapped (g.assigned h sheet)) : (g.assigned h sheet).Swept where
  toCoherent := hg.toCoherent.assigned h sheet hw
  owned := hg.owned_assigned hh sheet
  memo := by
    rw [memo_assigned]
    -- answers are dropped only if a sheet goes; else what is asked is asked still
    cases hold : g.localSheet? h with
    | some old => exact Memo.keeps_empty rfl
    | none => exact hg.memo.mono fun _ _ hk => hg.asks_assigned sheet hold hk

/-- A new global sheet belongs to no element, and makes no sheet go. -/
theorem withGlobal (hg : g.Swept) (sheet : Sheet) (hw : g.Unwrapped (g.withGlobal sheet)) :
    (g.withGlobal sheet).Swept where
  toCoherent := hg.toCoherent.withGlobal sheet hw
  owned := fun {id compiled} hid ho => by
    have hget := Catalogue.get?_insertGlobal g.catalogue g.lexicon sheet id
    have hid : (g.catalogue.insertGlobal g.lexicon sheet).2.1.get? id = some compiled := hid
    rw [hid] at hget
    split at hget
    · cases hget
      split at ho <;> cases ho
    · exact hg.owned hget.symm ho
  memo := Memo.Keeps.mono hg.memo fun key _ hk => by
    refine ⟨hk.1, hk.2.mono fun id compiled hid hs => ⟨?_, ?_⟩⟩
    · exact hid.mono rfl (fun _ hm => Catalogue.mem_globalOrder_insertGlobal _ sheet hm)
        fun _ ha => ha
    · exact (Catalogue.get?_insertGlobal _ _ _ _).trans ((if_neg (hg.filed.ne_next hs)).trans hs)

/-- With a global sheet all answers go. -/
theorem withoutGlobal (hg : g.Swept) {sheet : CompiledSheet}
    (hs : g.catalogue.get? id = some sheet) (ho : sheet.owner ≠ .element) :
    (g.withoutSheet (some id)).Swept where
  toCoherent := (hg.toCoherent.withoutGlobal hs ho).toCoherent
  owned := fun {id' sheet'} hid ho => by
    rw [get?_withoutSheet] at hid
    split at hid
    · cases hid
    · exact hg.owned hid ho
  memo := Memo.keeps_empty rfl

theorem modify (hg : g.Swept) {f : Styling → Styling}
    (hf : ∀ s, (f s).localSheet = s.localSheet) :
    Swept { g with styles := g.styles.modify h f } :=
  hg.of_settings (hg.toCoherent.modify hf) rfl rfl (localSheet?_modify_eq hf) rfl

theorem registerOverlay (hg : g.Swept) {name : String}
    (he : Effect g (.registerOverlay h name) g') : g'.Swept := by
  cases he with
  | idle => exact hg
  | registerOverlay hh hs ho =>
    exact Swept.flush (hg.of_settings (hg.toCoherent.overlaid hh hs name) rfl rfl
      (localSheet?_overlaid hs name) rfl)

/-- **Every operation sweeps up.** -/
theorem effect (hg : g.Swept) (he : Effect g c g') (hw : g.Unwrapped g') : g'.Swept := by
  cases he with
  | idle => exact hg
  | registerEarly =>
    exact hg.of_settings (hg.toCoherent.congr rfl rfl rfl rfl) rfl rfl (fun _ => rfl) rfl
  | register =>
    exact Swept.restyleAll
      (hg.of_settings (hg.toCoherent.congr rfl rfl rfl rfl) rfl rfl (fun _ => rfl) rfl)
  | insert e => exact (hg.inserted e hw.of_flush).flush
  | destroy hd => exact hg.destroyed hd
  | attach ha => exact (hg.forgotten (hg.toCoherent.attached ha)).restyle
  | detach hd => exact (hg.forgotten (hg.toCoherent.detached hd)).restyle
  | noteChange => exact Swept.restyle (hg.forgotten hg.toCoherent)
  | edit e => exact Swept.restyle (hg.forgotten (hg.toCoherent.edited _ e))
  | editUnnoted e => exact hg.edited _ e
  | assignSheet sheet hh => exact (hg.assigned hh sheet hw.of_restyle).restyle
  | setInline inline => exact Swept.restyle (hg.modify fun _ => rfl)
  | addSheet sheet => exact (hg.withGlobal sheet hw.of_restyleAll).restyleAll
  | removeSheet hs ho => exact (hg.withoutGlobal hs ho).restyleAll
  | registerOverlay hh hs ho => exact hg.registerOverlay (.registerOverlay hh hs ho)
  | setOverlay enabled blend hh he => exact (hg.registerOverlay he).modify fun _ => rfl
  | takeDiagnostics =>
    exact hg.of_settings (hg.toCoherent.congr rfl rfl rfl rfl) rfl rfl (fun _ => rfl) rfl

end Swept

theorem Proper.swept {o : Option Handle} (hp : g.Proper o cs) (hg : g.Swept) : (g.run cs).Swept :=
  hp.induction (P := fun g _ => g.Swept) (fun hg _ hw => hg.effect (effect_after _ _) hw) hg

/-! ### Candidates -/

/-- Every candidate from a rule names a sheet that is there, and the place of a rule in it with
the selector and the declaration of the candidate. -/
def Traceable (g : Engine) : Prop :=
  ∀ h key, ∀ c ∈ g.trace h key, ∀ id n σ, c.origin = .rule id n σ →
    ∃ sheet r, g.catalogue.get? id = some sheet ∧ sheet.rules[n]? = some r ∧
      r.selector.id = σ ∧ c.declaration ∈ r.declarations

/-- The candidates of a settled style are those of the present sheets. -/
theorem Settled.exists_rule (hs : g.Settled h s) {key : String} {x : Candidate} {n : Nat}
    (hx : x ∈ s.ranking.candidates key) (ho : x.origin = .rule id n σ) :
    ∃ sheet r, g.catalogue.get? id = some sheet ∧ sheet.rules[n]? = some r ∧
      r.selector.id = σ ∧ x.declaration ∈ r.declarations := by
  rw [hs.ranking, scratchRanking] at hx
  obtain ⟨r, hr, rfl, rfl, rfl, hd⟩ := Scene.exists_rule_of_mem_candidates hx ho
  obtain ⟨-, sheet, hget, hrule⟩ := Scene.exists_sheet_of_mem_rules hr
  exact ⟨sheet, r.rule, hget, hrule, rfl, hd⟩

/-- **The candidates of every style stand in the sheets,** after every proper run. -/
theorem Proper.traceable {config : Config} (hg : ofConfig config = .ok g) (hp : g.Proper none cs) :
    (g.run cs).Traceable := by
  induction cs using List.reverseRecOn with
  | nil =>
    obtain rfl := eq_of_ofConfig hg
    exact fun _ _ _ hc => (List.not_mem_nil hc).elim
  | append_singleton cs c ih =>
    have hrun : g.run (cs ++ [c]) = (g.run cs).after c := by rw [run, List.foldl_append]; rfl
    by_cases hc : ∃ h e, c = .editUnnoted h e
    · -- while a change is not noted, styles and sheets stay as they are
      obtain ⟨h, e, rfl⟩ := hc
      rw [hrun]
      show (Engine.editUnnoted (g.run cs) h e).2.Traceable
      rcases editUnnoted_cases (g.run cs) h e with ⟨he, -⟩ | ⟨-, he⟩
      · rw [he]
        exact ih hp.of_append
      · rw [he]
        exact ih hp.of_append
    · have hn : g.unnotedRun none (cs ++ [c]) = none := by
        rw [unnotedRun_append]
        exact unnotedAfter_of_ne fun h e he => hc ⟨h, e, he⟩
      -- all is noted, so the style is the one that the present sheets give
      intro h key x hx id n σ ho
      unfold trace at hx
      split at hx
      · next s hs =>
        have hcoherent : (g.run (cs ++ [c])).Coherent := by
          obtain rfl := eq_of_ofConfig hg
          exact hp.coherent (coherent_empty config)
        obtain ⟨-, s', hs', hsettled⟩ := hp.exists_settled hg hn (hcoherent.contains_of_get? hs)
        rw [hs] at hs'
        cases hs'
        exact hsettled.exists_rule hx ho
      · cases hx

/-! ### All together -/

/-- Nothing outlives its element or its sheet. -/
structure Tidy (g : Engine) : Prop where
  /-- Exactly the live elements have styles. -/
  isSome_styles : ∀ h, (g.styles.get? h).isSome = g.forest.contains h
  /-- The local sheets that are there are those of live elements. -/
  localSheet_iff : ∀ id, (∃ sheet, g.catalogue.get? id = some sheet ∧ sheet.owner = .element) ↔
    ∃ h, g.forest.contains h = true ∧ g.localSheet? h = some id
  /-- No local sheet belongs to two elements. -/
  localSheet_unique : ∀ h k id, g.localSheet? h = some id → g.localSheet? k = some id → h = k
  traceable : g.Traceable
  /-- The memo holds answers about live elements, to questions that some rule asks that may
  apply to the element. -/
  memo : ∀ key b, g.memo.entries.get? key = some b →
    g.forest.contains key.element = true ∧ g.Uses key.element key.selector

/-- A local sheet belongs to an element that is live. -/
theorem Coherent.contains_of_localSheet? (hg : g.Coherent) (hid : g.localSheet? h = some id) :
    g.forest.contains h = true := by
  obtain ⟨s, hs, -⟩ := Option.bind_eq_some_iff.1 hid
  exact hg.contains_of_get? hs

theorem Swept.tidy (hg : g.Swept) (ht : g.Traceable) : g.Tidy where
  isSome_styles := hg.isSome_styles
  localSheet_iff := by
    intro id
    constructor
    · rintro ⟨sheet, hs, ho⟩
      obtain ⟨h, hh⟩ := hg.owned hs ho
      exact ⟨h, hg.contains_of_localSheet? hh, hh⟩
    · rintro ⟨h, -, hh⟩
      exact hg.localSheet hh
  localSheet_unique := fun _ _ _ hh hk => hg.distinct hh hk
  traceable := ht
  memo := hg.memo

/-- **After every proper run nothing outlives its element or its sheet.** -/
theorem tidy_run {config : Config} (hg : ofConfig config = .ok g) (hp : g.Proper none cs) :
    (g.run cs).Tidy := by
  have htrace := hp.traceable hg
  obtain rfl := eq_of_ofConfig hg
  exact (hp.swept (swept_empty config)).tidy htrace

/-- A panel and its button have local sheets; that of the panel is replaced, the panel changes
behind the engine's back, and the button is destroyed. -/
def sheetedPanel : List Command :=
  let dims (opacity : Int32) : Sheet :=
    { rules := [⟨"Button", [{ key := "opacity", payload := some (.literal (.int opacity)) }]⟩] }
  [.register "opacity" (.int 10) true, .insert { (default : Element) with typeName := "Panel" },
    .insert { (default : Element) with typeName := "Button" }, .attach ⟨1, 0⟩ ⟨0, 0⟩,
    .assignSheet ⟨0, 0⟩ (some (dims 5)), .assignSheet ⟨1, 0⟩ (some (dims 7)),
    .assignSheet ⟨0, 0⟩ (some (dims 3)), .editUnnoted ⟨0, 0⟩ (.addClass "dark"),
    .noteChange ⟨0, 0⟩, .destroy ⟨1, 0⟩]

/-- In the end only the sheet of the panel is left, and the memo knows the panel alone. -/
theorem tidy_run_sheetedPanel :
    let g : Engine := { config := {} }
    ofConfig {} = .ok g ∧ g.Proper none sheetedPanel ∧
      (g.run (sheetedPanel.take 9)).catalogue.sheets.keys = [⟨1⟩, ⟨2⟩] ∧
      (g.run sheetedPanel).catalogue.sheets.keys = [⟨2⟩] ∧
      (g.run sheetedPanel).memo.entries.keys.map (·.element) = [⟨0, 0⟩, ⟨0, 0⟩] ∧
      (g.run sheetedPanel).Tidy := by
  intro g
  have hg : ofConfig {} = .ok g := rfl
  have hp : g.Proper none sheetedPanel := .of_bounds rfl (room_empty {} (by decide) (by decide))
  exact ⟨hg, hp, by decide +kernel, by decide +kernel, by decide +kernel, tidy_run hg hp⟩

end Engine
end Cascade
