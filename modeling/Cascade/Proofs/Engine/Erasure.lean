import Cascade.Engine.Queries
import Cascade.Proofs.Engine.Memo
import Cascade.Proofs.Engine.Runs

/-!
# Whether matching is remembered cannot be told

An engine with a memo and the same engine without one go through the same states, apart from
the memo: every operation gives the same result, and every question the same answer, except
for the counts of answers kept and worked out.

## Main definitions

* `Engine.Accounted` — the answers in the memo are right, unless a change is to be noted.
* `Engine.replies` — the results of a run.
* `Engine.SameAnswers` — two engines answer all questions alike.

## Main results

* `Engine.Accounted.perform_plain` — an operation commutes with erasing the memo.
* `Engine.Accounted.proper_plain_iff` — the memo has no part in what makes a run proper.
* `Engine.sameAnswers_run` — **two engines that differ in the memo setting cannot be told apart.**
-/

namespace Cascade
namespace Engine

variable {g g' : Engine} {h k : Handle} {o : Option Handle} {c : Command}

/-! ### Answers stay right -/

theorem Trusted.registerOverlay (hg : g.Trusted) {name : String}
    (he : Effect g (.registerOverlay h name) g') : g'.Trusted := by
  cases he with
  | idle => exact hg
  | registerOverlay hh hs ho => exact erasable_flush.trusted (hg.overlaid hh hs)

/-- **Every operation keeps answers right,** but for a change behind the engine's back. -/
theorem Trusted.effect (hg : g.Trusted) (he : Effect g c g') (hw : g.Unwrapped g')
    (hc : ∀ h e, c ≠ .editUnnoted h e) : g'.Trusted := by
  cases he with
  | idle => exact hg
  | registerEarly => exact hg.withRegistry _
  | register => exact erasable_restyleAll.trusted (hg.withRegistry _)
  | insert e =>
    exact erasable_flush.trusted (hg.inserted e hw.of_flush)
  | destroy hd => exact hg.destroyed hd
  | attach ha => exact (erasable_restyle _).trusted (hg.attached ha)
  | detach hd => exact (erasable_restyle _).trusted (hg.detached hd)
  | noteChange => exact (erasable_restyle _).trusted hg.forgetMatches
  | edit c => exact (erasable_restyle _).trusted (hg.toCoherent.edited _ c).forgetMatches
  | editUnnoted e => exact absurd rfl (hc _ e)
  | assignSheet sheet =>
    exact (erasable_restyle _).trusted (hg.assigned _ sheet hw.of_restyle)
  | setInline inline => exact (erasable_restyle _).trusted (hg.withInline _ inline)
  | addSheet sheet =>
    exact erasable_restyleAll.trusted (hg.withGlobal sheet hw.of_restyleAll)
  | removeSheet hs ho => exact erasable_restyleAll.trusted (hg.toCoherent.withoutGlobal hs ho)
  | registerOverlay hh hs ho => exact hg.registerOverlay (.registerOverlay hh hs ho)
  | setOverlay enabled blend hh he =>
    exact (hg.registerOverlay he).modify
      (f := fun s => { s with overlays := setFirst _ enabled blend s.overlays }) (fun _ => rfl) _
  | takeDiagnostics =>
    exact ⟨hg.toCoherent.congr rfl rfl rfl rfl, hg.memo⟩

/-! ### Erasing the memo -/

/-- The outcome of an operation without the memo. -/
def plainOutcome {α : Type} (r : Outcome α) : Outcome α := (r.1, r.2.plain)

theorem plain_restyle (hg : g.Trusted) (h : Handle) : (g.restyle h).plain = g.plain.restyle h :=
  (erasable_restyle h).plain hg

theorem plain_restyleAll (hg : g.Trusted) : g.restyleAll.plain = g.plain.restyleAll :=
  erasable_restyleAll.plain hg

theorem plain_flush (hg : g.Trusted) : g.flush.plain = g.plain.flush := erasable_flush.plain hg

theorem plain_assigned (g : Engine) (h : Handle) (sheet : Option Sheet) :
    g.plain.assigned h sheet = (g.assigned h sheet).plain := by
  have hstyles : g.plain.styles.get? h = g.styles.get? h := rfl
  unfold assigned
  rw [hstyles]
  cases sheet <;> cases (g.styles.get? h).bind (·.localSheet) <;> rfl

/-- The memo has no numbers. -/
theorem Unwrapped.of_plain (hw : g.plain.Unwrapped g'.plain) : g.Unwrapped g' :=
  ⟨hw.slots, hw.texts, hw.sheets⟩

/-- The numbers of a command fit, with the memo or without it. -/
def Fits (g : Engine) (c : Command) : Prop :=
  g.Unwrapped (g.after c) ∨ g.plain.Unwrapped (g.plain.after c)

namespace Fits

theorem inserted {e : Element} (hw : g.Fits (.insert e)) : g.Unwrapped (g.inserted e) := by
  rcases hw with hw | hw
  · have hw : g.Unwrapped (g.inserted e).flush := hw
    exact hw.of_flush
  · have hw : g.plain.Unwrapped (g.inserted e).plain.flush := hw
    exact .of_plain hw.of_flush

theorem assigned {sheet : Option Sheet} (hw : g.Fits (.assignSheet h sheet))
    (hh : g.forest.contains h = true) : g.Unwrapped (g.assigned h sheet) := by
  rcases hw with hw | hw
  · have ha : g.after (.assignSheet h sheet) = (g.assigned h sheet).restyle h :=
      congrArg Prod.snd (assignSheet_of_contains hh sheet)
    rw [ha] at hw
    exact hw.of_restyle
  · have ha : g.plain.after (.assignSheet h sheet) = (g.plain.assigned h sheet).restyle h :=
      congrArg Prod.snd (assignSheet_of_contains (g := g.plain) hh sheet)
    rw [ha, plain_assigned] at hw
    exact .of_plain hw.of_restyle

theorem withGlobal {sheet : Sheet} (hw : g.Fits (.addSheet sheet)) :
    g.Unwrapped (g.withGlobal sheet) := by
  rcases hw with hw | hw
  · have hw : g.Unwrapped (g.withGlobal sheet).restyleAll := hw
    exact hw.of_restyleAll
  · have hw : g.plain.Unwrapped (g.withGlobal sheet).plain.restyleAll := hw
    exact .of_plain hw.of_restyleAll

end Fits

theorem plain_register (hg : g.Trusted) (key : String) (initial : Value) (inheritable : Bool) :
    g.plain.register key initial inheritable =
      plainOutcome (g.register key initial inheritable) := by
  cases hr : g.registry.register? key initial inheritable with
  | none =>
    rw [register_taken hr, register_taken (g := g.plain) hr]
    rfl
  | some r =>
    have hempty : g.plain.forest.isEmpty = g.forest.isEmpty := rfl
    rw [register_of_some hr, register_of_some (g := g.plain) hr, hempty]
    cases g.forest.isEmpty with
    | true => rfl
    | false => exact congrArg (Prod.mk _) (plain_restyleAll (hg.withRegistry r.2)).symm

theorem plain_registerOverlay (hg : g.Trusted) (h : Handle) (name : String) :
    g.plain.registerOverlay h name = plainOutcome (g.registerOverlay h name) := by
  have hstyles : g.plain.styles.get? h = g.styles.get? h := rfl
  unfold registerOverlay
  by_cases hh : g.forest.contains h = true
  · rw [require_of_contains hh, require_of_contains (g := g.plain) hh, hstyles]
    cases hs : g.styles.get? h with
    | none => rfl
    | some s =>
      cases ho : (s.overlay? name).isSome with
      | true => simp only [ho]; rfl
      | false =>
        simp only [ho]
        exact congrArg (Prod.mk _) (plain_flush (hg.overlaid hh hs)).symm
  · rw [require_stale hh, require_stale (g := g.plain) hh]
    rfl

theorem plain_dropAll (g : Engine) (hs : List Handle) :
    (hs.foldl drop g).plain = hs.foldl drop g.plain := by
  induction hs generalizing g with
  | nil => rfl
  | cons h hs ih => exact ih (g.drop h)

/-- Dropping what is gone also drops its answers, of which there are none without a memo. -/
theorem plain_destroyed (g : Engine) (removed : List Handle) (u : Forest) :
    g.plain.destroyed removed u = (g.destroyed removed u).plain := by
  have hd : removed.foldl drop { g.plain with forest := u } =
    (removed.foldl drop { g with forest := u }).plain :=
      (plain_dropAll { g with forest := u } removed).symm
  unfold destroyed
  rw [hd]
  rfl

theorem plain_destroy (g : Engine) (h : Handle) :
    g.plain.destroy h = plainOutcome (g.destroy h) := by
  rcases hd : g.forest.destroy h with ⟨e | removed, u⟩
  · rw [destroy_eq_error hd, destroy_eq_error (g := g.plain) hd]
    rfl
  · rw [destroy_eq_ok hd, destroy_eq_ok (g := g.plain) hd, plain_destroyed]
    rfl

theorem plain_attach (hg : g.Trusted) (child parent : Handle) :
    g.plain.attach child parent = plainOutcome (g.attach child parent) := by
  rcases ha : g.forest.attach child parent with ⟨e | _, u⟩
  · rw [attach_eq_error ha, attach_eq_error (g := g.plain) ha]
    rfl
  · rw [attach_eq_ok ha, attach_eq_ok (g := g.plain) ha]
    exact congrArg (Prod.mk _) (plain_restyle (hg.attached ha) child).symm

theorem plain_detach (hg : g.Trusted) (child : Handle) :
    g.plain.detach child = plainOutcome (g.detach child) := by
  rcases hd : g.forest.detach child with ⟨e | old, u⟩
  · rw [detach_eq_error hd, detach_eq_error (g := g.plain) hd]
    rfl
  · rw [detach_eq_ok hd, detach_eq_ok (g := g.plain) hd]
    exact congrArg (Prod.mk _) (plain_restyle (hg.detached hd) child).symm

theorem plain_noteChange (hg : g.Coherent) (h : Handle) :
    g.plain.noteChange h = plainOutcome (g.noteChange h) := by
  by_cases hh : g.forest.contains h = true
  · rw [noteChange_of_contains hh, noteChange_of_contains (g := g.plain) hh]
    exact congrArg (Prod.mk _) (plain_restyle hg.forgetMatches h).symm
  · rw [noteChange_stale hh, noteChange_stale (g := g.plain) hh]
    rfl

theorem plain_editUnnoted (g : Engine) (h : Handle) (c : Element.Edit) :
    g.plain.editUnnoted h c = ((g.editUnnoted h c).1, (g.editUnnoted h c).2.plain) := by
  have hget : g.plain.forest.get? h = g.forest.get? h := rfl
  unfold editUnnoted
  rw [hget]
  cases g.forest.get? h with
  | none => rfl
  | some e =>
    cases hc : e.changes c with
    | true => simp only [hc, if_true]; rfl
    | false => simp only [hc]; rfl

theorem plain_edit (hg : g.Trusted) (h : Handle) (c : Element.Edit) :
    g.plain.edit h c = plainOutcome (g.edit h c) := by
  unfold edit
  rw [plain_editUnnoted]
  rcases editUnnoted_cases g h c with ⟨he, hh⟩ | ⟨hne, he⟩
  · rw [he]
    exact plain_noteChange (hg.toCoherent.edited h c) h
  · cases hr : (g.editUnnoted h c).1 with
    | none => rw [← Prod.eta (g.editUnnoted h c), hr, he]; rfl
    | some b =>
      cases b with
      | true => exact absurd hr hne
      | false => rw [← Prod.eta (g.editUnnoted h c), hr, he]; rfl

theorem plain_assignSheet (hg : g.Trusted) (h : Handle) (sheet : Option Sheet)
    (hw : g.Fits (.assignSheet h sheet)) :
    g.plain.assignSheet h sheet = plainOutcome (g.assignSheet h sheet) := by
  by_cases hh : g.forest.contains h = true
  · have hid : (g.plain.filed sheet).1 = (g.filed sheet).1 := by cases sheet <;> rfl
    have hassigned := hg.assigned h sheet (hw.assigned hh)
    rw [assignSheet_of_contains hh, assignSheet_of_contains (g := g.plain) hh, plain_assigned, hid]
    exact congrArg (Prod.mk _) (plain_restyle hassigned h).symm
  · rw [assignSheet_stale hh, assignSheet_stale (g := g.plain) hh]
    rfl

theorem plain_setInline (hg : g.Trusted) (h : Handle) (inline : List Declaration) :
    g.plain.setInline h inline = plainOutcome (g.setInline h inline) := by
  by_cases hh : g.forest.contains h = true
  · rw [setInline_of_contains hh, setInline_of_contains (g := g.plain) hh]
    exact congrArg (Prod.mk _) (plain_restyle (hg.withInline h inline) h).symm
  · rw [setInline_stale hh, setInline_stale (g := g.plain) hh]
    rfl

theorem plain_addSheet (hg : g.Trusted) (sheet : Sheet) (hw : g.Fits (.addSheet sheet)) :
    g.plain.addSheet sheet = ((g.addSheet sheet).1, (g.addSheet sheet).2.plain) :=
  congrArg (Prod.mk _) (plain_restyleAll (hg.withGlobal sheet hw.withGlobal)).symm

theorem plain_removeSheet (hg : g.Trusted) (id : SheetId) :
    g.plain.removeSheet id = plainOutcome (g.removeSheet id) := by
  by_cases hid : ∀ sheet, g.catalogue.get? id = some sheet → sheet.owner = .element
  · rw [removeSheet_unknown hid, removeSheet_unknown (g := g.plain) hid]
    rfl
  · simp only [not_forall, exists_prop] at hid
    obtain ⟨sheet, hs, ho⟩ := hid
    rw [removeSheet_of_get? hs ho, removeSheet_of_get? (g := g.plain) hs ho]
    exact congrArg (Prod.mk _) (plain_restyleAll (hg.toCoherent.withoutGlobal hs ho)).symm

theorem plain_setOverlay (hg : g.Trusted) (h : Handle) (name : String) (enabled : Bool)
    (blend : Float32) : g.plain.setOverlay h name enabled blend =
      plainOutcome (g.setOverlay h name enabled blend) := by
  unfold setOverlay
  rw [plain_registerOverlay hg]
  rcases g.registerOverlay h name with ⟨e | _, g'⟩ <;> rfl

theorem perform_editUnnoted_plain (g : Engine) (h : Handle) (c : Element.Edit) :
    g.plain.perform (.editUnnoted h c) = plainOutcome (g.perform (.editUnnoted h c)) := by
  have hp : ∀ g : Engine, g.perform (.editUnnoted h c) =
    (.ok (.changed (g.editUnnoted h c).1), (g.editUnnoted h c).2) := fun _ => rfl
  rw [hp, hp, plain_editUnnoted]
  rfl

/-- **An operation commutes with erasing the memo.** -/
theorem Trusted.perform_plain (hg : g.Trusted) (c : Command) (hw : g.Fits c) :
    g.plain.perform c = plainOutcome (g.perform c) := by
  have hreply : ∀ {α : Type} {f : α → Reply} {r r' : Outcome α}, r' = plainOutcome r →
      replying f r' = plainOutcome (replying f r) := fun h => h ▸ rfl
  cases c with
  | register key initial inheritable => exact hreply (plain_register hg key initial inheritable)
  | insert e => exact congrArg (Prod.mk _) (plain_flush (hg.inserted e hw.inserted)).symm
  | destroy h => exact hreply (plain_destroy g h)
  | attach child parent => exact hreply (plain_attach hg child parent)
  | detach child => exact hreply (plain_detach hg child)
  | noteChange h => exact hreply (plain_noteChange hg.toCoherent h)
  | edit h c => exact hreply (plain_edit hg h c)
  | editUnnoted h c => exact perform_editUnnoted_plain g h c
  | assignSheet h sheet => exact hreply (plain_assignSheet hg h sheet hw)
  | setInline h inline => exact hreply (plain_setInline hg h inline)
  | addSheet sheet =>
    have hp : ∀ g : Engine, g.perform (.addSheet sheet) =
      (.ok (.sheet (g.addSheet sheet).1), (g.addSheet sheet).2) := fun _ => rfl
    rw [hp, hp, plain_addSheet hg sheet hw]
    rfl
  | removeSheet id => exact hreply (plain_removeSheet hg id)
  | registerOverlay h name => exact hreply (plain_registerOverlay hg h name)
  | setOverlay h name enabled blend => exact hreply (plain_setOverlay hg h name enabled blend)
  | takeDiagnostics => rfl

/-! ### Runs -/

/-- The books are right, and so are the answers in the memo, unless a change of data is still to
be noted. -/
structure Accounted (g : Engine) (o : Option Handle) : Prop extends Coherent g where
  memo : o = none → g.memo.Keeps g.Right
  contains : ∀ h, o = some h → g.forest.contains h = true

theorem Trusted.accounted (hg : g.Trusted) : g.Accounted none where
  toCoherent := hg.toCoherent
  memo := fun _ => hg.memo
  contains := fun _ h => by cases h

theorem Accounted.trusted (hg : g.Accounted none) : g.Trusted := ⟨hg.toCoherent, hg.memo rfl⟩

/-- A change behind the engine's back is accounted for, whatever was to be noted before. -/
theorem Accounted.editUnnoted (hg : g.Accounted o) (h : Handle) (e : Element.Edit) :
    (g.after (.editUnnoted h e)).Accounted (g.unnotedAfter o (.editUnnoted h e)) := by
  rw [unnotedAfter_editUnnoted]
  show Accounted (g.editUnnoted h e).2 _
  rcases editUnnoted_cases g h e with ⟨he, hh⟩ | ⟨hne, he⟩
  · rw [he, if_pos rfl]
    refine ⟨hg.toCoherent.edited h e, nofun, ?_⟩
    intro k hk
    cases hk
    rw [contains_edited]
    exact hh
  · rw [he, if_neg hne]
    exact hg

/-- **One step of a proper run commutes with erasing the memo.** -/
theorem Accounted.perform_plain (hg : g.Accounted o) (ha : Admits o c) (hw : g.Fits c) :
    g.plain.perform c = plainOutcome (g.perform c) := by
  cases o with
  | none => exact hg.trusted.perform_plain c hw
  | some h =>
    rcases ha h rfl with rfl | ⟨e, rfl⟩
    · exact congrArg (replying _) (plain_noteChange hg.toCoherent h)
    · exact perform_editUnnoted_plain g h e

theorem Accounted.after_plain (hg : g.Accounted o) (ha : Admits o c) (hw : g.Fits c) :
    g.plain.after c = (g.after c).plain := congrArg Prod.snd (hg.perform_plain ha hw)

/-- **One step of a proper run keeps everything accounted for.** -/
theorem Accounted.step (hg : g.Accounted o) (ha : Admits o c) (hw : g.Unwrapped (g.after c)) :
    (g.after c).Accounted (g.unnotedAfter o c) := by
  cases o with
  | none =>
    by_cases hc : ∃ h e, c = .editUnnoted h e
    · obtain ⟨h, e, rfl⟩ := hc
      exact hg.editUnnoted h e
    · have hc : ∀ h e, c ≠ .editUnnoted h e := fun h e he => hc ⟨h, e, he⟩
      rw [unnotedAfter_of_ne hc]
      exact (hg.trusted.effect (effect_after g c) hw hc).accounted
  | some h =>
    rcases ha h rfl with rfl | ⟨e, rfl⟩
    · -- the change is noted, and the answers that it made wrong are dropped first
      have hn : g.after (.noteChange h) = g.forgetMatches.restyle h :=
        congrArg Prod.snd (noteChange_of_contains (hg.contains h rfl))
      rw [hn]
      exact ((erasable_restyle h).trusted hg.toCoherent.forgetMatches).accounted
    · exact hg.editUnnoted h e

/-- The memo has no part in what is to be noted. -/
theorem unnotedAfter_plain (g : Engine) (o : Option Handle) (c : Command) :
    g.plain.unnotedAfter o c = g.unnotedAfter o c := by
  by_cases hc : ∃ h e, c = .editUnnoted h e
  · obtain ⟨h, e, rfl⟩ := hc
    rw [unnotedAfter_editUnnoted, unnotedAfter_editUnnoted, plain_editUnnoted]
  · have hc : ∀ h e, c ≠ .editUnnoted h e := fun h e he => hc ⟨h, e, he⟩
    rw [unnotedAfter_of_ne hc, unnotedAfter_of_ne hc]

/-- A run is proper without the memo if and only if it is proper with it. -/
theorem Accounted.proper_plain_iff {cs : List Command} (hg : g.Accounted o) :
    g.plain.Proper o cs ↔ g.Proper o cs := by
  induction cs generalizing g o with
  | nil => exact Iff.rfl
  | cons c cs ih =>
    constructor
    · rintro ⟨ha, hw, hp⟩
      have hafter := hg.after_plain ha (.inr hw)
      rw [hafter] at hw
      have hw : g.Unwrapped (g.after c) := .of_plain hw
      rw [hafter, unnotedAfter_plain] at hp
      exact ⟨ha, hw, (ih (hg.step ha hw)).1 hp⟩
    · rintro ⟨ha, hw, hp⟩
      have hafter := hg.after_plain ha (.inl hw)
      refine ⟨ha, ?_, ?_⟩
      · rw [hafter]
        exact ⟨hw.slots, hw.texts, hw.sheets⟩
      · rw [hafter, unnotedAfter_plain]
        exact (ih (hg.step ha hw)).2 hp

/-- The results of a run, one for each command. -/
def replies (g : Engine) : List Command → List (Except StyleError Reply)
  | [] => []
  | c :: cs => (g.perform c).1 :: (g.after c).replies cs

/-- **A proper run commutes with erasing the memo,** and gives the same results without it. -/
theorem Proper.run_plain {cs : List Command} (hp : g.Proper o cs) (hg : g.Accounted o) :
    g.plain.run cs = (g.run cs).plain ∧ g.plain.replies cs = g.replies cs := by
  induction cs generalizing g o with
  | nil => exact ⟨rfl, rfl⟩
  | cons c cs ih =>
    -- one step for both engines, and the rest of the run from there
    obtain ⟨hrun, hreplies⟩ := ih hp.2.2 (hg.step hp.1 hp.2.1)
    have hafter := hg.after_plain hp.1 (.inl hp.2.1)
    have hreply : (g.plain.perform c).1 = (g.perform c).1 := by
      rw [hg.perform_plain hp.1 (.inl hp.2.1), plainOutcome]
    constructor
    · show (g.plain.after c).run cs = _
      rw [hafter]
      exact hrun
    · show (g.plain.perform c).1 :: (g.plain.after c).replies cs = _
      rw [hafter, hreply, hreplies]
      rfl

/-- Two engines answer all questions alike, whatever the handle and the key; of the counts,
those of the memo apart. -/
structure SameAnswers (g g' : Engine) : Prop where
  value : ∀ h key, g'.value? h key = g.value? h key
  baseValue : ∀ h key, g'.baseValue? h key = g.baseValue? h key
  combined : ∀ h, g'.combined? h = g.combined? h
  /-- The style as it is kept, overlays and all. -/
  styling : ∀ h, g'.styles.get? h = g.styles.get? h
  trace : ∀ h key, g'.trace h key = g.trace h key
  snapshot : ∀ h, g'.snapshot? h = g.snapshot? h
  recomputeCount : ∀ h, g'.recomputeCount? h = g.recomputeCount? h
  freshness : ∀ h, g'.freshness? h = g.freshness? h
  diagnostics : g'.takeDiagnostics.1 = g.takeDiagnostics.1
  stats : { g'.stats with matchHits := 0, matchMisses := 0 } =
    { g.stats with matchHits := 0, matchMisses := 0 }

/-- The memo is not asked about. -/
theorem SameAnswers.of_plain (h : g'.plain = g.plain) : g.SameAnswers g' := by
  have hstyles : g'.plain.styles = g.plain.styles := by rw [h]
  have hstyles : g'.styles = g.styles := hstyles
  have hconfig : g'.plain.config.switchThreshold = g.plain.config.switchThreshold := by rw [h]
  have hconfig : g'.config.switchThreshold = g.config.switchThreshold := hconfig
  have hdiagnostics : g'.plain.diagnostics = g.plain.diagnostics := by rw [h]
  have hstats : { g'.plain.stats with matchHits := 0, matchMisses := 0 } =
    { g.plain.stats with matchHits := 0, matchMisses := 0 } := by rw [h]
  constructor
  · intro h key
    rw [value?, value?, hstyles, hconfig]
  · intro h key
    rw [baseValue?, baseValue?, hstyles]
  · intro h
    rw [combined?, combined?, hstyles, hconfig]
  · intro h
    rw [hstyles]
  · intro h key
    unfold Engine.trace
    rw [hstyles]
  · intro h
    rw [snapshot?, snapshot?, hstyles]
  · intro h
    rw [recomputeCount?, recomputeCount?, hstyles]
  · intro h
    rw [freshness?, freshness?, hstyles]
  · exact hdiagnostics
  · exact hstats

theorem eq_of_ofConfig {config : Config} (hg : ofConfig config = .ok g) :
    g = { config := config } := by
  unfold ofConfig Config.validate at hg
  split at hg
  · next hc =>
    split at hc
    · cases hc
    · split at hc
      · cases hc
        cases hg
        rfl
      · cases hc
  · cases hg

/-- **Whether matching is remembered cannot be told.**  Two engines whose settings differ in
nothing but the memo give the same results to the same commands, in every proper run, and after
each of them the same answers to all questions. -/
theorem sameAnswers_run {config : Config} {memoize : Bool} {cs : List Command}
    (hg : ofConfig config = .ok g) (hg' : ofConfig { config with memoize } = .ok g')
    (hp : g.Proper none cs) :
    g'.replies cs = g.replies cs ∧ ∀ ds, ds <+: cs → (g.run ds).SameAnswers (g'.run ds) := by
  obtain rfl := eq_of_ofConfig hg
  obtain rfl := eq_of_ofConfig hg'
  -- without the memo and its setting, both engines start the same
  have hplain : Proper { config := { config with memoize := false } } none cs :=
    (trusted_empty config).accounted.proper_plain_iff.2 hp
  have hp' : Proper { config := { config with memoize } } none cs :=
    (trusted_empty { config with memoize }).accounted.proper_plain_iff.1 hplain
  constructor
  · have hr := hp.run_plain (trusted_empty _).accounted
    have hr' := hp'.run_plain (trusted_empty _).accounted
    exact hr'.2.symm.trans hr.2
  · rintro ds ⟨es, rfl⟩
    have hr := hp.of_append.run_plain (trusted_empty _).accounted
    have hr' := hp'.of_append.run_plain (trusted_empty _).accounted
    exact .of_plain (hr'.1.symm.trans hr.1)

theorem sameAnswers_darkPanel :
    ofConfig {} = .ok { config := {} } ∧
      ofConfig { memoize := false } = .ok { config := { memoize := false } } ∧
      replies { config := { memoize := false } } darkPanel = replies { config := {} } darkPanel ∧
      ∀ ds, ds <+: darkPanel →
        (run { config := {} } ds).SameAnswers (run { config := { memoize := false } } ds) := by
  have hg : ofConfig {} = .ok { config := {} } := rfl
  have hg' : ofConfig { memoize := false } = .ok { config := { memoize := false } } := rfl
  exact ⟨hg, hg', sameAnswers_run hg hg' (proper_darkPanel _)⟩

end Engine
end Cascade
