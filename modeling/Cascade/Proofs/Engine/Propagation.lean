import Cascade.Proofs.Engine.Erasure
import Cascade.Proofs.Engine.Visits

/-!
# How far a change reaches

Every operation computes the styles of the elements it concerns, each of them once, and leaves
all other styles as they are.  Which elements it concerns can be told beforehand, from the
operation and from whether it succeeds.

A change of data behind the engine's back concerns nobody; it need not be noted here for the
other operations to keep to their scope.

## Main definitions

* `Engine.scope`, `Engine.affected` — the elements that an operation concerns.
* `Engine.Unmoved` — a change of the host that computes and marks no style.
* `Engine.Fitting` — a run in which all numbers fit.

## Main results

* `Element.changes_iff` — an edit changes the element if and only if it says so.
* `Engine.Quiet.propagates` — the step: one operation.
* `Engine.computes_affected` — **every operation computes the styles it concerns.**
-/

namespace Cascade

/-! ### Edits that change something -/

namespace NameSet

/-- A name that is there already is placed nowhere. -/
theorem place_eq_self {x : String} {ys : List String} (h : ys.Pairwise (· < ·)) (hx : x ∈ ys) :
    place x ys = ys := by
  induction ys with
  | nil => cases hx
  | cons y ys ih =>
    obtain ⟨hy, hys⟩ := List.pairwise_cons.1 h
    rw [place]
    rcases List.mem_cons.1 hx with rfl | hx
    · rw [if_neg (String.lt_irrefl x), if_pos rfl]
    · have hyx : y < x := hy x hx
      have hne : ¬ x = y := fun he => String.lt_irrefl x (he ▸ hyx)
      rw [if_neg (String.lt_asymm hyx), if_neg hne, ih hys hx]

theorem insert_eq_self_iff (s : NameSet) (x : String) :
    s.insert x = s ↔ s.contains x = true := by
  constructor
  · intro h
    rw [← h, contains_insert, decide_eq_true rfl, Bool.true_or]
  · intro h
    have hplace : place x s.names = s.names :=
      place_eq_self s.ascending (List.contains_iff_mem.1 h)
    obtain ⟨names, hs⟩ := s
    simp only [insert, hplace]

theorem erase_eq_self_iff (s : NameSet) (x : String) :
    s.erase x = s ↔ s.contains x = false := by
  constructor
  · intro h
    rw [← h, contains_erase, decide_eq_false (not_not_intro rfl), Bool.and_false]
  · intro h
    have hfilter : s.names.filter (fun y => decide (y ≠ x)) = s.names := by
      refine List.filter_eq_self.2 fun y hy => decide_eq_true ?_
      rintro rfl
      exact Bool.eq_false_iff.1 h (List.contains_iff_mem.2 hy)
    obtain ⟨names, hs⟩ := s
    simp only [erase, hfilter]

end NameSet

/-- **An edit changes the element if and only if it says so.** -/
theorem Element.changes_iff (e : Element) (c : Edit) : e.changes c = true ↔ e.edit c ≠ e := by
  obtain ⟨typeName, id, classes, pseudoClasses, parent, children⟩ := e
  cases c with
  | setId id' =>
    -- the operation compares the old id with the new, and the statement the new with the old
    have hid : ¬ id = id' ↔ ¬ id' = id := not_congr eq_comm
    simpa [changes, edit] using hid
  | addClass x => simp [changes, edit, NameSet.insert_eq_self_iff]
  | removeClass x => simp [changes, edit, NameSet.erase_eq_self_iff]
  | activate x => simp [changes, edit, NameSet.insert_eq_self_iff]
  | deactivate x => simp [changes, edit, NameSet.erase_eq_self_iff]

/-- How far the style of an element has been brought. -/
def Styling.progress (s : Styling) :
    Freshness × Nat × Ranking × Values × Values × List (String × Values) :=
  (s.freshness, s.recomputed, s.results)

namespace Engine

variable {g g' g'' : Engine} {h k : Handle} {hs : List Handle} {c : Command} {cs : List Command}

/-! ### Who is concerned -/

/-- Whether an overlay of a name is registered on an element. -/
def hasOverlay (g : Engine) (h : Handle) (name : String) : Bool :=
  ((g.styles.get? h).bind (·.overlay? name)).isSome

/-- The elements that an operation concerns, as long as it does not fail. -/
def scope (g : Engine) : Command → List Handle
  | .register .. => g.forest.handles
  | .insert e => [(g.insert e).1]
  | .destroy _ => []
  | .attach child _ => g.forest.subtree child
  | .detach child => g.forest.subtree child
  | .noteChange h => g.forest.subtree h
  | .edit h c =>
    if (g.forest.get? h).any (fun e => decide (e.edit c ≠ e)) then g.forest.subtree h else []
  | .editUnnoted .. => []
  | .assignSheet h _ => g.forest.subtree h
  | .setInline h _ => g.forest.subtree h
  | .addSheet _ => g.forest.handles
  | .removeSheet _ => g.forest.handles
  | .registerOverlay h name => if g.hasOverlay h name then [] else [h]
  | .setOverlay h name _ _ => if g.hasOverlay h name then [] else [h]
  | .takeDiagnostics => []

/-- The elements that an operation concerns: none, if it fails. -/
def affected (g : Engine) (c : Command) : List Handle :=
  match (g.perform c).1 with
  | .ok _ => g.scope c
  | .error _ => []

theorem affected_of_ok {r : Reply} (hp : g.perform c = (.ok r, g')) :
    g.affected c = g.scope c := by
  rw [affected, hp]

theorem affected_of_error {e : StyleError} (hp : g.perform c = (.error e, g')) :
    g.affected c = [] := by
  rw [affected, hp]

/-! ### Changes that leave styles alone -/

/-- A change that computes no style and marks none.  Elements may have gone. -/
structure Unmoved (g g' : Engine) : Prop where
  contains : ∀ k, g'.forest.contains k = true → g.forest.contains k = true
  progress : ∀ k, g'.forest.contains k = true →
    (g'.styles.get? k).map Styling.progress = (g.styles.get? k).map Styling.progress
  pending : g.pending = [] → g'.pending = []
  recomputed : g'.recomputed = g.recomputed

namespace Unmoved

theorem refl (g : Engine) : g.Unmoved g := ⟨fun _ => id, fun _ _ => rfl, id, rfl⟩

theorem trans (h₁ : g.Unmoved g') (h₂ : g'.Unmoved g'') : g.Unmoved g'' where
  contains := fun k hk => h₁.contains k (h₂.contains k hk)
  progress := fun k hk => (h₂.progress k hk).trans (h₁.progress k (h₂.contains k hk))
  pending := fun hp => h₂.pending (h₁.pending hp)
  recomputed := h₂.recomputed.trans h₁.recomputed

/-- What has been computed is where it was. -/
theorem map_eq {α : Type} (hu : g.Unmoved g') (f : _ → α)
    (hk : g'.forest.contains k = true) :
    (g'.styles.get? k).map (fun s => f s.progress) =
      (g.styles.get? k).map fun s => f s.progress := by
  have := congrArg (Option.map f) (hu.progress k hk)
  rwa [Option.map_map, Option.map_map] at this

theorem isDirty_eq (hu : g.Unmoved g') (hk : g'.forest.contains k = true) :
    g'.isDirty k = g.isDirty k := by
  have hfresh := hu.map_eq (fun p => p.1) hk
  have hdirty : ∀ g : Engine, g.isDirty k =
      (((g.styles.get? k).map fun s => s.progress.1).map (· == .dirty)).getD true := by
    intro g
    unfold isDirty
    cases g.styles.get? k <;> rfl
  rw [hdirty g', hdirty g, hfresh]

/-- Elements may move, change their data, and go. -/
theorem of_forest {u : Forest} (hc : ∀ k, u.contains k = true → g.forest.contains k = true) :
    g.Unmoved { g with forest := u } := ⟨hc, fun _ _ => rfl, id, rfl⟩

theorem of_styles (hf : g'.forest = g.forest) (hs : g'.styles = g.styles)
    (hp : g'.pending = g.pending) (hr : g'.recomputed = g.recomputed) : g.Unmoved g' where
  contains := fun k hk => hf ▸ hk
  progress := fun k _ => by rw [hs]
  pending := fun h => hp.trans h
  recomputed := hr

/-- Settings may change, those of overlays included. -/
theorem modify {f : Styling → Styling} (hf : ∀ s, (f s).progress = s.progress) :
    g.Unmoved { g with styles := g.styles.modify h f } where
  contains := fun _ => id
  progress := fun k _ => by
    show ((g.styles.modify h f).get? k).map _ = _
    rw [Table.get?_modify]
    split
    · next hk =>
      rw [hk, Option.map_map]
      exact congrArg (Option.map · _) (funext hf)
    · rfl
  pending := id
  recomputed := rfl

theorem assigned (g : Engine) (h : Handle) (sheet : Option Sheet) :
    g.Unmoved (g.assigned h sheet) := by
  have hfiled : g.Unmoved (g.filed sheet).2 := by
    cases sheet <;> exact .of_styles rfl rfl rfl rfl
  -- the sheet is filed, the element is given it, and the old one goes: no style moves in any step
  have hset : (g.filed sheet).2.Unmoved ((g.filed sheet).2.withLocalSheet h (g.filed sheet).1) :=
    .modify fun _ => rfl
  refine hfiled.trans (hset.trans ?_)
  unfold Engine.assigned withoutSheet
  split <;> exact .of_styles rfl rfl rfl rfl

theorem recomputed_dropAll (g : Engine) (hs : List Handle) :
    (hs.foldl drop g).recomputed = g.recomputed := by
  induction hs generalizing g with
  | nil => rfl
  | cons h hs ih => exact ih (g.drop h)

/-- Elements that go take their styles with them, and no other styles. -/
theorem destroyed (hg : g.Coherent) {removed : List Handle} {u : Forest}
    (hd : g.forest.destroy h = (.ok removed, u)) : g.Unmoved (g.destroyed removed u) := by
  have hforest : (g.destroyed removed u).forest = u := forest_dropAll _ _
  have hlive : ∀ k, u.contains k = true → g.forest.contains k = true ∧ k ∉ removed := by
    intro k hk
    rw [(Forest.destroy_eq_ok hg.linked hd).1]
    exact (Forest.contains_destroy hg.linked hd k).1 hk
  refine ⟨?_, ?_, ?_, ?_⟩
  · intro k hk
    rw [hforest] at hk
    exact (hlive k hk).1
  · intro k hk
    rw [hforest] at hk
    have hget : (g.destroyed removed u).styles.get? k =
        if k ∈ removed then none else g.styles.get? k := get?_dropAll _ _ _
    rw [hget, if_neg (hlive k hk).2]
  · intro hp
    show (List.foldl drop { g with forest := u } removed).pending.filter _ = []
    rw [pending_dropAll]
    exact congrArg (List.filter _) hp
  · exact recomputed_dropAll _ _

end Unmoved

theorem Quiet.unmoved (hg : g.Quiet) (hg' : g'.Coherent) (hu : g.Unmoved g') : g'.Quiet where
  toCoherent := hg'
  pending := hu.pending hg.pending
  clean := fun k hk => (hu.isDirty_eq hk).trans (hg.clean k (hu.contains k hk))

theorem Computes.refl (hg : g.Coherent) : g.Computes g [] := (Visited.refl g).computes hg nofun

/-- A change before styles are computed. -/
theorem Unmoved.computes (hu : g.Unmoved g') (hc : g'.Computes g'' hs)
    (hlive : ∀ k, g''.forest.contains k = true → g'.forest.contains k = true) :
    g.Computes g'' hs := by
  refine hc.of_before ?_ ?_ hu.recomputed
  · intro k hk
    exact congrArg (Option.getD · 0) (hu.map_eq (fun p => p.2.1) (hlive k hk))
  · intro k hk _
    exact hu.map_eq (fun p => p.2.2) (hlive k hk)

/-- A change after styles were computed. -/
theorem Computes.unmoved (hc : g.Computes g' hs) (hu : g'.Unmoved g'')
    (hlive : ∀ k ∈ hs, g''.forest.contains k = true) : g.Computes g'' hs where
  nodup := hc.nodup
  live := hlive
  count := by
    intro k hk
    rw [← hc.count k (hu.contains k hk)]
    exact hu.map_eq (fun p => p.2.1) hk
  kept := by
    intro k hk hnot
    rw [← hc.kept k (hu.contains k hk) hnot]
    exact hu.map_eq (fun p => p.2.2) hk
  total := by
    rw [← hc.total]
    exact hu.recomputed

/-! ### One operation -/

/-- An operation has computed the styles it concerns, and left nothing to do. -/
structure Propagates (g : Engine) (c : Command) : Prop where
  quiet : (g.after c).Quiet
  computes : g.Computes (g.after c) (g.affected c)

/-- After a change that computes nothing, the styles of those it concerns are computed. -/
theorem Unmoved.propagates (hu : g.Unmoved g') {r : Reply}
    (hp : g.perform c = (.ok r, g'')) (hc : g''.Quiet ∧ g'.Computes g'' (g.scope c))
    (hf : g''.forest = g'.forest) : g.Propagates c := by
  have hafter : g.after c = g'' := by rw [after, hp]
  obtain ⟨hquiet, hcomputes⟩ := hc
  refine ⟨hafter ▸ hquiet, ?_⟩
  rw [hafter, affected_of_ok hp]
  exact hu.computes hcomputes fun k hk => hf ▸ hk

namespace Quiet

/-- A failed operation does nothing. -/
theorem propagates_error (hg : g.Quiet) {e : StyleError} (hp : g.perform c = (.error e, g)) :
    g.Propagates c := by
  have hafter : g.after c = g := by rw [after, hp]
  refine ⟨by rw [hafter]; exact hg, ?_⟩
  rw [hafter, affected_of_error hp]
  exact .refl hg.toCoherent

/-- A change that concerns nobody. -/
theorem propagates_unmoved (hg : g.Quiet) {r : Reply} (hp : g.perform c = (.ok r, g'))
    (hg' : g'.Coherent) (hu : g.Unmoved g') (hs : g.scope c = []) : g.Propagates c := by
  have hcomputes : g'.Computes g' (g.scope c) := hs ▸ Computes.refl hg'
  exact hu.propagates hp ⟨hg.unmoved hg' hu, hcomputes⟩ rfl

/-- A change that concerns a subtree. -/
theorem propagates_restyle (hg : g.Quiet) {r : Reply} (hp : g.perform c = (.ok r, g'.restyle h))
    (hg' : g'.Coherent) (hu : g.Unmoved g') (hs : g.scope c = g'.forest.subtree h) :
    g.Propagates c :=
  hu.propagates hp (hs ▸ (hg.unmoved hg' hu).computes_restyle h) (forest_restyle g' h)

/-- A change that concerns everyone. -/
theorem propagates_restyleAll (hg : g.Quiet) {r : Reply} (hp : g.perform c = (.ok r, g'.restyleAll))
    (hg' : g'.Coherent) (hu : g.Unmoved g') (hs : g.scope c = g'.forest.handles) :
    g.Propagates c :=
  hu.propagates hp (hs ▸ (hg.unmoved hg' hu).computes_restyleAll) (forest_restyleAll g')

/-- One element has a dirty style; the others have kept theirs. -/
theorem computes_one (hg : g.Quiet) (hg' : g'.Coherent) (hh : g'.forest.contains h = true)
    (hlive : ∀ k, k ≠ h → g'.forest.contains k = true → g.forest.contains k = true)
    (hpending : h ∈ g'.pending) (hdirty : g'.isDirty h = true)
    (hother : ∀ k, k ≠ h → g'.styles.get? k = g.styles.get? k)
    (hcount : (g'.recomputeCount? h).getD 0 = (g.recomputeCount? h).getD 0)
    (htotal : g'.recomputed = g.recomputed) : g'.flush.Quiet ∧ g.Computes g'.flush [h] := by
  -- every other style is the one it was, and that was clean
  have hmem : ∀ k, k ∈ [h] ↔ g'.forest.contains k = true ∧ g'.isDirty k = true := by
    intro k
    rw [List.mem_singleton]
    constructor
    · rintro rfl
      exact ⟨hh, hdirty⟩
    · rintro ⟨hk, hd⟩
      by_contra hne
      rw [isDirty, hother k hne] at hd
      exact absurd (hg.clean k (hlive k hne hk)) (by rw [isDirty, hd]; exact Bool.noConfusion)
  have hcover : ∀ k ∈ [h], ∃ r ∈ g'.pending, k ∈ g'.forest.subtree r := by
    intro k hk
    obtain rfl := List.mem_singleton.1 hk
    exact ⟨k, hpending, (Forest.mem_subtree hg'.linked).2 ⟨hh, List.mem_cons_self⟩⟩
  obtain ⟨hquiet, hcomputes⟩ := hg'.computes_flush (List.nodup_singleton h) hmem hcover
  refine ⟨hquiet, hcomputes.of_before ?_ ?_ htotal⟩
  · intro k _
    by_cases hk : k = h
    · rw [hk, hcount]
    · rw [recomputeCount?, recomputeCount?, hother k hk]
  · intro k _ hnot
    rw [hother k fun hk => hnot (List.mem_singleton.2 hk)]

/-- A new element is concerned, and no other. -/
theorem computes_inserted (hg : g.Quiet) (e : Element) (hw : g.Unwrapped (g.inserted e)) :
    (g.inserted e).flush.Quiet ∧ g.Computes (g.inserted e).flush [(g.forest.insert e).1] := by
  have hsz : (g.forest.insert e).2.slots.size ≤ 2 ^ 32 := hw.slots
  have hlive : ∀ k, (g.inserted e).forest.contains k = true ↔
      k = (g.forest.insert e).1 ∨ g.forest.contains k = true :=
    Forest.contains_insert (hg.forest.slotted.ready hsz) e
  have hself : (g.inserted e).styles.get? (g.forest.insert e).1 = some {} := by
    rw [get?_inserted, if_pos rfl]
  refine hg.computes_one (hg.toCoherent.inserted e hw) ((hlive _).2 (.inl rfl)) ?_
    (List.mem_append_right _ (List.mem_singleton_self _)) ?_ ?_ ?_ rfl
  · intro k hne hk
    exact ((hlive k).1 hk).resolve_left hne
  · rw [isDirty, hself]
    rfl
  · intro k hne
    rw [get?_inserted, if_neg (Ne.symm hne)]
  · rw [recomputeCount?, recomputeCount?, hself, hg.get?_insert_fst e hsz]
    rfl

/-- A new overlay concerns its element, and no other. -/
theorem computes_overlaid (hg : g.Quiet) (hh : g.forest.contains h = true) {s : Styling}
    (hs : g.styles.get? h = some s) (name : String) :
    (g.overlaid h s name).flush.Quiet ∧ g.Computes (g.overlaid h s name).flush [h] := by
  have hself := (get?_overlaid g h s name h).trans (if_pos rfl)
  refine hg.computes_one (hg.toCoherent.overlaid hh hs name) hh (fun _ _ => id)
    (List.mem_append_right _ (List.mem_singleton_self h)) ?_ ?_ ?_ rfl
  · rw [isDirty, hself]
    rfl
  · intro k hne
    rw [get?_overlaid, if_neg (Ne.symm hne)]
  · rw [recomputeCount?, recomputeCount?, hself, hs]
    rfl

/-- Registering an overlay concerns the element, if it had none of that name. -/
theorem registerOverlay_cases (hg : g.Quiet) (hh : g.forest.contains h = true) (name : String) :
    ∃ g', g.registerOverlay h name = (.ok (), g') ∧ g'.Quiet ∧
      g.Computes g' (if g.hasOverlay h name then [] else [h]) := by
  unfold registerOverlay
  rw [require_of_contains hh]
  obtain ⟨s, hs⟩ := hg.exists_styling hh
  have hhas : g.hasOverlay h name = (s.overlay? name).isSome := by rw [hasOverlay, hs]; rfl
  rw [hs, hhas]
  by_cases ho : (s.overlay? name).isSome = true
  · simp only [if_pos ho]
    exact ⟨g, rfl, hg, .refl hg.toCoherent⟩
  · simp only [if_neg ho]
    obtain ⟨hquiet, hcomputes⟩ := hg.computes_overlaid hh hs name
    exact ⟨_, rfl, hquiet, hcomputes⟩

/-- Other settings of an overlay are no other values. -/
theorem progress_setFirst (s : Styling) (name : String) (enabled : Bool) (blend : Float32) :
    Styling.progress { s with overlays := setFirst name enabled blend s.overlays } =
      s.progress := by
  have hvalues := map_setFirst name enabled blend (f := fun o => (o.name, o.values))
    (fun _ => rfl) s.overlays
  simp only [Styling.progress, Styling.results, hvalues]

/-! ### The operations, one by one -/

theorem propagates_register (hg : g.Quiet) (key : String) (initial : Value) (inheritable : Bool) :
    g.Propagates (.register key initial inheritable) := by
  cases hr : g.registry.register? key initial inheritable with
  | none => exact hg.propagates_error (congrArg (replying _) (register_taken hr))
  | some r =>
    obtain ⟨id, registry⟩ := r
    have hp := congrArg (replying Reply.property) (register_of_some hr)
    have hg' : Coherent { g with registry } := hg.toCoherent.congr rfl rfl rfl rfl
    have hu : g.Unmoved { g with registry } := .of_styles rfl rfl rfl rfl
    cases he : g.forest.isEmpty with
    | true =>
      -- without elements nothing is computed, and there is nobody to be concerned
      rw [he] at hp
      refine hg.propagates_unmoved hp hg' hu (List.eq_nil_iff_forall_not_mem.2 ?_)
      intro k hk
      rw [scope, Forest.mem_handles hg.forest.slotted.size_le] at hk
      exact Forest.not_contains_of_isEmpty hg.forest.slotted he k hk
    | false =>
      rw [he] at hp
      exact hg.propagates_restyleAll hp hg' hu rfl

theorem propagates_destroy (hg : g.Quiet) (h : Handle) : g.Propagates (.destroy h) := by
  rcases hd : g.forest.destroy h with ⟨e | removed, u⟩
  · exact hg.propagates_error (congrArg (replying _) (destroy_eq_error hd))
  · exact hg.propagates_unmoved (congrArg (replying fun _ => .done) (destroy_eq_ok hd))
      (hg.toCoherent.destroyed hd) (.destroyed hg.toCoherent hd) rfl

/-- Elements have moved, and matching starts over. -/
theorem propagates_moved (hg : g.Quiet) {u : Forest} {r : Reply}
    (hp : g.perform c = (.ok r, ({ g with forest := u }.forgetMatches).restyle h))
    (hg' : Coherent { g with forest := u }) (hc : ∀ k, u.contains k = g.forest.contains k)
    (hs : g.scope c = u.subtree h) : g.Propagates c := by
  have hu : g.Unmoved { g with forest := u } := .of_forest fun k hk => (hc k).symm.trans hk
  exact hg.propagates_restyle hp (hg'.restyled (restyled_forgetMatches _))
    (hu.trans (.of_styles rfl rfl rfl rfl)) hs

theorem propagates_attach (hg : g.Quiet) (child parent : Handle) :
    g.Propagates (.attach child parent) := by
  rcases ha : g.forest.attach child parent with ⟨e | _, u⟩
  · exact hg.propagates_error (congrArg (replying _) (attach_eq_error ha))
  · -- what is below the child moves with it, so its subtree is the same before and after
    exact hg.propagates_moved (congrArg (replying fun _ => .done) (attach_eq_ok ha))
      (hg.toCoherent.attached ha) (Forest.contains_attach ha)
      (Forest.subtree_attach hg.linked ha).symm

theorem propagates_detach (hg : g.Quiet) (child : Handle) : g.Propagates (.detach child) := by
  rcases hd : g.forest.detach child with ⟨e | old, u⟩
  · exact hg.propagates_error (congrArg (replying _) (detach_eq_error hd))
  · exact hg.propagates_moved (congrArg (replying fun _ => .done) (detach_eq_ok hd))
      (hg.toCoherent.detached hd) (Forest.contains_detach hd)
      (Forest.subtree_detach hg.linked hd).symm

theorem propagates_noteChange (hg : g.Quiet) (h : Handle) : g.Propagates (.noteChange h) := by
  by_cases hh : g.forest.contains h = true
  · exact hg.propagates_restyle (congrArg (replying fun _ => .done) (noteChange_of_contains hh))
      (hg.toCoherent.restyled (restyled_forgetMatches g)) (.of_styles rfl rfl rfl rfl) rfl
  · exact hg.propagates_error (congrArg (replying _) (noteChange_stale hh))

theorem propagates_edit (hg : g.Quiet) (h : Handle) (c : Element.Edit) :
    g.Propagates (.edit h c) := by
  by_cases hh : g.forest.contains h = true
  · obtain ⟨e, he⟩ := Forest.contains_iff.1 hh
    have hp := congrArg (replying fun _ => .done) (edit_of_get? he c)
    -- the scope asks whether the element changes, and so does the operation
    by_cases hc : e.changes c = true
    · rw [if_pos hc] at hp
      refine hg.propagates_moved hp (hg.toCoherent.edited h c) (contains_edited g h · c) ?_
      rw [scope, he, Option.any_some, if_pos (decide_eq_true ((e.changes_iff c).1 hc))]
      exact (Forest.subtree_edit hg.linked c).symm
    · rw [if_neg hc] at hp
      refine hg.propagates_unmoved hp hg.toCoherent (.refl g) ?_
      rw [scope, he, Option.any_some, if_neg]
      rw [decide_eq_true_eq]
      exact fun hne => hc ((e.changes_iff c).2 hne)
  · exact hg.propagates_error (congrArg (replying _) (edit_stale hh c))

theorem propagates_editUnnoted (hg : g.Quiet) (h : Handle) (c : Element.Edit) :
    g.Propagates (.editUnnoted h c) := by
  have hp : g.perform (.editUnnoted h c) =
      (.ok (.changed (g.editUnnoted h c).1), (g.editUnnoted h c).2) := rfl
  rcases editUnnoted_cases g h c with ⟨he, -⟩ | ⟨-, he⟩
  · rw [he] at hp
    refine hg.propagates_unmoved hp (hg.toCoherent.edited h c) ?_ rfl
    exact .of_forest fun k hk => (contains_edited g h k c).symm.trans hk
  · rw [he] at hp
    exact hg.propagates_unmoved hp hg.toCoherent (.refl g) rfl

theorem propagates_assignSheet (hg : g.Quiet) (h : Handle) (sheet : Option Sheet)
    (hw : g.Unwrapped (g.after (.assignSheet h sheet))) : g.Propagates (.assignSheet h sheet) := by
  by_cases hh : g.forest.contains h = true
  · have hassign := assignSheet_of_contains hh sheet
    have hafter : g.after (.assignSheet h sheet) = (g.assigned h sheet).restyle h :=
      congrArg Prod.snd hassign
    rw [hafter] at hw
    refine hg.propagates_restyle (congrArg (replying Reply.localSheet) hassign)
      (hg.toCoherent.assigned h sheet hw.of_restyle) (.assigned g h sheet) ?_
    rw [forest_assigned]
    rfl
  · exact hg.propagates_error (congrArg (replying _) (assignSheet_stale hh sheet))

theorem propagates_setInline (hg : g.Quiet) (h : Handle) (inline : List Declaration) :
    g.Propagates (.setInline h inline) := by
  by_cases hh : g.forest.contains h = true
  · exact hg.propagates_restyle
      (congrArg (replying fun _ => .done) (setInline_of_contains hh inline))
      (hg.toCoherent.modify fun _ => rfl) (.modify fun _ => rfl) rfl
  · exact hg.propagates_error (congrArg (replying _) (setInline_stale hh inline))

theorem propagates_addSheet (hg : g.Quiet) (sheet : Sheet)
    (hw : g.Unwrapped (g.after (.addSheet sheet))) : g.Propagates (.addSheet sheet) := by
  have hp : g.perform (.addSheet sheet) =
      (.ok (.sheet (g.addSheet sheet).1), (g.withGlobal sheet).restyleAll) := rfl
  have hw' : g.Unwrapped (g.withGlobal sheet).restyleAll := hw
  exact hg.propagates_restyleAll hp (hg.toCoherent.withGlobal sheet hw'.of_restyleAll)
    (.of_styles rfl rfl rfl rfl) rfl

theorem propagates_removeSheet (hg : g.Quiet) (id : SheetId) : g.Propagates (.removeSheet id) := by
  by_cases hid : ∀ sheet, g.catalogue.get? id = some sheet → sheet.owner = .element
  · exact hg.propagates_error (congrArg (replying _) (removeSheet_unknown hid))
  · simp only [not_forall, exists_prop] at hid
    obtain ⟨sheet, hs, ho⟩ := hid
    -- no element has the sheet for its own, so the books about local sheets stay right
    have hremoved := hg.toCoherent.removeSheet (hg.localSheet?_ne hs ho)
    exact hg.propagates_restyleAll
      (congrArg (replying fun _ => .done) (removeSheet_of_get? hs ho))
      (hremoved.restyled (restyled_forgetMatches _)) (.of_styles rfl rfl rfl rfl) rfl

theorem propagates_registerOverlay (hg : g.Quiet) (h : Handle) (name : String) :
    g.Propagates (.registerOverlay h name) := by
  by_cases hh : g.forest.contains h = true
  · obtain ⟨g', he, hquiet, hcomputes⟩ := hg.registerOverlay_cases hh name
    have hp : g.perform (.registerOverlay h name) = (.ok .done, g') := congrArg (replying _) he
    refine ⟨by rwa [after, hp], ?_⟩
    rwa [after, affected_of_ok hp, hp]
  · exact hg.propagates_error (congrArg (replying _) (registerOverlay_stale hh name))

theorem propagates_setOverlay (hg : g.Quiet) (h : Handle) (name : String) (enabled : Bool)
    (blend : Float32) : g.Propagates (.setOverlay h name enabled blend) := by
  by_cases hh : g.forest.contains h = true
  · obtain ⟨g', he, hquiet, hcomputes⟩ := hg.registerOverlay_cases hh name
    have hp : g.perform (.setOverlay h name enabled blend) =
        (.ok .done, g'.withOverlay h name enabled blend) := by
      simp only [perform, replying, setOverlay, he]
      rfl
    -- whatever registering has computed, setting only changes what is blended in when asked for
    have hu : g'.Unmoved (g'.withOverlay h name enabled blend) :=
      .modify fun s => progress_setFirst s name enabled blend
    have hg' : (g'.withOverlay h name enabled blend).Coherent := hquiet.modify fun _ => rfl
    refine ⟨by rw [after, hp]; exact hquiet.unmoved hg' hu, ?_⟩
    rw [after, affected_of_ok hp, hp]
    exact hcomputes.unmoved hu hcomputes.live
  · exact hg.propagates_error (congrArg (replying _) (setOverlay_stale hh name enabled blend))

/-- **One operation** computes the styles it concerns, and leaves nothing to do. -/
theorem propagates (hg : g.Quiet) (c : Command) (hw : g.Unwrapped (g.after c)) :
    g.Propagates c := by
  cases c with
  | register key initial inheritable => exact hg.propagates_register key initial inheritable
  | insert e =>
    -- inserting cannot fail
    obtain ⟨hquiet, hcomputes⟩ := hg.computes_inserted e hw.of_flush
    exact ⟨hquiet, hcomputes⟩
  | destroy h => exact hg.propagates_destroy h
  | attach child parent => exact hg.propagates_attach child parent
  | detach child => exact hg.propagates_detach child
  | noteChange h => exact hg.propagates_noteChange h
  | edit h c => exact hg.propagates_edit h c
  | editUnnoted h c => exact hg.propagates_editUnnoted h c
  | assignSheet h sheet => exact hg.propagates_assignSheet h sheet hw
  | setInline h inline => exact hg.propagates_setInline h inline
  | addSheet sheet => exact hg.propagates_addSheet sheet hw
  | removeSheet id => exact hg.propagates_removeSheet id
  | registerOverlay h name => exact hg.propagates_registerOverlay h name
  | setOverlay h name enabled blend => exact hg.propagates_setOverlay h name enabled blend
  | takeDiagnostics =>
    have hp : g.perform .takeDiagnostics = (.ok (.diagnostics g.diagnostics), _) := rfl
    exact hg.propagates_unmoved hp (hg.toCoherent.congr rfl rfl rfl rfl)
      (.of_styles rfl rfl rfl rfl) rfl

end Quiet

/-! ### Runs -/

/-- All numbers that are handed out on the way fit. -/
def Fitting (g : Engine) : List Command → Prop
  | [] => True
  | c :: cs => g.Unwrapped (g.after c) ∧ (g.after c).Fitting cs

theorem Proper.fitting {o : Option Handle} (hp : g.Proper o cs) : g.Fitting cs := by
  induction cs generalizing g o with
  | nil => trivial
  | cons c cs ih => exact ⟨hp.2.1, ih hp.2.2⟩

theorem fitting_append {ds : List Command} :
    g.Fitting (cs ++ ds) ↔ g.Fitting cs ∧ (g.run cs).Fitting ds := by
  induction cs generalizing g with
  | nil => exact (and_iff_right trivial).symm
  | cons c cs ih => exact (and_congr_right fun _ => ih).trans and_assoc.symm

/-- After a run in which all numbers fit, nothing is left to do. -/
theorem Fitting.quiet (hf : g.Fitting cs) (hg : g.Quiet) : (g.run cs).Quiet := by
  induction cs generalizing g with
  | nil => exact hg
  | cons c cs ih => exact ih hf.2 (hg.propagates c hf.1).quiet

theorem quiet_empty (config : Config) : Quiet { config } where
  toCoherent := coherent_empty config
  pending := rfl
  clean := fun k hk => by cases hk

/-- **Every operation computes the styles it concerns,** after any run: the style of every
element it concerns is computed once, and nothing that has been computed for other elements
changes. -/
theorem computes_affected {config : Config} (hg : ofConfig config = .ok g) (hf : g.Fitting cs)
    (hw : (g.run cs).Unwrapped ((g.run cs).after c)) :
    (g.run cs).Computes ((g.run cs).after c) ((g.run cs).affected c) := by
  obtain rfl := eq_of_ofConfig hg
  exact ((hf.quiet (quiet_empty _)).propagates c hw).computes

/-- The change of the panel concerns the panel and its button. -/
theorem computes_affected_darkPanel :
    let g : Engine := run { config := {} } (darkPanel.take 9)
    let c : Command := .edit ⟨0, 0⟩ (.removeClass "dark")
    ofConfig {} = .ok { config := {} } ∧ Fitting { config := {} } (darkPanel.take 9) ∧
      g.Unwrapped (g.after c) ∧ g.affected c = [⟨0, 0⟩, ⟨1, 0⟩] ∧
      g.Computes (g.after c) [⟨0, 0⟩, ⟨1, 0⟩] := by
  intro g c
  have hg : ofConfig {} = .ok { config := {} } := rfl
  have hrun : Fitting { config := {} } (darkPanel.take 9 ++ darkPanel.drop 9) :=
    (proper_darkPanel {}).fitting
  obtain ⟨hf, hw, -⟩ := fitting_append.1 hrun
  have ha : g.affected c = [⟨0, 0⟩, ⟨1, 0⟩] := by decide +kernel
  exact ⟨hg, hf, hw, ha, ha ▸ computes_affected hg hf hw⟩

end Engine
end Cascade
