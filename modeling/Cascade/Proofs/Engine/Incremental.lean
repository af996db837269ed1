import Cascade.Proofs.Engine.Flush
import Cascade.Proofs.Engine.Memo

/-!
# Every operation computes enough

Every operation computes the styles in one subtree, or all styles, or one style, or none.  That
is enough: the styles that it leaves alone are those of elements that see nothing of the change.

## Main results

* `Engine.Booked.not_reaches` — a local sheet concerns the elements below its own alone.
* `Engine.SameView.destroyed`, `Engine.SameView.assigned`, … — who sees nothing of a change.
* `Engine.UpToDate.effect` — **every operation leaves all styles up to date.**
-/

namespace Cascade
namespace Engine

variable {g g' : Engine} {h k : Handle} {id : SheetId} {c : Command}

/-! ### What a change leaves alone -/

/-- The local sheet of an element that is not on the path does not reach. -/
theorem Booked.not_reaches (hg : g.Booked) (hh : g.localSheet? h = some id)
    (hne : h ∉ k :: g.forest.ancestors k) : ¬ g.Reaches k id := by
  rintro (hid | ⟨a, ha, hid⟩)
  · obtain ⟨sheet, hs, ho⟩ := hg.localSheet hh
    exact hg.filed.notMem_globalOrder hs ho hid
  · exact hne (hg.distinct hh hid ▸ ha)

/-- Every sheet that reaches an element is there. -/
theorem Booked.exists_sheet (hg : g.Booked) (hr : g.Reaches k id) :
    ∃ sheet, g.catalogue.get? id = some sheet := by
  rcases hr with hid | ⟨a, -, hid⟩
  · exact (hg.filed.mem_globalOrder.1 hid).imp fun _ h => h.1
  · exact (hg.localSheet hid).imp fun _ h => h.1

namespace SameView

/-- A sheet that does not reach an element may go. -/
theorem withoutSheet (hl : g.forest.Linked) (hk : g.forest.contains k = true)
    {old : Option SheetId}
    (hold : ∀ id, old = some id → ¬ g.Reaches k id) :
    g.SameView (g.withoutSheet old) k := by
  cases old with
  | none => exact (Restyled.refl g).sameView hl hk
  | some id =>
    have hid := hold id rfl
    exact
      { maxDepth := rfl
        registry := rfl
        path := .refl hl hk
        inline := fun _ _ => rfl
        localSheet := fun _ _ => rfl
        order := Catalogue.globalOrder_remove fun hm => hid (.inl hm)
        sheet := fun i hi => by
          refine (Catalogue.get?_remove _ _ _).trans (if_neg ?_)
          rintro rfl
          exact hid hi }

/-- An element that is not on the path may go. -/
theorem drop (hg : g.Booked) (hl : g.forest.Linked) (hk : g.forest.contains k = true)
    (hne : h ∉ k :: g.forest.ancestors k) : g.SameView (g.drop h) k := by
  -- first its local sheet goes, then its style
  have hsheet : g.SameView (g.withoutSheet (g.localSheet? h)) k := by
    refine withoutSheet hl hk ?_
    intro id hid
    exact hg.not_reaches hid hne
  have hforest : (g.withoutSheet (g.localSheet? h)).forest = g.forest := by
    cases g.localSheet? h <;> rfl
  have hstyles : (g.withoutSheet (g.localSheet? h)).styles = g.styles := by
    cases g.localSheet? h <;> rfl
  have hcatalogue : (g.drop h).catalogue = (g.withoutSheet (g.localSheet? h)).catalogue := by
    rw [catalogue_drop]
    cases g.localSheet? h <;> rfl
  refine hsheet.trans (of_styles hsheet.maxDepth.symm hsheet.registry.symm hcatalogue ?_ ?_)
  · rw [hforest]
    exact .refl hl hk
  · intro a ha
    rw [hforest] at ha
    rw [hstyles, get?_drop, if_neg (ne_of_mem_of_not_mem ha hne).symm]

theorem dropAll (hg : g.Booked) (hl : g.forest.Linked) (hk : g.forest.contains k = true)
    {hs : List Handle} (hne : ∀ h ∈ hs, h ∉ k :: g.forest.ancestors k) :
    g.SameView (hs.foldl Engine.drop g) k := by
  induction hs generalizing g with
  | nil => exact (Restyled.refl g).sameView hl hk
  | cons h hs ih =>
    have hfirst : g.SameView (g.drop h) k := drop hg hl hk (hne h List.mem_cons_self)
    have hrest : (g.drop h).SameView (hs.foldl Engine.drop (g.drop h)) k := by
      refine ih (hg.drop h) hl hk ?_
      intro x hx
      exact hne x (List.mem_cons_of_mem h hx)
    exact hfirst.trans hrest

/-- The survivors of a destruction see nothing of it. -/
theorem destroyed (hg : g.Coherent) {removed : List Handle} {u : Forest}
    (hd : g.forest.destroy h = (.ok removed, u)) (hk : u.contains k = true) :
    g.SameView (g.destroyed removed u) k := by
  obtain ⟨hk', hm⟩ := (Forest.contains_destroy hg.linked hd k).1 hk
  have hpath := Forest.samePath_destroy hg.linked hd hk' hm
  have hlinked := Forest.linked_destroy hg.linked hd
  have hmoved : g.SameView { g with forest := u } k := of_styles rfl rfl rfl hpath fun _ _ => rfl
  have hdropped :
      SameView { g with forest := u } (removed.foldl Engine.drop { g with forest := u }) k := by
    have hbooked : Booked { g with forest := u } := hg.toBooked.congr rfl rfl fun _ => rfl
    refine dropAll hbooked hlinked hk ?_
    -- the path of a survivor stays outside of the subtree
    intro x hx hxk
    rw [(Forest.destroy_eq_ok hg.linked hd).1] at hx
    have hxk : x ∈ k :: u.ancestors k := hxk
    rw [hpath.ancestors_eq] at hxk
    exact Forest.notMem_subtree_of_mem_path hg.linked hk' hm hxk hx
  have hforest : (removed.foldl Engine.drop { g with forest := u }).forest = u := forest_dropAll _ _
  refine hmoved.trans (hdropped.trans (of_styles rfl rfl rfl ?_ fun _ _ => rfl))
  show (removed.foldl Engine.drop { g with forest := u }).forest.SamePath
    (removed.foldl Engine.drop { g with forest := u }).forest k
  rw [hforest]
  exact .refl hlinked hk

/-- A sheet that is new does not reach any element yet. -/
theorem filed (hg : g.Coherent) (hk : g.forest.contains k = true) (sheet : Option Sheet) :
    g.SameView (g.filed sheet).2 k := by
  cases sheet with
  | none => exact (Restyled.refl g).sameView hg.linked hk
  | some sheet =>
    exact
      { maxDepth := rfl
        registry := rfl
        path := .refl hg.linked hk
        inline := fun _ _ => rfl
        localSheet := fun _ _ => rfl
        order := rfl
        sheet := fun id hid => by
          obtain ⟨sheet', hs⟩ := hg.exists_sheet hid
          exact (Catalogue.get?_compile _ _ _ _ _).trans (if_neg (hg.filed.ne_next hs)) }

/-- Settings of an element that is not on the path do not matter. -/
theorem modify (hl : g.forest.Linked) (hk : g.forest.contains k = true)
    (hne : h ∉ k :: g.forest.ancestors k) (f : Styling → Styling) :
    g.SameView { g with styles := g.styles.modify h f } k := by
  refine of_styles rfl rfl rfl (.refl hl hk) ?_
  intro a ha
  show (g.styles.modify h f).get? a = _
  rw [Table.get?_modify, if_neg (ne_of_mem_of_not_mem ha hne).symm]

/-- Outside the subtree of an element nothing is seen of its local sheet. -/
theorem assigned (hg : g.Coherent) (hk : g.forest.contains k = true) (sheet : Option Sheet)
    (hne : h ∉ k :: g.forest.ancestors k) : g.SameView (g.assigned h sheet) k := by
  have hforest : (g.filed sheet).2.forest = g.forest := by cases sheet <;> rfl
  have hlinked : (g.filed sheet).2.forest.Linked := by
    rw [hforest]
    exact hg.linked
  have hfiled := filed hg hk sheet
  have hset : g.SameView ((g.filed sheet).2.withLocalSheet h (g.filed sheet).1) k :=
    hfiled.trans (modify hlinked hfiled.path.contains.2 (by rwa [hforest]) _)
  -- the sheet that goes has been local to the element, so it does not reach here
  have hlinked : ((g.filed sheet).2.withLocalSheet h (g.filed sheet).1).forest.Linked := hlinked
  refine hset.trans (withoutSheet hlinked hset.path.contains.2 ?_)
  intro id hid hr
  exact hg.not_reaches hid hne (hset.reaches_iff.1 hr)

end SameView

/-- A style that is kept stays fresh if nothing on the path of its element has changed. -/
theorem Fresh.of_path (hf : g.Fresh k) (hl : g.forest.Linked)
    (hd : g'.config.maxAncestorDepth = g.config.maxAncestorDepth)
    (hr : g'.registry = g.registry) (hcat : g'.catalogue = g.catalogue)
    (hp : g.forest.SamePath g'.forest k)
    (hs : ∀ a ∈ k :: g.forest.ancestors k, g'.styles.get? a = g.styles.get? a) : g'.Fresh k :=
  hf.of_sameView hl (.of_styles hd hr hcat hp hs) (hs k List.mem_cons_self)

/-! ### Operations -/

namespace UpToDate

theorem notMem_path (hg : g.Coherent) (hk : g.forest.contains k = true)
    (hm : k ∉ g.forest.subtree h) : h ∉ k :: g.forest.ancestors k := fun hup =>
  hm ((Forest.mem_subtree hg.linked).2 ⟨hk, hup⟩)

/-- New and destroyed elements, or other elements that see nothing of a change. -/
theorem of_sameView (hg : g.UpToDate) (hg' : g'.Coherent) (hm : g'.config.memoize = false)
    (hp : g'.pending = [])
    (hv : ∀ k, g'.forest.contains k = true →
      g.SameView g' k ∧ g'.styles.get? k = g.styles.get? k) : g'.UpToDate := by
  refine ⟨hg', hm, hp, ?_⟩
  intro k hk
  obtain ⟨hview, hsame⟩ := hv k hk
  exact (hg.fresh k hview.path.contains.1).of_sameView hg.linked hview hsame

/-- A change that is seen in one subtree only, which is then computed. -/
theorem restyle_of_sameView (hg : g.UpToDate) (hg' : g'.Coherent)
    (hm : g'.config.memoize = false) (hp : g'.pending = [])
    (hv : ∀ k, g'.forest.contains k = true → k ∉ g'.forest.subtree h →
      g.SameView g' k ∧ g'.styles.get? k = g.styles.get? k) : (g'.restyle h).UpToDate := by
  refine upToDate_restyle hg' hm hp ?_
  intro k hk hout
  obtain ⟨hview, hsame⟩ := hv k hk hout
  exact (hg.fresh k hview.path.contains.1).of_sameView hg.linked hview hsame

theorem inserted (hg : g.UpToDate) (e : Element)
    (hw : g.Unwrapped (g.inserted e)) : (g.inserted e).flush.UpToDate := by
  have hsz : (g.forest.insert e).2.slots.size ≤ 2 ^ 32 := hw.slots
  have hg' := hg.toCoherent.inserted e hw
  have hpend : (g.inserted e).pending = [(g.forest.insert e).1] := by
    show g.pending ++ _ = _
    rw [hg.pending]
    rfl
  have hlive : ∀ k, (g.inserted e).forest.contains k = true ↔
      k = (g.forest.insert e).1 ∨ g.forest.contains k = true :=
    Forest.contains_insert (hg.forest.slotted.ready hsz) e
  have hnew : ∀ a, g.forest.contains a = true → (g.forest.insert e).1 ≠ a := by
    rintro _ ha rfl
    exact Forest.contains_insert_fst (hg.forest.slotted.ready hsz) e ha
  -- the elements that were there before see nothing of the new one
  have hold : ∀ k, g.forest.contains k = true → (g.inserted e).Fresh k := by
    intro k hk
    have hpath := Forest.samePath_insert hg.forest e hsz hk
    refine (hg.fresh k hk).of_path hg.linked rfl rfl rfl hpath ?_
    intro a ha
    rw [get?_inserted, if_neg (hnew a (hg.linked.contains_of_mem_path hk ha))]
  have hhonest : (g.inserted e).Honest := by
    refine ⟨hg', hg.memoless, ?_⟩
    intro k hk hd
    rcases (hlive k).1 hk with rfl | hk
    · unfold isDirty at hd
      rw [get?_inserted, if_pos rfl] at hd
      cases hd
    · exact hold k hk
  refine hhonest.flush ?_ ?_
  · -- the new element is a root
    intro r hr p hrp
    rw [hpend] at hr
    rw [List.mem_singleton.1 hr] at hrp
    have hroot := Forest.parent?_insert (hg.forest.slotted.ready hsz) e (g.forest.insert e).1
    rw [if_pos rfl] at hroot
    cases hroot.symm.trans hrp
  · intro k hk
    rcases (hlive k).1 hk with rfl | hk'
    · refine .inr ⟨(g.forest.insert e).1, ?_, ?_⟩
      · rw [hpend]
        exact List.mem_singleton_self _
      · exact (Forest.mem_subtree hg'.linked).2 ⟨hk, List.mem_cons_self⟩
    · exact .inl (hold k hk')

/-- The overlays of an element are seen by no element, not even by itself. -/
theorem sameView_of_overlays (hl : g.forest.Linked) (hk : g.forest.contains k = true)
    {styles : Table Handle Styling} {pending : List Handle}
    (hs : ∀ a, (styles.get? a).map (fun s => (s.inline, s.localSheet)) =
      (g.styles.get? a).map fun s => (s.inline, s.localSheet)) :
    g.SameView { g with styles, pending } k where
  maxDepth := rfl
  registry := rfl
  path := .refl hl hk
  inline := fun a _ => by
    have ha := congrArg (Option.map Prod.fst) (hs a)
    rw [Option.map_map, Option.map_map] at ha
    exact congrArg (Option.getD · []) ha
  localSheet := fun a _ => by
    have ha := congrArg (Option.bind · Prod.snd) (hs a)
    rwa [Option.bind_map, Option.bind_map] at ha
  order := rfl
  sheet := fun _ _ => rfl

theorem overlaid (hg : g.UpToDate) (hh : g.forest.contains h = true) {s : Styling}
    (hs : g.styles.get? h = some s) (name : String) : (g.overlaid h s name).flush.UpToDate := by
  have hpend : (g.overlaid h s name).pending = [h] := by
    show g.pending ++ _ = _
    rw [hg.pending]
    rfl
  have hview : ∀ k, g.forest.contains k = true → g.SameView (g.overlaid h s name) k := by
    intro k hk
    refine sameView_of_overlays hg.linked hk ?_
    intro a
    rw [Table.get?_insert]
    split
    · next ha =>
      rw [← ha, hs]
      rfl
    · rfl
  have hother : ∀ k, g.forest.contains k = true → h ≠ k → (g.overlaid h s name).Fresh k := by
    intro k hk hne
    have hsame : (g.overlaid h s name).styles.get? k = g.styles.get? k := by
      rw [get?_overlaid, if_neg hne]
    exact (hg.fresh k hk).of_sameView hg.linked (hview k hk) hsame
  have hself : h ∈ g.forest.subtree h :=
    (Forest.mem_subtree hg.linked).2 ⟨hh, List.mem_cons_self⟩
  have hhonest : (g.overlaid h s name).Honest := by
    refine ⟨hg.toCoherent.overlaid hh hs name, hg.memoless, ?_⟩
    intro k hk hd
    refine hother k hk ?_
    rintro rfl
    unfold isDirty at hd
    rw [get?_overlaid, if_pos rfl] at hd
    cases hd
  refine hhonest.flush ?_ ?_
  · intro r hr p hrp
    rw [hpend] at hr
    obtain rfl := List.mem_singleton.1 hr
    refine hother p (hg.linked.contains_parent hrp) ?_
    rintro rfl
    exact Forest.notMem_subtree_of_parent? hg.linked hrp hself
  · intro k hk
    rw [hpend]
    by_cases hne : h = k
    · subst hne
      exact .inr ⟨h, List.mem_singleton_self h, hself⟩
    · exact .inl (hother k hk hne)

/-- Setting an overlay changes its settings and nothing else. -/
theorem mem_setFirst {name : String} {enabled : Bool} {blend : Float32} {os : List Overlay}
    {x : Overlay} (hx : x ∈ setFirst name enabled blend os) :
    x ∈ os ∨ ∃ y ∈ os, x = y.set enabled blend := by
  induction os with
  | nil => cases hx
  | cons y os ih =>
    unfold setFirst at hx
    split at hx
    · rcases List.mem_cons.1 hx with rfl | hx
      · exact .inr ⟨y, List.mem_cons_self, rfl⟩
      · exact .inl (List.mem_cons_of_mem y hx)
    · rcases List.mem_cons.1 hx with rfl | hx
      · exact .inl List.mem_cons_self
      · refine (ih hx).imp (List.mem_cons_of_mem y) ?_
        rintro ⟨z, hz, rfl⟩
        exact ⟨z, List.mem_cons_of_mem y hz, rfl⟩

theorem withOverlay (hg : g.UpToDate) (h : Handle) (name : String) (enabled : Bool)
    (blend : Float32) : (g.withOverlay h name enabled blend).UpToDate := by
  have hget : ∀ k, (g.withOverlay h name enabled blend).styles.get? k = if h = k then
      (g.styles.get? h).map fun s => { s with overlays := setFirst name enabled blend s.overlays }
      else g.styles.get? k := by
    intro k
    exact Table.get?_modify _ _ _ _
  have hview : ∀ k, g.forest.contains k = true →
      g.SameView (g.withOverlay h name enabled blend) k := by
    intro k hk
    refine sameView_of_overlays hg.linked hk ?_
    intro a
    rw [Table.get?_modify]
    split
    · next ha =>
      rw [Option.map_map, ha]
      rfl
    · rfl
  refine ⟨hg.toCoherent.modify fun _ => rfl, hg.memoless, hg.pending, ?_⟩
  intro k hk
  by_cases hne : h = k
  · subst hne
    obtain ⟨s, hs, hclean, hsettled⟩ := hg.fresh h hk
    -- the values of an overlay depend on its name, not on its settings
    have hoverlays : ∀ x ∈ setFirst name enabled blend s.overlays,
        (x.recompute (g.scene h (g.inline h)) (g.scratchSnapshot h)).1 = x := by
      intro x hx
      rcases mem_setFirst hx with hx | ⟨y, hy, rfl⟩
      · exact hsettled.overlays x hx
      · exact congrArg (Overlay.set · enabled blend) (hsettled.overlays y hy)
    have hset : g.Settled h { s with overlays := setFirst name enabled blend s.overlays } :=
      ⟨hsettled.ranking, hsettled.snapshot, hsettled.base, hoverlays⟩
    have hsame : (g.withOverlay h name enabled blend).styles.get? h =
        some { s with overlays := setFirst name enabled blend s.overlays } := by
      rw [hget, if_pos rfl, hs]
      rfl
    exact ⟨_, hsame, hclean, (hview h hk).settled hg.linked hset⟩
  · have hsame : (g.withOverlay h name enabled blend).styles.get? k = g.styles.get? k := by
      rw [hget, if_neg hne]
    exact (hg.fresh k hk).of_sameView hg.linked (hview k hk) hsame

theorem registerOverlay (hg : g.UpToDate) {name : String}
    (he : Effect g (.registerOverlay h name) g') : g'.UpToDate := by
  cases he with
  | idle => exact hg
  | registerOverlay hh hs ho => exact hg.overlaid hh hs name

theorem destroyed (hg : g.UpToDate) {removed : List Handle} {u : Forest}
    (hd : g.forest.destroy h = (.ok removed, u)) : (g.destroyed removed u).UpToDate := by
  have hforest : (g.destroyed removed u).forest = u := forest_dropAll _ _
  have hmemoless : (g.destroyed removed u).config.memoize = false := by
    have hconfig := (config_dropAll { g with forest := u } removed).1
    exact (congrArg Config.memoize hconfig).trans hg.memoless
  have hpend : (g.destroyed removed u).pending = [] := by
    show ((removed.foldl drop { g with forest := u }).pending).filter u.contains = []
    rw [pending_dropAll]
    show g.pending.filter u.contains = []
    rw [hg.pending]
    rfl
  refine hg.of_sameView (hg.toCoherent.destroyed hd) hmemoless hpend ?_
  intro k hk
  rw [hforest] at hk
  have hm := ((Forest.contains_destroy hg.linked hd k).1 hk).2
  rw [← (Forest.destroy_eq_ok hg.linked hd).1] at hm
  exact ⟨.destroyed hg.toCoherent hd hk, (get?_dropAll _ removed k).trans (if_neg hm)⟩

theorem assigned (hg : g.UpToDate) (h : Handle) (sheet : Option Sheet)
    (hw : g.Unwrapped (g.assigned h sheet)) : ((g.assigned h sheet).restyle h).UpToDate := by
  have hforest := forest_assigned g h sheet
  have hchange : (g.assigned h sheet).config = g.config ∧
      (g.assigned h sheet).pending = g.pending ∧
      (g.assigned h sheet).styles = g.styles.modify h fun s =>
        { s with localSheet := (g.filed sheet).1 } := by
    unfold Engine.assigned withoutSheet
    cases sheet <;> split <;> exact ⟨rfl, rfl, rfl⟩
  obtain ⟨hconfig, hpending, hstyles⟩ := hchange
  refine hg.restyle_of_sameView (hg.toCoherent.assigned h sheet hw) (hconfig ▸ hg.memoless)
    (hpending.trans hg.pending) ?_
  intro k hk hout
  rw [hforest] at hk hout
  have hne := notMem_path hg.toCoherent hk hout
  refine ⟨.assigned hg.toCoherent hk sheet hne, ?_⟩
  rw [hstyles, Table.get?_modify, if_neg (ne_of_mem_of_not_mem List.mem_cons_self hne).symm]

/-- Without elements there is nothing that could be out of date. -/
theorem of_isEmpty (hg : g.Coherent) (hm : g.config.memoize = false) (hp : g.pending = [])
    (he : g.forest.isEmpty = true) : g.UpToDate where
  toCoherent := hg
  memoless := hm
  pending := hp
  fresh := fun k hk => absurd hk (Forest.not_contains_of_isEmpty hg.forest.slotted he k)

/-- **Every operation leaves all styles up to date,** but for a change behind the engine's
back. -/
theorem effect (hg : g.UpToDate) (he : Effect g c g') (hw : g.Unwrapped g')
    (hc : ∀ h e, c ≠ .editUnnoted h e) : g'.UpToDate := by
  cases he with
  | idle => exact hg
  | registerEarly _ he =>
    exact of_isEmpty (hg.toCoherent.congr rfl rfl rfl rfl) hg.memoless hg.pending he
  | register =>
    exact upToDate_restyleAll (hg.toCoherent.congr rfl rfl rfl rfl) hg.memoless hg.pending
  | insert e => exact hg.inserted e hw.of_flush
  | destroy hd => exact hg.destroyed hd
  | attach ha =>
    refine hg.restyle_of_sameView (hg.toCoherent.attached ha).forgetMatches.toCoherent hg.memoless
      hg.pending ?_
    intro k hk hout
    have hk' : g.forest.contains k = true := (Forest.contains_attach ha k).symm.trans hk
    have hpath := Forest.samePath_attach hg.linked ha hk' hout
    exact ⟨.of_styles rfl rfl rfl hpath fun _ _ => rfl, rfl⟩
  | detach hd =>
    refine hg.restyle_of_sameView (hg.toCoherent.detached hd).forgetMatches.toCoherent hg.memoless
      hg.pending ?_
    intro k hk hout
    have hk' : g.forest.contains k = true := (Forest.contains_detach hd k).symm.trans hk
    have hpath := Forest.samePath_detach hg.linked hd hk' hout
    exact ⟨.of_styles rfl rfl rfl hpath fun _ _ => rfl, rfl⟩
  | noteChange =>
    refine hg.restyle_of_sameView hg.toCoherent.forgetMatches.toCoherent hg.memoless hg.pending ?_
    intro k hk _
    exact ⟨(restyled_forgetMatches g).sameView hg.linked hk, rfl⟩
  | @edit h e hh =>
    refine hg.restyle_of_sameView (hg.toCoherent.edited _ e).forgetMatches.toCoherent hg.memoless
      hg.pending ?_
    intro k hk hout
    have hk' : g.forest.contains k = true := (contains_edited g h k e).symm.trans hk
    have hout : k ∉ (g.forest.update h (·.edit e)).subtree h := hout
    rw [Forest.subtree_edit hg.linked] at hout
    have hpath := Forest.samePath_edit hg.linked e hk' hout
    exact ⟨.of_styles rfl rfl rfl hpath fun _ _ => rfl, rfl⟩
  | editUnnoted e => exact absurd rfl (hc _ e)
  | assignSheet sheet hh => exact hg.assigned _ sheet hw.of_restyle
  | @setInline h inline hh =>
    refine hg.restyle_of_sameView (hg.toCoherent.modify fun _ => rfl) hg.memoless hg.pending ?_
    intro k hk hout
    have hne := notMem_path hg.toCoherent hk hout
    refine ⟨.modify hg.linked hk hne _, ?_⟩
    show (g.styles.modify h _).get? k = _
    rw [Table.get?_modify, if_neg (ne_of_mem_of_not_mem List.mem_cons_self hne).symm]
  | addSheet sheet =>
    have hg' := hg.toCoherent.withGlobal sheet hw.of_restyleAll
    exact upToDate_restyleAll hg' hg.memoless hg.pending
  | removeSheet hs ho =>
    exact upToDate_restyleAll (hg.toCoherent.withoutGlobal hs ho).toCoherent hg.memoless hg.pending
  | registerOverlay hh hs ho => exact hg.overlaid hh hs _
  | setOverlay enabled blend hh he => exact (hg.registerOverlay he).withOverlay _ _ enabled blend
  | takeDiagnostics =>
    refine hg.of_sameView (hg.toCoherent.congr rfl rfl rfl rfl) hg.memoless hg.pending ?_
    intro k hk
    exact ⟨.of_styles rfl rfl rfl (.refl hg.linked hk) fun _ _ => rfl, rfl⟩

end UpToDate

end Engine
end Cascade
