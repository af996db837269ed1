import Cascade.Proofs.Engine.Coherence
import Cascade.Proofs.Scene.Agreement
import Cascade.Proofs.Scene.Memo

/-!
# The memo of the engine

An answer in the memo is right as long as it is the one that matching would give now.  Most
operations cannot make an answer wrong, the others drop all answers.  So an engine with its
memo does what the same engine without a memo does; the engine without is obtained by erasing
the memo and the setting that switches it on.

## Main definitions

* `Engine.Right` — what an answer in the memo has to be.
* `Engine.Trusted` — the books are right, and so are the answers in the memo.
* `Engine.plain` — the engine without its memo.

## Main results

* `Engine.Trusted.rank_eq` — the ranking that is computed does not depend on the memo.
* `Engine.Trusted.plain_flush` — computing styles commutes with erasing the memo.
-/

namespace Cascade
namespace Engine

variable {g g' : Engine} {h k : Handle}

/-- An answer in the memo is about an element and a known selector, and matching would give
it now. -/
def Right (g : Engine) (key : MemoKey) (b : Bool) : Prop :=
  g.forest.contains key.element = true ∧ ∃ i, g.lexicon.Knows i ∧ i.id = key.selector ∧
    b = (g.scene key.element []).answer i.selector key.question

/-- The books are right, and so are the answers in the memo. -/
structure Trusted (g : Engine) : Prop extends Coherent g where
  memo : g.memo.Keeps g.Right

/-- The engine without its memo. -/
def plain (g : Engine) : Engine :=
  { g with config := { g.config with memoize := false }, memo := {} }

theorem trusted_empty (c : Config) : Trusted { config := c } where
  toCoherent := coherent_empty c
  memo := Memo.keeps_empty rfl

/-- Without answers there is none that could be wrong. -/
theorem Coherent.forgetMatches (hg : g.Coherent) : g.forgetMatches.Trusted where
  toCoherent := hg.restyled (restyled_forgetMatches g)
  memo := Memo.keeps_empty rfl

/-- The selectors of the rules of a scene are known. -/
theorem knows_of_mem_rules (hg : g.Coherent) {inline : List Declaration} {r : PlacedRule}
    (hr : r ∈ (g.scene h inline).rules) : g.lexicon.Knows r.rule.selector := by
  obtain ⟨-, sheet, hs, hrule⟩ := Scene.exists_sheet_of_mem_rules hr
  exact hg.filed.known hs r.rule (List.mem_of_getElem? hrule)

/-- For a rule of the scene of an element there is one right answer. -/
theorem right_iff (hg : g.Coherent) (hh : g.forest.contains h = true) {inline : List Declaration}
    {r : PlacedRule} (hr : r ∈ (g.scene h inline).rules) (q : Question) (b : Bool) :
    g.Right ⟨r.rule.selector.id, h, q⟩ b ↔
      b = (g.scene h inline).answer r.rule.selector.selector q := by
  have hknows := knows_of_mem_rules hg hr
  constructor
  · rintro ⟨-, i, hi, hid, hb⟩
    -- the selector that the answer is about is the one of the rule
    rw [hg.lexicon.eq_of_id_eq hi hknows hid] at hb
    exact hb
  · exact fun hb => ⟨hh, _, hknows, rfl, hb⟩

namespace Trusted

/-- **The ranking does not depend on the memo,** and the memo is left with right answers. -/
theorem rank_eq (hg : g.Trusted) (hh : g.forest.contains h = true) (inline : List Declaration) :
    (g.rank (g.scene h inline)).1 = (g.scene h inline).ranking ∧
      (g.rank (g.scene h inline)).2.Keeps g.Right := by
  unfold rank
  split
  · exact Scene.rankingMemo_eq hg.memo fun r hr => right_iff hg.toCoherent hh hr
  · exact ⟨rfl, hg.memo⟩

end Trusted

/-- Whether an answer is right depends on the elements, the selectors and the depth limit. -/
theorem Restyled.right_eq (hr : g.Restyled g') : g'.Right = g.Right := by
  have hscene : ∀ h, (g'.scene h []).answer = (g.scene h []).answer := by
    intro h
    unfold scene Scene.answer
    rw [hr.forest, hr.config]
  funext key b
  unfold Right
  rw [hr.forest, hr.lexicon, hscene]

/-! ### Computing styles -/

/-- A function that computes styles keeps answers right and does the same without a memo. -/
structure Erasable (f : Engine → Engine) : Prop where
  trusted : ∀ {g : Engine}, g.Trusted → (f g).Trusted
  plain : ∀ {g : Engine}, g.Trusted → (f g).plain = f g.plain

theorem Erasable.foldl {α : Type} {f : Engine → α → Engine} (hf : ∀ x, Erasable (f · x))
    (xs : List α) : Erasable (xs.foldl f ·) := by
  induction xs with
  | nil => exact ⟨id, fun _ => rfl⟩
  | cons x xs ih =>
    constructor
    · intro g hg
      exact ih.trusted ((hf x).trusted hg)
    · intro g hg
      have hfirst := (hf x).plain hg
      have hrest := ih.plain ((hf x).trusted hg)
      exact hrest.trans (congrArg (xs.foldl f ·) hfirst)

theorem Trusted.of_restyled (hg : g.Trusted) (hr : g.Restyled g') (hm : g'.memo.Keeps g.Right) :
    g'.Trusted where
  toCoherent := hg.toCoherent.restyled hr
  memo := hr.right_eq ▸ hm

theorem erasable_recompute (h : Handle) : Erasable (recompute · h) := by
  constructor
  · intro g hg
    refine hg.of_restyled (restyled_recompute g h) ?_
    rw [recompute_eq]
    split
    · next s he hs => exact (hg.rank_eq (Forest.contains_of_get? he) s.inline).2
    · exact hg.memo
  · intro g hg
    show (g.recompute h).plain = g.plain.recompute h
    have hget : g.plain.forest.get? h = g.forest.get? h := rfl
    have hstyles : g.plain.styles.get? h = g.styles.get? h := rfl
    rw [recompute_eq, recompute_eq, hget, hstyles]
    cases he : g.forest.get? h with
    | none => rfl
    | some e =>
      cases hs : g.styles.get? h with
      | none => rfl
      | some s =>
        show (g.withStyling h (g.computed h s (g.rank _).1) _).plain = _
        -- the ranking is all that the memo could have changed
        rw [(hg.rank_eq (Forest.contains_of_get? he) s.inline).1]
        rfl

theorem erasable_refresh (h : Handle) : Erasable (refresh · h) := by
  constructor
  · intro g hg
    show (g.refresh h).Trusted
    unfold refresh
    split
    · exact (erasable_recompute h).trusted hg
    · exact hg
  · intro g hg
    show (g.refresh h).plain = g.plain.refresh h
    have hd : g.plain.isDirty h = g.isDirty h := rfl
    unfold refresh
    rw [hd]
    split
    · exact (erasable_recompute h).plain hg
    · rfl

/-- A visit of the same elements. -/
theorem erasable_refreshSubtree (h : Handle) : Erasable (refreshSubtree · h) where
  trusted := fun {g} hg => (Erasable.foldl erasable_refresh (g.forest.subtree h)).trusted hg
  plain := fun {g} hg => (Erasable.foldl erasable_refresh (g.forest.subtree h)).plain hg

theorem erasable_flush : Erasable flush := by
  have hvisit : ∀ {g : Engine}, g.Trusted →
      Trusted { g with pending := [], passes := g.passes + 1 } := by
    intro g hg
    exact ⟨hg.toCoherent.congr rfl rfl rfl rfl, hg.memo⟩
  constructor
  · intro g hg
    unfold flush
    split
    · exact hg
    · exact (Erasable.foldl erasable_refreshSubtree g.pendingRoots).trusted (hvisit hg)
  · intro g hg
    unfold flush
    show _ = if g.pending.isEmpty then g.plain else _
    split
    · rfl
    · exact (Erasable.foldl erasable_refreshSubtree g.pendingRoots).plain (hvisit hg)

/-- Marking commutes with erasing the memo. -/
theorem plain_foldl_markSubtree (g : Engine) (hs : List Handle) :
    (hs.foldl markSubtree g).plain = hs.foldl markSubtree g.plain := by
  induction hs generalizing g with
  | nil => rfl
  | cons h hs ih => exact ih (g.markSubtree h)

theorem Trusted.foldl_markSubtree (hg : g.Trusted) (hs : List Handle) :
    (hs.foldl markSubtree g).Trusted := by
  refine hg.of_restyled (restyled_foldl_markSubtree hg.linked hg.styled hs) ?_
  rw [foldl_markSubtree_eq]
  exact hg.memo

theorem erasable_restyle (h : Handle) : Erasable (restyle · h) where
  trusted := fun hg => erasable_flush.trusted (hg.foldl_markSubtree [h])
  plain := fun hg => erasable_flush.plain (hg.foldl_markSubtree [h])

theorem erasable_restyleAll : Erasable restyleAll := by
  constructor
  · intro g hg
    exact erasable_flush.trusted (hg.foldl_markSubtree _)
  · intro g hg
    refine (erasable_flush.plain (hg.foldl_markSubtree _)).trans ?_
    show (g.forest.roots.foldl markSubtree g).plain.flush = _
    rw [plain_foldl_markSubtree]
    rfl

/-! ### Changes -/

/-- An answer stays right while the path of its element stays the same. -/
theorem Right.mono {key : MemoKey} {b : Bool} (hr : g.Right key b)
    (hd : g'.config.maxAncestorDepth = g.config.maxAncestorDepth)
    (hl : g.lexicon.Extends g'.lexicon)
    (hf : g.forest.SamePath g'.forest key.element) : g'.Right key b := by
  obtain ⟨-, i, hi, hid, hb⟩ := hr
  have hanswer : (g'.scene key.element []).answer i.selector key.question =
      (g.scene key.element []).answer i.selector key.question :=
    Scene.answer_congr (g.scene key.element []) (g'.scene key.element []) rfl hf hd rfl
      i.selector key.question
  exact ⟨hf.contains.2, i, hi.mono hl, hid, hb.trans hanswer.symm⟩

/-- A change that leaves the memo and the paths of elements alone keeps answers right. -/
theorem Trusted.of_coherent (hg : g.Trusted) (hg' : g'.Coherent) (hm : g'.memo = g.memo)
    (hd : g'.config = g.config) (hl : g.lexicon.Extends g'.lexicon)
    (hf : ∀ k, g.forest.contains k = true → g.forest.SamePath g'.forest k) : g'.Trusted where
  toCoherent := hg'
  memo := by
    rw [hm]
    exact hg.memo.mono fun k b hr => hr.mono (by rw [hd]) hl (hf _ hr.1)

theorem Coherent.samePath (hg : g.Coherent) (hf : g'.forest = g.forest)
    (hk : g.forest.contains k = true) : g.forest.SamePath g'.forest k := by
  rw [hf]
  exact .refl hg.linked hk

/-- A change that leaves the memo, the elements and the selectors alone keeps answers right. -/
theorem Trusted.of_forest_eq (hg : g.Trusted) (hg' : g'.Coherent) (hm : g'.memo = g.memo)
    (hd : g'.config = g.config) (hl : g'.lexicon = g.lexicon) (hf : g'.forest = g.forest) :
    g'.Trusted :=
  hg.of_coherent hg' hm hd (hl ▸ .refl _) fun _ hk => hg.samePath hf hk

theorem Trusted.withRegistry (hg : g.Trusted) (registry : Registry) :
    Trusted { g with registry } :=
  hg.of_forest_eq (hg.toCoherent.congr rfl rfl rfl rfl) rfl rfl rfl rfl

theorem Trusted.inserted (hg : g.Trusted) (e : Element) (hw : g.Unwrapped (g.inserted e)) :
    (g.inserted e).Trusted := by
  refine hg.of_coherent (hg.toCoherent.inserted e hw) rfl rfl (.refl _) ?_
  intro k hk
  exact Forest.samePath_insert hg.forest e hw.slots hk

/-- The answers about an element go with it. -/
theorem get?_forget (m : Memo) (h : Handle) (key : MemoKey) (b : Bool) :
    (m.forget h).entries.get? key = some b ↔ m.entries.get? key = some b ∧ key.element ≠ h := by
  show (m.entries.filter _).get? key = some b ↔ _
  rw [Table.get?_eq_some_iff, Table.get?_eq_some_iff]
  simp [Table.filter]

theorem get?_memo_dropAll (g : Engine) (hs : List Handle) (key : MemoKey) (b : Bool) :
    (hs.foldl drop g).memo.entries.get? key = some b ↔
      g.memo.entries.get? key = some b ∧ key.element ∉ hs := by
  induction hs generalizing g with
  | nil => simp
  | cons h hs ih =>
    rw [List.foldl_cons, ih]
    show (g.memo.forget h).entries.get? key = some b ∧ _ ↔ _
    rw [get?_forget, List.mem_cons, not_or, and_assoc]

theorem Trusted.destroyed (hg : g.Trusted) {removed : List Handle} {u : Forest}
    (hd : g.forest.destroy h = (.ok removed, u)) : (g.destroyed removed u).Trusted where
  toCoherent := hg.toCoherent.destroyed hd
  memo := by
    intro key b hb
    obtain ⟨hb, hm⟩ := (get?_memo_dropAll _ removed key b).1 hb
    have hr : g.Right key b := hg.memo key b hb
    obtain ⟨hconfig, hlexicon⟩ := config_dropAll { g with forest := u } removed
    refine hr.mono (congrArg _ hconfig) (hlexicon ▸ .refl _) ?_
    show g.forest.SamePath (removed.foldl drop { g with forest := u }).forest key.element
    rw [forest_dropAll]
    -- the element is outside of the subtree, so its path is still there
    rw [(Forest.destroy_eq_ok hg.linked hd).1] at hm
    exact Forest.samePath_destroy hg.linked hd hr.1 hm

theorem Trusted.attached (hg : g.Trusted) {child parent : Handle} {u : Forest}
    (ha : g.forest.attach child parent = (.ok (), u)) :
    (Engine.forgetMatches { g with forest := u }).Trusted :=
  (hg.toCoherent.attached ha).forgetMatches

theorem Trusted.detached (hg : g.Trusted) {child : Handle} {old : Option Handle} {u : Forest}
    (hd : g.forest.detach child = (.ok old, u)) :
    (Engine.forgetMatches { g with forest := u }).Trusted :=
  (hg.toCoherent.detached hd).forgetMatches

theorem extends_filed (g : Engine) (sheet : Option Sheet) :
    g.lexicon.Extends (g.filed sheet).2.lexicon := by
  cases sheet with
  | none => exact .refl _
  | some sheet => exact extends_compileRules _ _

theorem Trusted.assigned (hg : g.Trusted) (h : Handle) (sheet : Option Sheet)
    (hw : g.Unwrapped (g.assigned h sheet)) : (g.assigned h sheet).Trusted := by
  have hg' := hg.toCoherent.assigned h sheet hw
  have hforest : (g.filed sheet).2.forest = g.forest := by cases sheet <;> rfl
  have hconfig : (g.filed sheet).2.config = g.config := by cases sheet <;> rfl
  have hmemo : (g.filed sheet).2.memo = g.memo := by cases sheet <;> rfl
  have hlex : g.lexicon.Extends (g.assigned h sheet).lexicon := by
    rw [lexicon_assigned]
    exact extends_filed g sheet
  unfold Engine.assigned withoutSheet at hg' hlex ⊢
  split
  · next hold =>
    rw [hold] at hg' hlex
    exact hg.of_coherent hg' hmemo hconfig hlex fun k hk => hg.samePath hforest hk
  · next old hold =>
    rw [hold] at hg'
    -- with the old sheet all answers go
    exact ⟨hg', Memo.keeps_empty rfl⟩

theorem Trusted.modify (hg : g.Trusted) {f : Styling → Styling}
    (hf : ∀ s, (f s).localSheet = s.localSheet) (h : Handle) :
    Trusted { g with styles := g.styles.modify h f } :=
  hg.of_forest_eq (hg.toCoherent.modify hf) rfl rfl rfl rfl

theorem Trusted.withGlobal (hg : g.Trusted) (sheet : Sheet)
    (hw : g.Unwrapped (g.withGlobal sheet)) : (g.withGlobal sheet).Trusted := by
  refine hg.of_coherent (hg.toCoherent.withGlobal sheet hw) rfl rfl ?_ ?_
  · rw [lexicon_withGlobal]
    exact extends_compileRules _ _
  · intro k hk
    exact hg.samePath rfl hk

theorem Trusted.withInline (hg : g.Trusted) (h : Handle) (inline : List Declaration) :
    (g.withInline h inline).Trusted := hg.modify (f := fun s => { s with inline }) (fun _ => rfl) h

theorem Coherent.withoutGlobal (hg : g.Coherent) {id : SheetId} {sheet : CompiledSheet}
    (hs : g.catalogue.get? id = some sheet) (ho : sheet.owner ≠ .element) :
    (g.withoutSheet (some id)).Trusted := (hg.removeSheet (hg.localSheet?_ne hs ho)).forgetMatches

theorem Trusted.overlaid (hg : g.Trusted) (hh : g.forest.contains h = true) {s : Styling}
    (hs : g.styles.get? h = some s) {name : String} : (g.overlaid h s name).Trusted :=
  hg.of_forest_eq (hg.toCoherent.overlaid hh hs name) rfl rfl rfl rfl

end Engine
end Cascade
