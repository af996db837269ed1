import Cascade.Proofs.Engine.Scratch

/-!
# Computing what is marked

A style is computed after that of the parent, so that what it takes over is settled already.
The walk through the pending subtrees meets parents before children; so if every style that is
not up to date is marked and lies in a pending subtree, all styles are up to date in the end.

Engines have no memo in this module; that a memo makes no difference is known.

## Main definitions

* `Engine.Fresh` — the style of an element is clean, and settled.
* `Engine.Honest` — a style is fresh unless it is marked.
* `Engine.Mended` — from one engine to the next no fresh style is lost.
* `Engine.UpToDate` — nothing is pending, and all styles are fresh.

## Main results

* `Engine.Honest.refresh` — the step: one style is computed.
* `Engine.Honest.foldl_refresh` — the run: the walk down computes all styles it meets.
* `Engine.Honest.flush`, `Engine.upToDate_restyle`, `Engine.upToDate_restyleAll`.
-/

namespace Cascade
namespace Engine

variable {g g' g'' : Engine} {h k : Handle} {s : Styling} {hs out : List Handle}

/-- The style of an element is clean, and it is what it would be from scratch. -/
def Fresh (g : Engine) (h : Handle) : Prop :=
  ∃ s, g.styles.get? h = some s ∧ s.freshness = .clean ∧ g.Settled h s

theorem Fresh.isDirty_eq (hf : g.Fresh h) : g.isDirty h = false := by
  obtain ⟨s, hs, hclean, -⟩ := hf
  unfold isDirty
  rw [hs]
  show (s.freshness == .dirty) = false
  rw [hclean]
  rfl

/-- A style that is kept stays fresh where nothing has changed. -/
theorem Fresh.of_sameView (hf : g.Fresh h) (hl : g.forest.Linked) (hv : g.SameView g' h)
    (hs : g'.styles.get? h = g.styles.get? h) : g'.Fresh h := by
  obtain ⟨s, hget, hclean, hsettled⟩ := hf
  exact ⟨s, hs.trans hget, hclean, hv.settled hl hsettled⟩

/-- A style that is kept stays fresh while others are marked or computed. -/
theorem Fresh.of_restyled (hf : g.Fresh h) (hg : g.Coherent) (hr : g.Restyled g')
    (hs : g'.styles.get? h = g.styles.get? h) : g'.Fresh h := by
  obtain ⟨s, hget, -⟩ := id hf
  exact hf.of_sameView hg.linked (hr.sameView hg.linked (hg.contains_of_get? hget)) hs

/-- The books are right, there is no memo, and a style is fresh unless it is marked. -/
structure Honest (g : Engine) : Prop extends Coherent g where
  memoless : g.config.memoize = false
  fresh : ∀ h, g.forest.contains h = true → g.isDirty h = false → g.Fresh h

/-- The second engine differs from the first in what is computed, and all that is fresh in the
first is fresh in the second. -/
structure Mended (g g' : Engine) : Prop extends Restyled g g' where
  pending : g'.pending = g.pending
  fresh : ∀ h, g.Fresh h → g'.Fresh h

theorem Mended.refl (g : Engine) : g.Mended g := ⟨.refl g, rfl, fun _ => id⟩

theorem Mended.trans (h₁ : g.Mended g') (h₂ : g'.Mended g'') : g.Mended g'' where
  toRestyled := h₁.toRestyled.trans h₂.toRestyled
  pending := h₂.pending.trans h₁.pending
  fresh := fun h hf => h₂.fresh h (h₁.fresh h hf)

/-! ### One style -/

theorem rank_of_memoless (hm : g.config.memoize = false) (s : Scene) :
    g.rank s = (s.ranking, g.memo) := by
  unfold rank
  rw [hm]
  rfl

/-- What computing one style does to the styles. -/
theorem get?_recompute (hm : g.config.memoize = false) (hh : g.forest.contains h = true)
    (hs : g.styles.get? h = some s) (k : Handle) : (g.recompute h).styles.get? k =
      if h = k then some (g.computed h s (g.scene h s.inline).ranking).1 else g.styles.get? k := by
  rw [recompute_of_contains hh hs, rank_of_memoless hm]
  exact Table.get?_insert _ _ _ _

/-- What an element takes over is right as soon as the style of its parent is fresh. -/
theorem snapshot_eq_of_fresh (hg : g.Coherent) (hh : g.forest.contains h = true)
    (hp : ∀ p, g.forest.parent? h = some p → g.Fresh p) : g.snapshot h = g.scratchSnapshot h := by
  cases hpar : g.forest.parent? h with
  | none => exact snapshot_eq_of_root hh hpar
  | some p =>
    obtain ⟨sp, hsp, -, hsettled⟩ := hp p hpar
    exact snapshot_eq_of_child hg.linked hpar hsp hsettled

theorem pending_recompute (g : Engine) (h : Handle) : (g.recompute h).pending = g.pending := by
  rw [recompute_eq]
  split <;> rfl

namespace Honest

/-- **The step:** after the style of its parent, the style of an element is computed. -/
theorem recompute (hg : g.Honest) (hh : g.forest.contains h = true)
    (hp : ∀ p, g.forest.parent? h = some p → g.Fresh p) :
    (g.recompute h).Honest ∧ g.Mended (g.recompute h) ∧ (g.recompute h).Fresh h := by
  obtain ⟨s, hs⟩ := hg.exists_styling hh
  have hr := restyled_recompute g h
  have hget := get?_recompute hg.memoless hh hs
  have hfresh : (g.recompute h).Fresh h := by
    have hsnap := snapshot_eq_of_fresh hg.toCoherent hh hp
    have hsettled := settled_computed hs hsnap
    have hview := hr.sameView hg.linked hh
    exact ⟨_, (hget h).trans (if_pos rfl), rfl, hview.settled hg.linked hsettled⟩
  have hkept : ∀ k, g.Fresh k → (g.recompute h).Fresh k := by
    intro k hk
    by_cases hne : h = k
    · subst hne
      exact hfresh
    · have hsame : (g.recompute h).styles.get? k = g.styles.get? k := by rw [hget, if_neg hne]
      exact hk.of_restyled hg.toCoherent hr hsame
  -- a style without a mark had none before, or it has been computed just now
  have hunmarked : ∀ k, (g.recompute h).forest.contains k = true →
      (g.recompute h).isDirty k = false → (g.recompute h).Fresh k := by
    intro k hk hd
    by_cases hne : h = k
    · subst hne
      exact hfresh
    · have hsame : (g.recompute h).isDirty k = g.isDirty k := by
        unfold isDirty
        rw [hget, if_neg hne]
      rw [hr.forest] at hk
      rw [hsame] at hd
      exact hkept k (hg.fresh k hk hd)
  have hmemoless : (g.recompute h).config.memoize = false := by
    rw [hr.config]
    exact hg.memoless
  exact ⟨⟨hg.toCoherent.restyled hr, hmemoless, hunmarked⟩,
    ⟨hr, pending_recompute g h, hkept⟩, hfresh⟩

theorem refresh (hg : g.Honest) (hh : g.forest.contains h = true)
    (hp : ∀ p, g.forest.parent? h = some p → g.Fresh p) :
    (g.refresh h).Honest ∧ g.Mended (g.refresh h) ∧ (g.refresh h).Fresh h := by
  unfold Engine.refresh
  split
  · exact hg.recompute hh hp
  · next hd =>
    have hd : g.isDirty h = false := by simpa using hd
    exact ⟨hg, .refl g, hg.fresh h hh hd⟩

/-! ### Walks -/

/-- **The run:** a walk down from elements whose parents have fresh styles computes all that it
meets. -/
theorem foldl_refresh {t : Forest} (hw : t.Preorder hs out) (ht : g.forest = t) (hl : t.Linked)
    (hg : g.Honest) (hp : ∀ h ∈ hs, ∀ p, t.parent? h = some p → g.Fresh p) :
    (out.foldl Engine.refresh g).Honest ∧ g.Mended (out.foldl Engine.refresh g) ∧
      ∀ x ∈ out, (out.foldl Engine.refresh g).Fresh x := by
  induction hw generalizing g with
  | nil => exact ⟨hg, .refl g, nofun⟩
  | @visit h stack below rest hc _ _ ihb ihr =>
    obtain ⟨hg₁, hm₁, hf₁⟩ := hg.refresh (ht ▸ hc) (ht ▸ hp h List.mem_cons_self)
    -- the children come next, and their parent has been visited
    have hchildren : ∀ c ∈ t.children h, ∀ p, t.parent? c = some p → (g.refresh h).Fresh p := by
      intro c hch p hcp
      rw [(hl.mem_children c h).1 hch] at hcp
      cases hcp
      exact hf₁
    obtain ⟨hg₂, hm₂, hf₂⟩ := ihb (hm₁.forest.trans ht) hg₁ hchildren
    -- then the rest of the stack, and what was fresh at the start still is
    have hm₁₂ := hm₁.trans hm₂
    have hrest : ∀ k ∈ stack, ∀ p, t.parent? k = some p →
        (below.foldl Engine.refresh (g.refresh h)).Fresh p := by
      intro k hk p hkp
      exact hm₁₂.fresh p (hp k (List.mem_cons_of_mem h hk) p hkp)
    obtain ⟨hg₃, hm₃, hf₃⟩ := ihr (hm₁₂.forest.trans ht) hg₂ hrest
    rw [List.foldl_cons, List.foldl_append]
    refine ⟨hg₃, hm₁₂.trans hm₃, ?_⟩
    intro x hx
    rcases List.mem_cons.1 hx with rfl | hx
    · exact hm₃.fresh x (hm₂.fresh x hf₁)
    · rcases List.mem_append.1 hx with hx | hx
      · exact hm₃.fresh x (hf₂ x hx)
      · exact hf₃ x hx

theorem refreshSubtree (hg : g.Honest) (hh : g.forest.contains h = true)
    (hp : ∀ p, g.forest.parent? h = some p → g.Fresh p) :
    (g.refreshSubtree h).Honest ∧ g.Mended (g.refreshSubtree h) ∧
      ∀ x ∈ g.forest.subtree h, (g.refreshSubtree h).Fresh x := by
  have hwalk := Forest.preorder_subtree hg.linked hh
  refine foldl_refresh hwalk rfl hg.linked hg ?_
  intro k hk
  rw [List.mem_singleton.1 hk]
  exact hp

theorem foldl_refreshSubtree (hg : g.Honest) (hc : ∀ r ∈ hs, g.forest.contains r = true)
    (hp : ∀ r ∈ hs, ∀ p, g.forest.parent? r = some p → g.Fresh p) :
    (hs.foldl Engine.refreshSubtree g).Honest ∧ g.Mended (hs.foldl Engine.refreshSubtree g) ∧
      ∀ r ∈ hs, ∀ x ∈ g.forest.subtree r, (hs.foldl Engine.refreshSubtree g).Fresh x := by
  induction hs generalizing g with
  | nil => exact ⟨hg, .refl g, nofun⟩
  | cons r hs ih =>
    obtain ⟨hg₁, hm₁, hf₁⟩ := hg.refreshSubtree (hc r List.mem_cons_self) (hp r List.mem_cons_self)
    have hc₁ : ∀ k ∈ hs, (g.refreshSubtree r).forest.contains k = true := by
      intro k hk
      rw [hm₁.forest]
      exact hc k (List.mem_cons_of_mem r hk)
    have hp₁ : ∀ k ∈ hs, ∀ p, (g.refreshSubtree r).forest.parent? k = some p →
        (g.refreshSubtree r).Fresh p := by
      intro k hk p hkp
      rw [hm₁.forest] at hkp
      exact hm₁.fresh p (hp k (List.mem_cons_of_mem r hk) p hkp)
    obtain ⟨hg₂, hm₂, hf₂⟩ := ih hg₁ hc₁ hp₁
    refine ⟨hg₂, hm₁.trans hm₂, ?_⟩
    intro k hk x hx
    rcases List.mem_cons.1 hk with rfl | hk
    · exact hm₂.fresh x (hf₁ x hx)
    · rw [← hm₁.forest] at hx
      exact hf₂ k hk x hx

end Honest

/-! ### The pending subtrees -/

theorem mem_dropRepeats (hs : List Handle) : h ∈ dropRepeats hs ↔ h ∈ hs := by
  induction hs using dropRepeats.induct with
  | case1 => rfl
  | case2 => rfl
  | case3 k rest ih =>
    rw [dropRepeats, if_pos rfl, ih]
    simp
  | case4 k k' rest hne ih =>
    rw [dropRepeats, if_neg hne, List.mem_cons, ih, ← List.mem_cons]

/-- All live pending subtrees are visited, and no others. -/
theorem mem_pendingRoots : h ∈ g.pendingRoots ↔ h ∈ g.pending ∧ g.forest.contains h = true := by
  unfold pendingRoots
  rw [mem_dropRepeats, List.mem_mergeSort, List.mem_filter]

/-- Nothing is pending, and the styles of all elements are fresh. -/
structure UpToDate (g : Engine) : Prop extends Coherent g where
  memoless : g.config.memoize = false
  pending : g.pending = []
  fresh : ∀ h, g.forest.contains h = true → g.Fresh h

/-- **If all that is not fresh is pending, and what lies above it is fresh, then all is up to
date in the end.** -/
theorem Honest.flush (hg : g.Honest)
    (hp : ∀ r ∈ g.pending, ∀ p, g.forest.parent? r = some p → g.Fresh p)
    (hcover : ∀ h, g.forest.contains h = true → g.Fresh h ∨
      ∃ r ∈ g.pending, h ∈ g.forest.subtree r) : g.flush.UpToDate := by
  unfold Engine.flush
  split
  · next hempty =>
    have hnil := List.isEmpty_iff.1 hempty
    refine ⟨hg.toCoherent, hg.memoless, hnil, ?_⟩
    intro h hh
    rcases hcover h hh with hf | ⟨r, hr, -⟩
    · exact hf
    · rw [hnil] at hr
      cases hr
  · -- the visit starts with nothing pending
    have hr : g.Restyled { g with pending := [], passes := g.passes + 1 } :=
      ⟨rfl, rfl, rfl, rfl, rfl, fun _ => rfl⟩
    have hkeep : ∀ h, g.Fresh h → Fresh { g with pending := [], passes := g.passes + 1 } h := by
      intro h hf
      exact hf.of_restyled hg.toCoherent hr rfl
    have hhonest : Honest { g with pending := [], passes := g.passes + 1 } := by
      refine ⟨hg.toCoherent.restyled hr, hg.memoless, ?_⟩
      intro h hh hd
      exact hkeep h (hg.fresh h hh hd)
    have hlive : ∀ r ∈ g.pendingRoots, g.forest.contains r = true := by
      intro r hr
      exact (mem_pendingRoots.1 hr).2
    have habove : ∀ r ∈ g.pendingRoots, ∀ p, g.forest.parent? r = some p →
        Fresh { g with pending := [], passes := g.passes + 1 } p := by
      intro r hr p hrp
      exact hkeep p (hp r (mem_pendingRoots.1 hr).1 p hrp)
    obtain ⟨hg', hm, hf⟩ := hhonest.foldl_refreshSubtree hlive habove
    refine ⟨hg'.toCoherent, hg'.memoless, hm.pending, ?_⟩
    intro h hh
    rw [hm.forest] at hh
    rcases hcover h hh with hf' | ⟨r, hr, hrh⟩
    · exact hm.fresh h (hkeep h hf')
    · have hup := ((Forest.mem_subtree hg.linked).1 hrh).2
      have hlive := hg.linked.contains_of_mem_path hh hup
      exact hf r (mem_pendingRoots.2 ⟨hr, hlive⟩) h hrh

/-! ### Marking and computing -/

/-- If all that is not fresh is in one of some subtrees, and what lies above these is fresh,
then marking them leaves an engine honest, and computing what is marked brings it up to date. -/
theorem upToDate_flush_markSubtree (hg : g.Coherent) (hm : g.config.memoize = false)
    (hpending : g.pending = []) (hs : List Handle)
    (hp : ∀ r ∈ hs, ∀ p, g.forest.parent? r = some p → ∀ q ∈ hs, p ∉ g.forest.subtree q)
    (hf : ∀ h, g.forest.contains h = true → (∀ r ∈ hs, h ∉ g.forest.subtree r) → g.Fresh h) :
    (hs.foldl markSubtree g).flush.UpToDate := by
  have hr := restyled_foldl_markSubtree hg.linked hg.styled hs
  have hpend : (hs.foldl markSubtree g).pending = hs := by
    rw [foldl_markSubtree_eq, hpending]
    exact List.nil_append hs
  -- outside of the subtrees nothing is marked, and all is fresh
  have hout : ∀ k, g.forest.contains k = true → k ∉ hs.flatMap g.forest.subtree →
      (hs.foldl markSubtree g).Fresh k := by
    intro k hk hnot
    have hfresh : g.Fresh k := by
      refine hf k hk ?_
      intro r hr hkr
      exact hnot (List.mem_flatMap.2 ⟨r, hr, hkr⟩)
    have hsame : (hs.foldl markSubtree g).styles.get? k = g.styles.get? k := by
      rw [get?_foldl_markSubtree, if_neg hnot]
    exact hfresh.of_restyled hg hr hsame
  have hhonest : (hs.foldl markSubtree g).Honest := by
    refine ⟨hg.restyled hr, hr.config ▸ hm, ?_⟩
    intro k hk hd
    rw [hr.forest] at hk
    refine hout k hk ?_
    intro hmem
    unfold isDirty at hd
    rw [get?_foldl_markSubtree, if_pos hmem] at hd
    cases hd
  refine hhonest.flush ?_ ?_
  · intro r hr' p hrp
    rw [hpend] at hr'
    rw [hr.forest] at hrp
    refine hout p (hg.linked.contains_parent hrp) ?_
    intro hmem
    obtain ⟨q, hq, hpq⟩ := List.mem_flatMap.1 hmem
    exact hp r hr' p hrp q hq hpq
  · intro k hk
    rw [hpend, hr.forest, ← List.mem_flatMap]
    rw [hr.forest] at hk
    by_cases hmem : k ∈ hs.flatMap g.forest.subtree
    · exact .inr hmem
    · exact .inl (hout k hk hmem)

/-- **After one subtree has been computed, all is up to date** if all was outside of it. -/
theorem upToDate_restyle (hg : g.Coherent) (hm : g.config.memoize = false)
    (hpending : g.pending = [])
    (hf : ∀ k, g.forest.contains k = true → k ∉ g.forest.subtree h → g.Fresh k) :
    (g.restyle h).UpToDate := by
  refine upToDate_flush_markSubtree hg hm hpending [h] ?_ ?_
  · intro r hr p hp q hq
    rw [List.mem_singleton.1 hr] at hp
    rw [List.mem_singleton.1 hq]
    exact Forest.notMem_subtree_of_parent? hg.linked hp
  · intro k hk hout
    exact hf k hk (hout h (List.mem_singleton_self h))

/-- **After all subtrees have been computed, all is up to date,** whatever was before. -/
theorem upToDate_restyleAll (hg : g.Coherent) (hm : g.config.memoize = false)
    (hpending : g.pending = []) : g.restyleAll.UpToDate := by
  refine upToDate_flush_markSubtree hg hm hpending g.forest.roots ?_ ?_
  · -- above a root there is nothing
    intro r hr p hp
    have hroot := Option.isNone_iff_eq_none.1 (List.mem_filter.1 hr).2
    rw [hroot] at hp
    cases hp
  · intro k hk hout
    obtain ⟨r, hr, hkr⟩ := Forest.exists_root hg.linked hk
    exact absurd hkr (hout r hr)

end Engine
end Cascade
