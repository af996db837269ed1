import Cascade.Proofs.Engine.Flush
import Cascade.Engine.Queries
import Mathlib.Data.List.Nodup

/-!
# What is computed, and how often

The walk through the pending subtrees may meet an element several times, since pending
subtrees may overlap.  A style that has been computed is clean, so the second visit passes it
over: the walk computes exactly the dirty styles it meets, each of them once, and leaves all
other styles as they are.

## Main definitions

* `Styling.results` — what has been computed for an element.
* `Engine.Visited` — some styles have been computed, once each, and nothing else has happened.
* `Engine.Computes` — the same, as it can be told after changes that the host has made.
* `Engine.Quiet` — the books are right, nothing is pending, and no style is dirty.

## Main results

* `Engine.visited_foldl_refresh` — a walk computes the dirty styles it meets.
* `Engine.Coherent.computes_flush` — **what is dirty and pending is computed once.**
* `Engine.Quiet.computes_restyle`, `Engine.Quiet.computes_restyleAll`.
-/

namespace Cascade

/-- What has been computed for an element: its ranked candidates, the values it takes over, its
own values, and those of its overlays. -/
def Styling.results (s : Styling) : Ranking × Values × Values × List (String × Values) :=
  (s.ranking, s.snapshot, s.base, s.overlays.map fun o => (o.name, o.values))

namespace Engine

variable {g g' g'' : Engine} {h k : Handle} {s : Styling} {hs ks : List Handle}

/-! ### Visits -/

/-- The second engine comes from the first by computing the styles of the listed elements, each
of them once. -/
structure Visited (g g' : Engine) (hs : List Handle) : Prop where
  nodup : hs.Nodup
  forest : g'.forest = g.forest
  pending : g'.pending = g.pending
  total : g'.recomputed = g.recomputed + hs.length
  kept : ∀ k, k ∉ hs → g'.styles.get? k = g.styles.get? k
  once : ∀ k ∈ hs, ∃ s s', g.styles.get? k = some s ∧ g'.styles.get? k = some s' ∧
    s'.freshness = .clean ∧ s'.recomputed = s.recomputed + 1

namespace Visited

theorem refl (g : Engine) : g.Visited g [] where
  nodup := List.nodup_nil
  forest := rfl
  pending := rfl
  total := rfl
  kept := fun _ _ => rfl
  once := nofun

/-- Visits to different elements add up. -/
theorem trans (h₁ : g.Visited g' hs) (h₂ : g'.Visited g'' ks) (hd : hs.Disjoint ks) :
    g.Visited g'' (hs ++ ks) where
  nodup := List.Nodup.append h₁.nodup h₂.nodup hd
  forest := h₂.forest.trans h₁.forest
  pending := h₂.pending.trans h₁.pending
  total := by rw [h₂.total, h₁.total, List.length_append, Nat.add_assoc]
  kept := by
    intro k hk
    rw [List.mem_append, not_or] at hk
    rw [h₂.kept k hk.2, h₁.kept k hk.1]
  once := by
    intro k hk
    rcases List.mem_append.1 hk with hk | hk
    · rw [h₂.kept k (hd hk)]
      exact h₁.once k hk
    · rw [← h₁.kept k fun hk' => hd hk' hk]
      exact h₂.once k hk

theorem isDirty_of_mem (hv : g.Visited g' hs) (hk : k ∈ hs) : g'.isDirty k = false := by
  obtain ⟨_, s', -, hs', hclean, -⟩ := hv.once k hk
  unfold isDirty
  rw [hs']
  show (s'.freshness == .dirty) = false
  rw [hclean]
  rfl

theorem isDirty_of_notMem (hv : g.Visited g' hs) (hk : k ∉ hs) : g'.isDirty k = g.isDirty k := by
  unfold isDirty
  rw [hv.kept k hk]

end Visited

theorem visited_recompute (hh : g.forest.contains h = true) (hs : g.styles.get? h = some s) :
    g.Visited (g.recompute h) [h] := by
  rw [recompute_of_contains hh hs]
  refine ⟨List.nodup_singleton h, rfl, rfl, rfl, ?_, ?_⟩
  · intro k hk
    have hne : ¬ h = k := fun he => hk (List.mem_singleton.2 he.symm)
    exact (Table.get?_insert _ _ _ _).trans (if_neg hne)
  · intro k hk
    obtain rfl := List.mem_singleton.1 hk
    exact ⟨s, _, hs, (Table.get?_insert _ _ _ _).trans (if_pos rfl), rfl, rfl⟩

/-- **A walk computes the dirty styles it meets,** whatever order it takes. -/
theorem visited_foldl_refresh (hg : g.Styled) {walk : List Handle}
    (hlive : ∀ k ∈ walk, g.forest.contains k = true) :
    ∃ hs, g.Visited (walk.foldl refresh g) hs ∧ ∀ k, k ∈ hs ↔ k ∈ walk ∧ g.isDirty k = true := by
  induction walk generalizing g with
  | nil => exact ⟨[], .refl g, fun k => by simp⟩
  | cons h walk ih =>
    have hr := restyled_refresh g h
    have hlive' : ∀ k ∈ walk, (g.refresh h).forest.contains k = true := by
      intro k hk
      rw [hr.forest]
      exact hlive k (List.mem_cons_of_mem h hk)
    obtain ⟨hs, hv, hmem⟩ := ih (hg.restyled hr) hlive'
    by_cases hd : g.isDirty h = true
    · have hh := hlive h List.mem_cons_self
      obtain ⟨s, hs'⟩ := Option.isSome_iff_exists.1 (hg h hh)
      have hfirst : g.Visited (g.refresh h) [h] := by
        rw [refresh, if_pos hd]
        exact visited_recompute hh hs'
      -- the style is clean now, so later visits pass it over
      have hclean := hfirst.isDirty_of_mem (List.mem_singleton_self h)
      have hnot : h ∉ hs := fun hm => by
        rw [((hmem h).1 hm).2] at hclean
        cases hclean
      refine ⟨[h] ++ hs, hfirst.trans hv (List.singleton_disjoint.2 hnot), ?_⟩
      intro k
      rw [List.singleton_append, List.mem_cons, List.mem_cons, hmem]
      by_cases hk : k = h
      · simp [hk, hd]
      · rw [hfirst.isDirty_of_notMem fun hm => hk (List.mem_singleton.1 hm)]
        simp [hk]
    · have hsame : g.refresh h = g := by rw [refresh, if_neg hd]
      rw [List.foldl_cons, hsame]
      rw [hsame] at hv hmem
      refine ⟨hs, hv, ?_⟩
      intro k
      rw [hmem, List.mem_cons]
      by_cases hk : k = h
      · simp [hk, hd]
      · simp [hk]

/-- Computing subtree by subtree is one walk. -/
theorem foldl_refreshSubtree_eq (g : Engine) (hs : List Handle) :
    hs.foldl refreshSubtree g = (hs.flatMap g.forest.subtree).foldl refresh g := by
  induction hs generalizing g with
  | nil => rfl
  | cons h hs ih =>
    rw [List.foldl_cons, ih, (restyled_refreshSubtree g h).forest, List.flatMap_cons,
      List.foldl_append]
    rfl

/-! ### What a pass computes -/

/-- From one engine to the next the styles of exactly the listed elements have been computed,
each of them once; what has been computed for other elements has stayed. -/
structure Computes (g g' : Engine) (hs : List Handle) : Prop where
  /-- No element is listed twice. -/
  nodup : hs.Nodup
  live : ∀ h ∈ hs, g'.forest.contains h = true
  /-- The count of every live element goes up by one if it is listed.  That of a new element
  has been nought. -/
  count : ∀ h, g'.forest.contains h = true →
    g'.recomputeCount? h = some ((g.recomputeCount? h).getD 0 + if h ∈ hs then 1 else 0)
  kept : ∀ h, g'.forest.contains h = true → h ∉ hs →
    (g'.styles.get? h).map Styling.results = (g.styles.get? h).map Styling.results
  /-- The count over all elements goes up by their number. -/
  total : g'.stats.recomputed = g.stats.recomputed + hs.length

/-- The books are right, nothing is pending, and no style is dirty. -/
structure Quiet (g : Engine) : Prop extends Coherent g where
  pending : g.pending = []
  clean : ∀ h, g.forest.contains h = true → g.isDirty h = false

namespace Computes

/-- The order of the list has no meaning. -/
theorem of_mem_iff (hc : g.Computes g' hs) (hn : ks.Nodup) (hm : ∀ k, k ∈ ks ↔ k ∈ hs) :
    g.Computes g' ks where
  nodup := hn
  live := fun h hh => hc.live h ((hm h).1 hh)
  count := by
    intro h hh
    rw [hc.count h hh]
    simp only [hm]
  kept := fun h hh hnot => hc.kept h hh fun hh' => hnot ((hm h).2 hh')
  total := by rw [hc.total, ((List.perm_ext_iff_of_nodup hn hc.nodup).2 hm).length_eq]

/-- What was done before does not count, if no style was computed by it. -/
theorem of_before {g₀ : Engine} (hc : g.Computes g' hs)
    (hcount : ∀ h, g'.forest.contains h = true →
      (g.recomputeCount? h).getD 0 = (g₀.recomputeCount? h).getD 0)
    (hkept : ∀ h, g'.forest.contains h = true → h ∉ hs →
      (g.styles.get? h).map Styling.results = (g₀.styles.get? h).map Styling.results)
    (htotal : g.recomputed = g₀.recomputed) : g₀.Computes g' hs where
  nodup := hc.nodup
  live := hc.live
  count := by
    intro h hh
    rw [hc.count h hh, hcount h hh]
  kept := by
    intro h hh hnot
    rw [hc.kept h hh hnot, hkept h hh hnot]
  total := by
    rw [hc.total]
    exact congrArg (· + hs.length) htotal

end Computes

/-- Visits to live elements compute their styles. -/
theorem Visited.computes (hv : g.Visited g' hs) (hg : g.Coherent)
    (hlive : ∀ h ∈ hs, g.forest.contains h = true) : g.Computes g' hs where
  nodup := hv.nodup
  live := by
    intro h hh
    rw [hv.forest]
    exact hlive h hh
  count := by
    intro h hh
    rw [hv.forest] at hh
    unfold recomputeCount?
    by_cases hm : h ∈ hs
    · obtain ⟨s, s', hs, hs', -, hcount⟩ := hv.once h hm
      rw [hs, hs', if_pos hm, Option.map_some, Option.map_some, Option.getD_some, hcount]
    · obtain ⟨s, hs⟩ := hg.exists_styling hh
      rw [hv.kept h hm, hs, if_neg hm, Option.map_some, Option.getD_some, Nat.add_zero]
  kept := by
    intro h _ hm
    rw [hv.kept h hm]
  total := hv.total

/-- A flush with something pending visits what is dirty in the pending subtrees. -/
theorem Coherent.visited_flush (hg : g.Coherent) (hp : g.pending ≠ []) :
    ∃ ks, Visited { g with pending := [], passes := g.passes + 1 } g.flush ks ∧
      ∀ k, k ∈ ks ↔ (∃ r ∈ g.pending, k ∈ g.forest.subtree r) ∧ g.isDirty k = true := by
  have hg₀ : Coherent { g with pending := [], passes := g.passes + 1 } := hg.congr rfl rfl rfl rfl
  have hwalk : ∀ k ∈ g.pendingRoots.flatMap g.forest.subtree, g.forest.contains k = true := by
    intro k hk
    obtain ⟨r, -, hkr⟩ := List.mem_flatMap.1 hk
    exact ((Forest.mem_subtree hg.linked).1 hkr).1
  obtain ⟨ks, hv, hks⟩ := visited_foldl_refresh hg₀.styled hwalk
  have hflush : g.flush = (g.pendingRoots.flatMap g.forest.subtree).foldl refresh
      { g with pending := [], passes := g.passes + 1 } := by
    rw [Engine.flush, if_neg (by simpa using hp), foldl_refreshSubtree_eq]
  rw [← hflush] at hv
  refine ⟨ks, hv, fun k => (hks k).trans (and_congr_left fun _ => ?_)⟩
  rw [List.mem_flatMap]
  constructor
  · rintro ⟨r, hr, hkr⟩
    exact ⟨r, (mem_pendingRoots.1 hr).1, hkr⟩
  · rintro ⟨r, hr, hkr⟩
    have hk := (Forest.mem_subtree hg.linked).1 hkr
    exact ⟨r, mem_pendingRoots.2 ⟨hr, hg.linked.contains_of_mem_path hk.1 hk.2⟩, hkr⟩

/-- **What is dirty and pending is computed once.** -/
theorem Coherent.computes_flush (hg : g.Coherent) (hn : hs.Nodup)
    (hmem : ∀ k, k ∈ hs ↔ g.forest.contains k = true ∧ g.isDirty k = true)
    (hcover : ∀ k ∈ hs, ∃ r ∈ g.pending, k ∈ g.forest.subtree r) :
    g.flush.Quiet ∧ g.Computes g.flush hs := by
  by_cases hp : g.pending = []
  · have hnil : hs = [] := by
      refine List.eq_nil_iff_forall_not_mem.2 fun k hk => ?_
      obtain ⟨r, hr, -⟩ := hcover k hk
      rw [hp] at hr
      cases hr
    have hflush : g.flush = g := by rw [Engine.flush, hp]; rfl
    subst hnil
    rw [hflush]
    refine ⟨⟨hg, hp, ?_⟩, (Visited.refl g).computes hg nofun⟩
    intro k hk
    exact Bool.eq_false_iff.2 fun hd => List.not_mem_nil ((hmem k).2 ⟨hk, hd⟩)
  · obtain ⟨ks, hv, hks⟩ := hg.visited_flush hp
    -- all that is dirty is pending, so the visits are to what is dirty
    have hmem' : ∀ k, k ∈ hs ↔ k ∈ ks := by
      intro k
      rw [hks]
      constructor
      · exact fun hk => ⟨hcover k hk, ((hmem k).1 hk).2⟩
      · rintro ⟨⟨r, -, hkr⟩, hd⟩
        exact (hmem k).2 ⟨((Forest.mem_subtree hg.linked).1 hkr).1, hd⟩
    refine ⟨⟨hg.flush, hv.pending, ?_⟩, ?_⟩
    · intro k hk
      rw [hv.forest] at hk
      by_cases hm : k ∈ ks
      · exact hv.isDirty_of_mem hm
      · rw [hv.isDirty_of_notMem hm, Bool.eq_false_iff]
        intro hd
        exact hm ((hmem' k).1 ((hmem k).2 ⟨hk, hd⟩))
    · have hg₀ : Coherent { g with pending := [], passes := g.passes + 1 } :=
        hg.congr rfl rfl rfl rfl
      have hcomputes := hv.computes hg₀ fun k hk => ((hmem k).1 ((hmem' k).2 hk)).1
      exact (hcomputes.of_mem_iff hn hmem').of_before (fun _ _ => rfl) (fun _ _ _ => rfl) rfl

/-! ### Subtrees and all -/

/-- A mark changes nothing of what was computed before. -/
theorem map_foldl_markSubtree {α : Type} (hg : g.Coherent) (rs : List Handle) (f : Styling → α)
    (hf : ∀ s, f { s with freshness := .dirty } = f s) (hk : g.forest.contains k = true) :
    ((rs.foldl markSubtree g).styles.get? k).map f = (g.styles.get? k).map f := by
  obtain ⟨s, hs⟩ := hg.exists_styling hk
  rw [get?_foldl_markSubtree]
  split
  · rw [hs, Option.getD_some, Option.map_some, Option.map_some, hf]
  · rfl

/-- In an engine that is quiet nothing is dirty but what is marked. -/
theorem Quiet.isDirty_foldl_markSubtree (hg : g.Quiet) (rs : List Handle)
    (hk : g.forest.contains k = true) :
    (rs.foldl markSubtree g).isDirty k = true ↔ k ∈ rs.flatMap g.forest.subtree := by
  unfold isDirty
  rw [get?_foldl_markSubtree]
  by_cases hm : k ∈ rs.flatMap g.forest.subtree
  · rw [if_pos hm]
    exact iff_of_true rfl hm
  · rw [if_neg hm]
    refine iff_of_false ?_ hm
    exact Bool.eq_false_iff.1 (hg.clean k hk)

/-- Marking some subtrees of an engine that is quiet, and computing what is marked, computes
what is in them. -/
theorem Quiet.computes_flush_markSubtree (hg : g.Quiet) (rs : List Handle) (hn : hs.Nodup)
    (hmem : ∀ k, k ∈ hs ↔ k ∈ rs.flatMap g.forest.subtree) :
    (rs.foldl markSubtree g).flush.Quiet ∧ g.Computes (rs.foldl markSubtree g).flush hs := by
  have hr := restyled_foldl_markSubtree hg.linked hg.styled rs
  have hlive : ∀ k ∈ hs, g.forest.contains k = true := by
    intro k hk
    obtain ⟨r, -, hkr⟩ := List.mem_flatMap.1 ((hmem k).1 hk)
    exact ((Forest.mem_subtree hg.linked).1 hkr).1
  have hdirty : ∀ k, k ∈ hs ↔ (rs.foldl markSubtree g).forest.contains k = true ∧
      (rs.foldl markSubtree g).isDirty k = true := by
    intro k
    rw [hr.forest, and_congr_right fun hk => hg.isDirty_foldl_markSubtree rs hk, ← hmem]
    exact (and_iff_right_of_imp (hlive k)).symm
  have hcover : ∀ k ∈ hs, ∃ r ∈ (rs.foldl markSubtree g).pending,
      k ∈ (rs.foldl markSubtree g).forest.subtree r := by
    intro k hk
    rw [foldl_markSubtree_eq, hg.pending]
    exact List.mem_flatMap.1 ((hmem k).1 hk)
  obtain ⟨hquiet, hcomputes⟩ := (hg.toCoherent.restyled hr).computes_flush hn hdirty hcover
  have hcontains : ∀ k, (rs.foldl markSubtree g).flush.forest.contains k = true →
      g.forest.contains k = true := by
    intro k hk
    rwa [(restyled_flush _).forest, hr.forest] at hk
  refine ⟨hquiet, hcomputes.of_before ?_ ?_ ?_⟩
  · intro k hk
    have hcount := map_foldl_markSubtree hg.toCoherent rs (·.recomputed) (fun _ => rfl)
      (hcontains k hk)
    exact congrArg (Option.getD · 0) hcount
  · intro k hk _
    exact map_foldl_markSubtree hg.toCoherent rs _ (fun _ => rfl) (hcontains k hk)
  · rw [foldl_markSubtree_eq]

/-- **Computing a subtree computes what is in it,** and nothing else. -/
theorem Quiet.computes_restyle (hg : g.Quiet) (h : Handle) :
    (g.restyle h).Quiet ∧ g.Computes (g.restyle h) (g.forest.subtree h) := by
  refine hg.computes_flush_markSubtree [h] (Forest.nodup_subtree hg.linked h) ?_
  intro k
  rw [List.flatMap_cons, List.flatMap_nil, List.append_nil]

/-- **Computing all subtrees computes all styles.** -/
theorem Quiet.computes_restyleAll (hg : g.Quiet) :
    g.restyleAll.Quiet ∧ g.Computes g.restyleAll g.forest.handles := by
  have hsize := hg.forest.slotted.size_le
  refine hg.computes_flush_markSubtree g.forest.roots (Forest.nodup_handles hsize) ?_
  intro k
  rw [Forest.mem_handles hsize, List.mem_flatMap]
  constructor
  · exact Forest.exists_root hg.linked
  · rintro ⟨r, -, hkr⟩
    exact ((Forest.mem_subtree hg.linked).1 hkr).1

end Engine
end Cascade
