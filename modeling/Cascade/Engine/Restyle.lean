import Cascade.Engine.Basic

/-!
# Computing styles anew

A change marks the styles that may depend on it as dirty, subtree by subtree, and
then all dirty styles are computed, parents before children, because a child
takes over values of its parent.

## Main definitions

* `Engine.markSubtree`, `Engine.markAll` — what is to be computed.
* `Engine.recompute` — one style.
* `Engine.flush` — all dirty styles.
* `Engine.restyle` — a subtree, at once.
-/

namespace Cascade
namespace Engine

/-! ### Marking -/

/-- The styles with that of `h` dirty; an element without a style gets one. -/
def markDirty (styles : Table Handle Styling) (h : Handle) : Table Handle Styling :=
  styles.insert h { (styles.get? h).getD {} with freshness := .dirty }

/-- Marks the styles of `h` and its descendants. -/
def markSubtree (g : Engine) (h : Handle) : Engine :=
  { g with
    styles := (g.forest.subtree h).foldl markDirty g.styles
    pending := g.pending ++ [h] }

/-- Marks all styles. -/
def markAll (g : Engine) : Engine := g.forest.roots.foldl markSubtree g

/-! ### Computing -/

/-- The local sheets on the way from the root to `h`. -/
def localSheets (g : Engine) (h : Handle) : List SheetId :=
  (g.forest.pathFromRoot h).filterMap fun a => (g.styles.get? a).bind (·.localSheet)

/-- All that decides which declarations reach `h`. -/
def scene (g : Engine) (h : Handle) (inline : List Declaration) : Scene where
  element := h
  context := { forest := g.forest, maxDepth := g.config.maxAncestorDepth }
  catalogue := g.catalogue
  localSheets := g.localSheets h
  inline := inline
  registry := g.registry

/-- The values that `h` takes over from its parent as it is now. -/
def snapshot (g : Engine) (h : Handle) : Values :=
  match (g.forest.parent? h).bind g.styles.get? with
  | some parent => parent.base.inheritable g.registry
  | none => {}

/-- The ranked candidates of a scene, by way of the memo if the settings want it. -/
def rank (g : Engine) (s : Scene) : Ranking × Memo :=
  if g.config.memoize then s.rankingMemo g.memo else (s.ranking, g.memo)

/-- Computes the style of `h`: its candidates, its own values, and the values of
its overlays. -/
def recompute (g : Engine) (h : Handle) : Engine :=
  match g.forest.get? h, g.styles.get? h with
  | some _, some styling =>
    let snapshot := g.snapshot h
    let scene := g.scene h styling.inline
    let (ranking, memo) := g.rank scene
    let (base, reports) := Sources.resolveAll ⟨h, g.registry, ranking, snapshot⟩
    let overlays := styling.overlays.map fun o => o.recompute scene snapshot
    let reports := reports ++ overlays.flatMap (·.2)
    { g with
      memo
      styles := g.styles.insert h
        { styling with
          freshness := .clean
          ranking
          snapshot
          base
          overlays := overlays.map (·.1)
          recomputed := styling.recomputed + 1 }
      diagnostics := g.diagnostics ++ reports
      recomputed := g.recomputed + 1
      reported := g.reported + reports.length }
  | _, _ => g

/-- Whether the style of `h` has to be computed. -/
def isDirty (g : Engine) (h : Handle) : Bool :=
  match g.styles.get? h with
  | some styling => styling.freshness == .dirty
  | none => true

/-- Computes the style of `h` if it is dirty. -/
def refresh (g : Engine) (h : Handle) : Engine := if g.isDirty h then g.recompute h else g

/-- Computes the dirty styles in the subtree of `h`, parents first. -/
def refreshSubtree (g : Engine) (h : Handle) : Engine := (g.forest.subtree h).foldl refresh g

/-- The order in which pending subtrees are visited: the less deep first, then by handle. -/
def visitsBefore (t : Forest) (h k : Handle) : Bool :=
  decide (t.depth h < t.depth k) || (t.depth h == t.depth k && h.le k)

/-- The list without items that repeat the one before. -/
def dropRepeats : List Handle → List Handle
  | [] => []
  | [h] => [h]
  | h :: k :: rest => if h = k then dropRepeats (k :: rest) else h :: dropRepeats (k :: rest)

/-- The live pending subtrees in the order of the visit. -/
def pendingRoots (g : Engine) : List Handle :=
  dropRepeats ((g.pending.filter g.forest.contains).mergeSort (visitsBefore g.forest))

/-- Computes all dirty styles in the pending subtrees. -/
def flush (g : Engine) : Engine :=
  if g.pending.isEmpty then g
  else g.pendingRoots.foldl refreshSubtree { g with pending := [], passes := g.passes + 1 }

/-- Computes the styles of `h` and its descendants. -/
def restyle (g : Engine) (h : Handle) : Engine := (g.markSubtree h).flush

/-- Computes all styles. -/
def restyleAll (g : Engine) : Engine := g.markAll.flush

/-- Drops the results of matching. -/
def forgetMatches (g : Engine) : Engine := { g with memo := g.memo.clear }

end Engine
end Cascade
