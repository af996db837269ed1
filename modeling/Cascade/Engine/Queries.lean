import Cascade.Engine.Basic

/-!
# What a host reads from the engine

All answers are about the present: nothing is computed but the blending of
overlays.  A handle that is not live, and a key that is not registered, have no
answer.
-/

namespace Cascade
namespace Engine

/-- The value of a property, overlays blended in. -/
def value? (g : Engine) (h : Handle) (key : String) : Option Value :=
  (g.styles.get? h).bind fun s =>
    combinedValue (s.base.get? key) s.overlays key g.config.switchThreshold

/-- The value of a property, overlays apart. -/
def baseValue? (g : Engine) (h : Handle) (key : String) : Option Value :=
  (g.styles.get? h).bind fun s => s.base.get? key

/-- All values, overlays blended in. -/
def combined? (g : Engine) (h : Handle) : Option Values :=
  (g.styles.get? h).map fun s => combine s.base s.overlays g.config.switchThreshold

/-- The ranked candidates of a property. -/
def trace (g : Engine) (h : Handle) (key : String) : List Candidate :=
  match g.styles.get? h with
  | some s => s.ranking.candidates key
  | none => []

/-- The values taken over from the parent. -/
def snapshot? (g : Engine) (h : Handle) : Option Values := (g.styles.get? h).map (·.snapshot)

/-- How often the style of an element has been computed. -/
def recomputeCount? (g : Engine) (h : Handle) : Option Nat := (g.styles.get? h).map (·.recomputed)

/-- Whether the style of an element is up to date. -/
def freshness? (g : Engine) (h : Handle) : Option Freshness := (g.styles.get? h).map (·.freshness)

/-- Counts over the life of an engine. -/
structure Stats where
  /-- Styles computed. -/
  recomputed : Nat
  /-- Times there was something to compute. -/
  passes : Nat
  /-- Reports. -/
  reported : Nat
  /-- Results of matching that were kept. -/
  matchHits : Nat
  /-- Results of matching that were worked out. -/
  matchMisses : Nat
  /-- Selector texts that had been read before. -/
  selectorHits : Nat
  /-- Selector texts that were read. -/
  selectorMisses : Nat
  deriving DecidableEq, Inhabited

/-- The share of results of matching that were kept; 0 if none was asked for. -/
def Stats.matchHitRate (s : Stats) : Float :=
  let total := s.matchHits + s.matchMisses
  if total = 0 then 0 else .ofNat s.matchHits / .ofNat total

/-- The counts so far. -/
def stats (g : Engine) : Stats where
  recomputed := g.recomputed
  passes := g.passes
  reported := g.reported
  matchHits := g.memo.hits
  matchMisses := g.memo.misses
  selectorHits := g.lexicon.hits
  selectorMisses := g.lexicon.misses

end Engine
end Cascade
