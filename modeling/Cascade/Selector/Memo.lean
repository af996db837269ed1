import Cascade.Element
import Cascade.Selector.Lexicon
import Cascade.Table

/-!
# Results of matching

Whether a selector applies to an element, or to one of its ancestors, is asked
again whenever the element is styled.  The memo keeps the answers by selector
number, element and question until the host changes something they may depend on.
-/

namespace Cascade

/-- The two questions of matching. -/
inductive Question where
  /-- Whether the selector applies to the element. -/
  | itself
  /-- Whether it applies to an ancestor. -/
  | above
  deriving DecidableEq, Inhabited

/-- What an answer belongs to. -/
structure MemoKey where
  /-- The selector. -/
  selector : SelectorId
  /-- The element. -/
  element : Handle
  /-- The question. -/
  question : Question
  deriving DecidableEq, Inhabited

/-- Answers kept.  The counts are plain numbers: they grow by one for each question, and no run
asks 2⁶⁴ of them. -/
structure Memo where
  /-- The answers. -/
  entries : Table MemoKey Bool := {}
  /-- How many questions an answer was kept for. -/
  hits : Nat := 0
  /-- How many questions had to be worked out. -/
  misses : Nat := 0
  deriving Inhabited

namespace Memo

/-- The kept answer, or the one worked out now, which is then kept. -/
def ask (m : Memo) (key : MemoKey) (answer : Unit → Bool) : Bool × Memo :=
  match m.entries.get? key with
  | some b => (b, { m with hits := m.hits + 1 })
  | none =>
    let b := answer ()
    (b, { m with entries := m.entries.insert key b, misses := m.misses + 1 })

/-- Drops all answers. -/
def clear (m : Memo) : Memo := { m with entries := {} }

/-- Drops the answers about one element. -/
def forget (m : Memo) (h : Handle) : Memo :=
  { m with entries := m.entries.filter fun k _ => decide (k.element ≠ h) }

/-- The number of answers. -/
def size (m : Memo) : Nat := m.entries.size

/-- Whether no answer is kept. -/
def isEmpty (m : Memo) : Bool := m.entries.isEmpty

end Memo
end Cascade
