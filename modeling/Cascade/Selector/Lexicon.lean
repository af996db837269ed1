import Cascade.Selector.Parser
import Cascade.Table

/-!
# The lexicon of selector texts

Rules that are written alike share one selector.  The lexicon reads each text
once and numbers the texts in the order of their first appearance; the number
then stands for the selector wherever a short key is wanted.
-/

namespace Cascade

/-- The number of a selector text. -/
structure SelectorId where
  /-- The count of different texts seen before this one. -/
  number : UInt32
  deriving DecidableEq, Inhabited

/-- A selector with the number of its text. -/
structure IndexedSelector where
  /-- The number of the text. -/
  id : SelectorId
  /-- What the text means. -/
  selector : Selector
  deriving DecidableEq, Inhabited

/-- The selectors read so far.  The number of a text has 32 bits and may run out; the counts of
questions are plain numbers, for a count of 64 bits that grows by one for each question asked is
not exhausted by any run. -/
structure Lexicon where
  /-- The selectors by text. -/
  entries : Table String IndexedSelector := {}
  /-- How many questions an earlier reading answered. -/
  hits : Nat := 0
  /-- How many questions needed a reading. -/
  misses : Nat := 0
  deriving Inhabited

namespace Lexicon

/-- The number of different texts. -/
def size (l : Lexicon) : Nat := l.entries.size

/-- Whether no text has been read. -/
def isEmpty (l : Lexicon) : Bool := l.entries.isEmpty

/-- The selector of a text, read now or earlier. -/
def intern (l : Lexicon) (text : String) : IndexedSelector × Lexicon :=
  match l.entries.get? text with
  | some entry => (entry, { l with hits := l.hits + 1 })
  | none =>
    let entry : IndexedSelector := ⟨⟨UInt32.ofNat l.size⟩, Selector.parse text⟩
    (entry, { l with entries := l.entries.insert text entry, misses := l.misses + 1 })

end Lexicon
end Cascade
