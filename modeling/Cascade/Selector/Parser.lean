import Cascade.Selector.Basic

/-!
# Reading selectors

The text of a selector is a comma-separated list of groups.  A group is a
sequence of compounds, and two neighbours are separated by blanks or by one `>`
with optional blanks around it.  A compound is an optional `*` or type name
followed by any number of marked names: `#` before an id, `.` before a class,
`:` before a pseudo-class.  Text of any other form reads as `Selector.invalid`.

The reading goes in three steps, each of which loses nothing the next one needs:
text to groups (`splitCommas`), group to tokens (`tokens`), compound to its
pieces (`segments`).

## Main definitions

* `Selector.compound?`, `Selector.group?` — the readers of the parts.
* `Selector.parse` — the reader.
-/

namespace Cascade
namespace Selector

/-! ### Characters -/

/-- The characters with the Unicode property `White_Space`. -/
def isBlank (c : Char) : Bool :=
  let n := c.toNat
  (0x9 ≤ n && n ≤ 0xD) || n == 0x20 || n == 0x85 || n == 0xA0 || n == 0x1680 ||
    (0x2000 ≤ n && n ≤ 0x200A) || n == 0x2028 || n == 0x2029 || n == 0x202F || n == 0x205F ||
    n == 0x3000

/-- The characters of a name: ASCII letters and digits, hyphen, underscore. -/
def isNameChar (c : Char) : Bool := c.isAlphanum || c == '-' || c == '_'

/-! ### Compounds -/

/-- Cuts a text at its characters that belong to no name: the name in front,
then each such character with the name that follows it. -/
def segments : List Char → List Char × List (Char × List Char)
  | [] => ([], [])
  | c :: cs =>
    match segments cs with
    | (lead, rest) => if isNameChar c then (c :: lead, rest) else ([], (c, lead) :: rest)

/-- The test that a marked name stands for. -/
def marked? : Char × List Char → Option Selector
  | (_, []) => none
  | ('#', name) => some (.ofId (String.ofList name))
  | ('.', name) => some (.ofClass (String.ofList name))
  | (':', name) => some (.ofPseudo (String.ofList name))
  | _ => none

/-- The tests of a compound, which starts with `*`, with a type name or with a mark. -/
def tests? (text : List Char) : Option (List Selector) :=
  match segments text with
  | ([], ('*', []) :: rest) => (rest.mapM marked?).map (.universal :: ·)
  | ([], rest) => rest.mapM marked?
  | (lead, rest) => (rest.mapM marked?).map (.ofType (String.ofList lead) :: ·)

/-- One test stands for itself, several for their conjunction; none is no compound. -/
def conjunction? : List Selector → Option Selector
  | [] => none
  | [t] => some t
  | ts => some (.all ts)

/-- Reads a compound. -/
def compound? (text : List Char) : Option Selector := (tests? text).bind conjunction?

/-! ### Groups -/

/-- What a group is made of, blanks apart. -/
inductive Token where
  /-- A longest run of characters other than blanks and `>`. -/
  | compound (text : List Char)
  /-- A `>`. -/
  | child
  deriving DecidableEq

/-- Puts the collected compound, whose characters stand in reverse, in front. -/
def flush (collected : List Char) (rest : List Token) : List Token :=
  if collected.isEmpty then rest else .compound collected.reverse :: rest

/-- The tokens of a group, after some characters of a compound have been collected. -/
def tokensFrom (collected : List Char) : List Char → List Token
  | [] => flush collected []
  | c :: cs =>
    if isBlank c then flush collected (tokensFrom [] cs)
    else if c = '>' then flush collected (.child :: tokensFrom [] cs)
    else tokensFrom (c :: collected) cs

/-- The tokens of a group. -/
def tokens (group : List Char) : List Token := tokensFrom [] group

/-- Reads on after a first part: every further compound, after an optional `>`,
takes what precedes it as its ancestor. -/
def relations? (ancestor : Selector) : List Token → Option Selector
  | [] => some ancestor
  | .compound text :: rest => do
    relations? (.within (← compound? text) ancestor false) rest
  | .child :: .compound text :: rest => do
    relations? (.within (← compound? text) ancestor true) rest
  | .child :: _ => none

/-- Reads a group. -/
def group? (text : List Char) : Option Selector :=
  match tokens text with
  | .compound first :: rest => do relations? (← compound? first) rest
  | _ => none

/-! ### Lists of groups -/

/-- The texts between commas; there is always one more text than there are commas. -/
def splitCommas : List Char → List (List Char)
  | [] => [[]]
  | c :: cs =>
    if c = ',' then [] :: splitCommas cs
    else
      match splitCommas cs with
      | [] => [[c]]
      | g :: gs => (c :: g) :: gs

/-- One group stands for itself, several for their alternatives. -/
def alternatives : List Selector → Selector
  | [g] => g
  | gs => .oneOf gs

/-- Reads a selector; `none` if some group is malformed. -/
def parse? (text : List Char) : Option Selector :=
  ((splitCommas text).mapM group?).map alternatives

/-- The meaning of a text: its selector, or `invalid` if it is malformed. -/
def parse (text : String) : Selector := (parse? text.toList).getD .invalid

end Selector
end Cascade
