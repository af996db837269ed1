import Cascade.Json.Reader
import Cascade.Json.Writer

/-!
# Texts written are texts read

Between quotes every character stands for itself or is escaped.  An escape is read back as the
character, and no escape contains a bare quote, so a text ends where its closing quote is.

## Main results

* `Json.pieces?_escape` — a character is read back.
* `Json.text?_escape` — **a text is read back, whatever its characters.**
-/

namespace Cascade
namespace Json

theorem hexDigit?_hexChar {n : Nat} (hn : n < 16) : hexDigit? (hexChar n) = some n := by
  revert n
  decide

/-- The four digits of a control character stand for it. -/
theorem hexPiece?_control {c : Char} (hc : c.toNat < 0x20) :
    hexPiece? '0' '0' (hexChar (c.toNat / 16)) (hexChar (c.toNat % 16)) = some (.char c) := by
  have hzero : hexDigit? '0' = some 0 := rfl
  have hvalue : 4096 * 0 + 256 * 0 + 16 * (c.toNat / 16) + c.toNat % 16 = c.toNat := by omega
  unfold hexPiece?
  rw [hzero, hexDigit?_hexChar (by omega), hexDigit?_hexChar (by omega)]
  show some (if _ then _ else Piece.char (Char.ofNat _)) = _
  rw [hvalue, if_neg (by omega), Char.ofNat_toNat]

/-- **A character is read back,** escaped or not. -/
theorem pieces?_escape (c : Char) (cs : List Char) :
    pieces? (escape c ++ cs) = (pieces? cs).map fun (ps, rest) => (.char c :: ps, rest) := by
  unfold escape
  -- seven characters have an escape of their own
  iterate 7
    split
    · next h =>
      subst h
      rfl
  split
  · next hc =>
    show (hexPiece? '0' '0' _ _).bind _ = _
    rw [hexPiece?_control hc]
    rfl
  · next hquote hslash _ _ _ _ _ hc =>
    rw [List.singleton_append, pieces?]
    · exact if_neg (not_or.2 ⟨hslash, hc⟩)
    all_goals simp_all

/-- A text is read up to its closing quote. -/
theorem pieces?_flatMap_escape (cs rest : List Char) :
    pieces? (cs.flatMap escape ++ '"' :: rest) = some (cs.map .char, rest) := by
  induction cs with
  | nil => rfl
  | cons c cs ih =>
    rw [List.flatMap_cons, List.append_assoc, pieces?_escape, ih]
    rfl

theorem characters?_map_char (cs : List Char) : characters? (cs.map .char) = some cs := by
  induction cs with
  | nil => rfl
  | cons c cs ih =>
    show (characters? (cs.map .char)).map (c :: ·) = _
    rw [ih, Option.map_some]

/-- **A text is read back,** up to its closing quote. -/
theorem text?_escape (s : String) (rest : List Char) :
    text? (s.toList.flatMap escape ++ '"' :: rest) = some (some s, rest) := by
  unfold text?
  rw [pieces?_flatMap_escape, Option.map_some]
  dsimp only
  rw [characters?_map_char, Option.map_some, String.ofList_toList]

end Json
end Cascade
