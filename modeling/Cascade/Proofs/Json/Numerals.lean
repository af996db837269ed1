import Cascade.Json.Reader
import Cascade.Json.Writer

/-!
# Numbers written are numbers read

A number in JSON has no mark at its end: it goes on as long as what follows could belong to it.  So
it is read back if it has no superfluous zero in front, and if what follows neither is a digit nor
starts a fraction or an exponent.  Numbers that come from integers and from floats are such.

## Main definitions

* `Numeral.IsWhole` — digits that may stand before the point.
* `Json.EndsNumber` — what may follow a number.

## Main results

* `onGrid?_pos` — the shortest decimal of a positive float is positive.
* `Numeral.isWhole_ofInt`, `Numeral.isWhole_ofFloat32?` — what is written has no superfluous zero.
* `Json.numeral?_text` — **a number is read back.**
-/

namespace Cascade

/-! ### Digits -/

@[simp] theorem Digit.ofChar?_char (d : Digit) : Digit.ofChar? d.char = some d := by
  revert d
  decide

/-- A character that stands for no digit is that of none. -/
theorem Digit.char_ne {c : Char} (hc : Digit.ofChar? c = none) (d : Digit) : d.char ≠ c := by
  rintro rfl
  rw [ofChar?_char] at hc
  cases hc

namespace Numeral

/-- Digits that may stand before the point: there are some, and they start with zero only if that
is all. -/
structure IsWhole (ds : List Digit) : Prop where
  ne_nil : ds ≠ []
  eq_zero : ds.head? = some .zero → ds = [.zero]

theorem isWhole_singleton (d : Digit) : IsWhole [d] :=
  ⟨List.cons_ne_nil _ _, fun hz => congrArg (fun d => [d]) (Option.some.inj hz)⟩

theorem isWhole_cons {d : Digit} (hd : d ≠ .zero) (ds : List Digit) : IsWhole (d :: ds) :=
  ⟨List.cons_ne_nil _ _, fun hz => absurd (Option.some.inj hz) hd⟩

/-- The first digit of a positive number is positive. -/
theorem exists_digitsOf {n : Nat} (hn : 0 < n) :
    ∃ d ds, digitsOf n = d :: ds ∧ d ≠ .zero := by
  induction n using Nat.strongRecOn with
  | _ n ih =>
    rw [digitsOf]
    split
    · next h => exact ⟨⟨n, h⟩, [], rfl, fun hz => Nat.ne_of_gt hn (congrArg Fin.val hz)⟩
    · next h =>
      obtain ⟨d, ds, hds, hd⟩ := ih (n / 10) (by omega) (by omega)
      exact ⟨d, _, by rw [hds, List.cons_append], hd⟩

theorem isWhole_digitsOf (n : Nat) : IsWhole (digitsOf n) := by
  rcases Nat.eq_zero_or_pos n with rfl | hn
  · rw [digitsOf]
    exact isWhole_singleton _
  · obtain ⟨d, ds, hds, hd⟩ := exists_digitsOf hn
    rw [hds]
    exact isWhole_cons hd ds

/-- Some of the digits in front may stand alone. -/
theorem IsWhole.take {ds : List Digit} (hds : IsWhole ds) {n : Nat} (hn : 0 < n) :
    IsWhole (ds.take n) := by
  obtain ⟨n, rfl⟩ := Nat.exists_eq_succ_of_ne_zero (Nat.ne_of_gt hn)
  cases ds with
  | nil => exact absurd rfl hds.ne_nil
  | cons d ds =>
    refine ⟨List.cons_ne_nil _ _, fun hz => ?_⟩
    rw [hds.eq_zero hz, List.take_succ_cons, List.take_nil]

end Numeral

/-! ### Shortest decimals -/

/-- No positive float reads back from zero, so its decimal is positive on every grid. -/
theorem onGrid?_pos {tie : Tie} {m : Nat} {q k : Int} {c : Nat} (hm : 0 < m)
    (hc : onGrid? tie m q k = some c) : 0 < c := by
  unfold onGrid? at hc
  extract_lets scale value step above below low lowReads highReads at hc
  have hscale : 0 < scale := Nat.mul_pos (Nat.pow_pos Nat.two_pos) (Nat.pow_pos (by decide))
  -- zero is further away than half a unit
  have hfar : below < value := by
    have hle : below ≤ 2 * scale := by
      show (if m = 0x800000 ∧ binary32.leastExponent < q then scale else above) ≤ 2 * scale
      split
      · omega
      · exact Nat.le_refl _
    have hlt : 2 * scale < 4 * m * scale := Nat.mul_lt_mul_of_pos_right (by omega) hscale
    exact Nat.lt_of_le_of_lt hle hlt
  have hlow : lowReads = true → 0 < low := by
    intro hr
    rcases Nat.eq_zero_or_pos low with hz | hp
    · have hreads : value ≤ low * step + below := by
        simp only [lowReads] at hr
        split at hr
        · exact of_decide_eq_true hr
        · exact Nat.le_of_lt (of_decide_eq_true hr)
      rw [hz, Nat.zero_mul, Nat.zero_add] at hreads
      omega
    · exact hp
  clear_value lowReads highReads low
  cases lowReads with
  | false =>
    cases highReads with
    | false => cases hc
    | true =>
      cases hc
      exact Nat.succ_pos low
  | true =>
    have hp := hlow rfl
    cases highReads with
    | false =>
      cases hc
      exact hp
    | true =>
      dsimp only at hc
      split at hc
      · cases hc
        exact hp
      · split at hc
        · cases hc
          exact Nat.succ_pos low
        · cases tie <;> cases hc
          · exact Nat.add_pos_left hp _
          · exact Nat.succ_pos low

/-- The shortest decimal is positive; the one that stands for none found has no scale. -/
theorem shortest_pos (tie : Tie) {m : Nat} (hm : 0 < m) (q : Int) :
    0 < (shortest tie m q).coefficient ∨ (shortest tie m q).exponent = 0 := by
  unfold shortest
  cases hd : gridExponents.findSome?
      fun k => (onGrid? tie m q k).map (⟨·, k⟩ : Nat → DecimalNumber) with
  | none => exact .inr rfl
  | some d =>
    obtain ⟨k, -, hk⟩ := List.exists_of_findSome?_eq_some hd
    obtain ⟨c, hc, rfl⟩ := Option.map_eq_some_iff.1 hk
    exact .inl (onGrid?_pos hm hc)

namespace Numeral

theorem isWhole_positional {d : DecimalNumber} (hd : 0 < d.coefficient ∨ d.exponent = 0) :
    IsWhole d.positional.1 := by
  have hds := isWhole_digitsOf d.coefficient
  unfold DecimalNumber.positional
  dsimp only
  split
  · rcases hd with hpos | hzero
    · obtain ⟨e, es, hes, he⟩ := exists_digitsOf hpos
      rw [hes]
      exact isWhole_cons he _
    · rw [hzero]
      exact (List.append_nil _).symm ▸ hds
  · split
    · next hlt => exact hds.take (Nat.sub_pos_of_lt hlt)
    · exact isWhole_singleton _

theorem isWhole_ofDecimal (negative : Bool) {d : DecimalNumber}
    (hd : 0 < d.coefficient ∨ d.exponent = 0) : IsWhole (ofDecimal negative d).whole := by
  have hpos := isWhole_positional hd
  unfold ofDecimal
  dsimp only
  split
  · split
    · next whole heq => rwa [heq] at hpos
    · next whole fraction _ heq => rwa [heq] at hpos
  · exact (isWhole_digitsOf _).take Nat.one_pos

theorem isWhole_ofInt (n : Int) : IsWhole (ofInt n).whole := isWhole_digitsOf n.natAbs

theorem isWhole_ofFloat32? {x : Float32} {n : Numeral} (hx : ofFloat32? x = some n) :
    IsWhole n.whole := by
  obtain ⟨b, -, rfl⟩ := Option.map_eq_some_iff.1 hx
  split
  · exact isWhole_singleton _
  · next hm => exact isWhole_ofDecimal _ (shortest_pos _ (Nat.pos_of_ne_zero hm) _)

end Numeral

/-! ### Reading -/

namespace Json

/-- What may follow the digits of a number: something that is no digit, or nothing. -/
def EndsDigits (cs : List Char) : Prop := ∀ c ∈ cs.head?, Digit.ofChar? c = none

/-- What may follow the fraction of a number: no digit and no point either. -/
def EndsFraction (cs : List Char) : Prop := ∀ c ∈ cs.head?, Digit.ofChar? c = none ∧ c ≠ '.'

/-- What may follow a number: no digit, no point and no exponent mark. -/
def EndsNumber (cs : List Char) : Prop :=
  ∀ c ∈ cs.head?, Digit.ofChar? c = none ∧ c ≠ '.' ∧ c ≠ 'e' ∧ c ≠ 'E'

variable {rest : List Char}

theorem EndsFraction.endsDigits (hr : EndsFraction rest) : EndsDigits rest :=
  fun c hc => (hr c hc).1

theorem EndsNumber.endsFraction (hr : EndsNumber rest) : EndsFraction rest :=
  fun c hc => ⟨(hr c hc).1, (hr c hc).2.1⟩

theorem endsNumber_nil : EndsNumber [] := nofun

theorem endsNumber_cons {c : Char}
    (hc : Digit.ofChar? c = none ∧ c ≠ '.' ∧ c ≠ 'e' ∧ c ≠ 'E') : EndsNumber (c :: rest) := by
  rintro _ ⟨⟩
  exact hc

/-- All digits in front are taken. -/
theorem digitRun_append (ds : List Digit) (hr : EndsDigits rest) :
    digitRun (ds.map Digit.char ++ rest) = (ds, rest) := by
  induction ds with
  | nil =>
    cases rest with
    | nil => rfl
    | cons c cs => rw [List.map_nil, List.nil_append, digitRun, hr c rfl]
  | cons d ds ih => rw [List.map_cons, List.cons_append, digitRun, Digit.ofChar?_char, ih]

theorem whole?_append {ds : List Digit} (hds : Numeral.IsWhole ds) (hr : EndsDigits rest) :
    whole? (ds.map Digit.char ++ rest) = some (ds, rest) := by
  unfold whole?
  rw [digitRun_append ds hr]
  match ds, hds with
  | [], hds => exact absurd rfl hds.ne_nil
  | [d], _ => rfl
  | d :: e :: ds, hds =>
    have hd : d ≠ .zero := by
      rintro rfl
      cases hds.eq_zero rfl
    exact if_neg hd

theorem fraction?_append (ds : List Digit) (hr : EndsFraction rest) :
    fraction? (fractionText ds ++ rest) = some (ds, rest) := by
  cases ds with
  | nil =>
    show fraction? rest = _
    cases rest with
    | nil => rfl
    | cons c cs =>
      unfold fraction?
      split
      · next hc => exact absurd (List.cons.inj hc).1 (hr c rfl).2
      · rfl
  | cons d ds =>
    have htext : fractionText (d :: ds) ++ rest = '.' :: ((d :: ds).map Digit.char ++ rest) := rfl
    rw [htext, fraction?, digitRun_append _ hr.endsDigits]

/-- The digits before the point end where the fraction starts. -/
theorem endsDigits_fractionText (ds : List Digit) (hr : EndsFraction rest) :
    EndsDigits (fractionText ds ++ rest) := by
  cases ds with
  | nil => exact hr.endsDigits
  | cons d ds =>
    rintro _ ⟨⟩
    decide

theorem exponentDigits?_append (negative : Bool) (n : Nat) (hr : EndsDigits rest) :
    exponentDigits? negative ((digitsOf n).map Digit.char ++ rest) =
      some (some (if negative then -(n : Int) else n), rest) := by
  unfold exponentDigits?
  rw [digitRun_append _ hr]
  have hvalue := ofDigits_digitsOf n
  have hne := (Numeral.isWhole_digitsOf n).ne_nil
  generalize digitsOf n = ds at *
  cases ds with
  | nil => exact absurd rfl hne
  | cons d ds =>
    dsimp only
    rw [hvalue]

theorem exponent?_append (e : Option Int) (hr : EndsNumber rest) :
    exponent? (Numeral.exponentText e ++ rest) = some (e, rest) := by
  cases e with
  | none =>
    show exponent? rest = _
    cases rest with
    | nil => rfl
    | cons c cs =>
      obtain ⟨-, -, he, hE⟩ := hr c rfl
      unfold exponent?
      split
      all_goals first | rfl | next hc => exact absurd (List.cons.inj hc).1 ‹_›
  | some e =>
    show exponent? ('e' :: (if e < 0 then '-' else '+') ::
      ((digitsOf e.natAbs).map Digit.char ++ rest)) = _
    have hr := hr.endsFraction.endsDigits
    split
    · refine (exponentDigits?_append true e.natAbs hr).trans ?_
      rw [if_pos rfl, show -(e.natAbs : Int) = e by omega]
    · refine (exponentDigits?_append false e.natAbs hr).trans ?_
      rw [if_neg Bool.false_ne_true, show (e.natAbs : Int) = e by omega]

/-- A fraction ends where the exponent starts. -/
theorem endsFraction_exponentText (e : Option Int) (hr : EndsNumber rest) :
    EndsFraction (Numeral.exponentText e ++ rest) := by
  cases e with
  | none => exact hr.endsFraction
  | some e =>
    rintro _ ⟨⟩
    decide

theorem unsigned?_append (n : Numeral) (hn : Numeral.IsWhole n.whole) (hr : EndsNumber rest) :
    unsigned? n.negative (n.whole.map Digit.char ++ (fractionText n.fraction ++
      (Numeral.exponentText n.exponent ++ rest))) = some (n, rest) := by
  have hexponent := endsFraction_exponentText n.exponent hr
  have hfraction := endsDigits_fractionText n.fraction hexponent
  simp only [unsigned?, Option.bind_eq_bind, whole?_append hn hfraction,
    fraction?_append _ hexponent, exponent?_append _ hr, Option.bind_some]
  rfl

/-- **A number is read back,** if it has no superfluous zero in front. -/
theorem numeral?_text {n : Numeral} (hn : Numeral.IsWhole n.whole) (hr : EndsNumber rest) :
    numeral? (n.text ++ rest) = some (n, rest) := by
  have hunsigned := unsigned?_append n hn hr
  unfold Numeral.text
  simp only [List.append_assoc]
  cases hneg : n.negative with
  | true =>
    rw [hneg] at hunsigned
    exact hunsigned
  | false =>
    rw [hneg] at hunsigned
    rw [if_neg Bool.false_ne_true, List.nil_append]
    -- a digit is no sign
    unfold numeral?
    split
    · next cs hcs =>
      obtain ⟨d, ds, hds⟩ := List.exists_cons_of_ne_nil hn.ne_nil
      rw [hds] at hcs
      exact absurd (List.cons.inj hcs).1 (Digit.char_ne (by decide) d)
    · exact hunsigned

end Json
end Cascade
