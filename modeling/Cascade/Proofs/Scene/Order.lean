import Cascade.Forest.Link
import Cascade.Proofs.Resolution
import Cascade.Proofs.Scene.Groups

/-!
# The order of the cascade

Which declarations reach an element, and in which order: first the inline ones,
the last in front, then those of rules that apply to the element, then, if the
property is inheritable, those of rules that apply to an ancestor only.  Rules are
taken with every declaration of the property, each once, by specificity and then by
their place: the sheet in the list of sheets, the rule in the sheet, and the
declaration in the rule.

The order is told by places, without the loop that looks at them: at each place
stands one declaration or none, and what stands there determines the candidates.

## Main definitions

* `Declaration.Provides` — what makes a candidate the winner.
* `Scene.Place`, `Scene.RefersTo` — the reference to what stands at a place.
* `Scene.RanksReferences` — the references of all places, ranked.
* `Scene.InOrder` — the order, for all properties.

## Main results

* `Scene.InOrder.candidates_eq` — **the order determines the candidates.**
* `Scene.inOrder_recalculate` — **a ranking filled anew has the order, whatever it held.**
-/

namespace Cascade

/-- The declaration resets the property, or gives it the value of a variable, or gives
it a literal of the kind of its values. -/
def Declaration.Provides (d : Declaration) (p : Property) : Prop :=
  d.mode = .initial ∨ d.mode = .given ∧
    ((∃ name, d.payload = some (.variable name)) ∨
      ∃ v, d.payload = some (.literal v) ∧ v.kind = p.kind)

theorem Declaration.provides_iff {d : Declaration} {p : Property} :
    d.provides p = true ↔ d.Provides p := by
  obtain ⟨key, mode, payload⟩ := d
  unfold Declaration.provides Declaration.Provides
  cases mode with
  | inherited => simp
  | initial => simp
  | given =>
    cases payload with
    | none => simp
    | some payload => cases payload <;> simp

/-- The winner is the first candidate that provides a value. -/
theorem Ranking.winner_eq_some_iff {r : Ranking} {p : Property} {c : Candidate} :
    r.winner p = some c ↔ ∃ front back, r.candidates p.key = front ++ c :: back ∧
      c.declaration.Provides p ∧ ∀ b ∈ front, ¬ b.declaration.Provides p := by
  unfold Ranking.winner
  rw [List.find?_eq_some_iff_append, Declaration.provides_iff]
  constructor
  · rintro ⟨hc, front, back, happ, hfront⟩
    refine ⟨front, back, happ, hc, ?_⟩
    intro b hb hp
    have hb := hfront b hb
    rw [Declaration.provides_iff.2 hp] at hb
    exact absurd hb (by decide)
  · rintro ⟨front, back, happ, hc, hfront⟩
    refine ⟨hc, front, back, happ, ?_⟩
    intro b hb
    rw [Bool.not_eq_true', ← Bool.not_eq_true, Declaration.provides_iff]
    exact hfront b hb

theorem Ranking.winner_eq_none_iff {r : Ranking} {p : Property} :
    r.winner p = none ↔ ∀ c ∈ r.candidates p.key, ¬ c.declaration.Provides p := by
  unfold Ranking.winner
  rw [List.find?_eq_none]
  exact forall₂_congr fun c _ => not_congr Declaration.provides_iff

namespace Scene

variable {s : Scene} {key : String} {p : Property}

/-! ### References by place -/

/-- Where a declaration stands: the position of its sheet among the global sheets with the local
ones behind them, that of its rule in the sheet, and its own in the rule. -/
structure Place where
  /-- The position of the sheet. -/
  sheet : Nat
  /-- The position of the rule. -/
  rule : Nat
  /-- The position of the declaration. -/
  declaration : Nat
  deriving DecidableEq

namespace Place

/-- One place is looked at before another. -/
def Before (a b : Place) : Prop :=
  a.sheet < b.sheet ∨ a.sheet = b.sheet ∧
    (a.rule < b.rule ∨ a.rule = b.rule ∧ a.declaration < b.declaration)

theorem Before.asymm {a b : Place} (hab : a.Before b) : ¬ b.Before a := by
  unfold Before at *
  omega

end Place

/-- There is a declaration of the property at the place, the selector of its rule is among `f`,
and `c` is the reference to it. -/
def RefersTo (s : Scene) (key : String) (exact : Bool) (f : Selector → Prop) (a : Place)
    (c : Candidate) : Prop :=
  ∃ id sheet rule d, (s.catalogue.globalOrder ++ s.localSheets)[a.sheet]? = some id ∧
    s.catalogue.get? id = some sheet ∧ sheet.rules[a.rule]? = some rule ∧
    rule.declarations[a.declaration]? = some d ∧ d.key = key ∧ f rule.selector.selector ∧
    c = { key, origin := .rule id a.rule rule.selector.id, declaration := d,
          specificity := rule.selector.selector.specificity, exact }

/-- `placed` has the references of all places, each once, in the order of the places. -/
structure Lists (s : Scene) (key : String) (exact : Bool) (f : Selector → Prop)
    (placed : List (Place × Candidate)) : Prop where
  /-- A candidate is listed with a place if it is the reference to what stands there. -/
  mem_iff : ∀ a c, (a, c) ∈ placed ↔ s.RefersTo key exact f a c
  /-- Places come in their order, and none comes twice. -/
  ascending : placed.Pairwise fun x y => x.1.Before y.1

/-- `ranked` has the references of all places, ranked: each once, the greater specificity first,
and of equal ones that of the last place. -/
def RanksReferences (s : Scene) (key : String) (exact : Bool) (f : Selector → Prop)
    (ranked : List Candidate) : Prop :=
  ∃ placed, s.Lists key exact f placed ∧ Ranked (placed.map Prod.snd) ranked

section

variable {exact : Bool} {f : Selector → Prop}

/-- What stands at the places determines the list of references. -/
theorem Lists.unique {xs ys : List (Place × Candidate)} (hx : s.Lists key exact f xs)
    (hy : s.Lists key exact f ys) : xs = ys := by
  have hnodup : ∀ {zs}, s.Lists key exact f zs → zs.Nodup := fun hz =>
    hz.ascending.imp fun hab heq => (heq ▸ hab).asymm (heq ▸ hab)
  -- the same members, each once; and of two lists in one order no pair may be exchanged
  have hperm : xs.Perm ys :=
    (List.perm_ext_iff_of_nodup (hnodup hx) (hnodup hy)).2 fun x =>
      (hx.mem_iff x.1 x.2).trans (hy.mem_iff x.1 x.2).symm
  exact hperm.eq_of_pairwise (fun a b _ _ hab hba => absurd hba hab.asymm) hx.ascending hy.ascending

/-- **So they determine the ranked list.** -/
theorem RanksReferences.unique {xs ys : List Candidate} (hx : s.RanksReferences key exact f xs)
    (hy : s.RanksReferences key exact f ys) : xs = ys := by
  obtain ⟨placed, hl, hr⟩ := hx
  obtain ⟨placed', hl', hr'⟩ := hy
  rw [hl.unique hl'] at hr
  exact hr.unique hr'

/-- Positions ascend along a list. -/
theorem pairwise_snd_zipIdx {α : Type} (xs : List α) :
    xs.zipIdx.Pairwise fun x y => x.2 < y.2 := by
  rw [← List.pairwise_map, List.zipIdx_map_snd]
  exact List.pairwise_lt_range'

theorem mem_rulesOf {id : SheetId} {r : PlacedRule} : r ∈ s.rulesOf id ↔
    r.sheet = id ∧ ∃ sheet, s.catalogue.get? id = some sheet ∧
      sheet.rules[r.index]? = some r.rule := by
  unfold rulesOf
  cases s.catalogue.get? id with
  | none => simp
  | some sheet =>
    simp only [List.mem_map, Option.some.injEq, exists_eq_left', Prod.exists,
      List.mem_zipIdx_iff_getElem?]
    constructor
    · rintro ⟨rule, i, hi, rfl⟩
      exact ⟨rfl, hi⟩
    · rintro ⟨rfl, hi⟩
      exact ⟨r.rule, r.index, hi, rfl⟩

theorem pairwise_rulesOf (s : Scene) (id : SheetId) :
    (s.rulesOf id).Pairwise fun r r' => r.index < r'.index := by
  unfold rulesOf
  cases s.catalogue.get? id with
  | none => exact .nil
  | some sheet => exact List.pairwise_map.2 (pairwise_snd_zipIdx sheet.rules)

variable [DecidablePred f]

/-- The references in a rule of the sheet at a position, with their places. -/
def placedInRule (key : String) (exact : Bool) (f : Selector → Prop) [DecidablePred f] (k : Nat)
    (r : PlacedRule) : List (Place × Candidate) :=
  if f r.rule.selector.selector then
    (r.rule.declarations.zipIdx.filter fun x => decide (x.1.key = key)).map fun x =>
      (⟨k, r.index, x.2⟩, reference exact r x.1)
  else []

/-- The references with the places at which they are met. -/
def placedReferences (s : Scene) (key : String) (exact : Bool) (f : Selector → Prop)
    [DecidablePred f] : List (Place × Candidate) :=
  (s.catalogue.globalOrder ++ s.localSheets).zipIdx.flatMap fun (id, k) =>
    (s.rulesOf id).flatMap (placedInRule key exact f k)

theorem map_snd_placedInRule (k : Nat) (r : PlacedRule) :
    (placedInRule key exact f k r).map Prod.snd =
      if f r.rule.selector.selector then
        (declarationsOf key r.rule.declarations).map (reference exact r)
      else [] := by
  -- the position of a declaration is not part of its reference
  have hfilter : (r.rule.declarations.zipIdx.filter fun x => decide (x.1.key = key)).map Prod.fst =
      declarationsOf key r.rule.declarations := by
    conv_rhs => rw [declarationsOf, ← List.zipIdx_map_fst 0 r.rule.declarations, List.filter_map]
    rfl
  unfold placedInRule
  split
  · rw [← hfilter, List.map_map, List.map_map]
    rfl
  · rfl

theorem map_snd_placedReferences :
    (s.placedReferences key exact f).map Prod.snd = s.references key exact f := by
  unfold placedReferences references rules
  conv_rhs => rw [← List.zipIdx_map_fst 0 (s.catalogue.globalOrder ++ s.localSheets),
    List.flatMap_map]
  simp only [List.map_flatMap, List.flatMap_assoc, map_snd_placedInRule]

theorem mem_placedInRule {k : Nat} {r : PlacedRule} {a : Place} {c : Candidate} :
    (a, c) ∈ placedInRule key exact f k r ↔
      a.sheet = k ∧ a.rule = r.index ∧ f r.rule.selector.selector ∧
        ∃ d, r.rule.declarations[a.declaration]? = some d ∧ d.key = key ∧
          c = reference exact r d := by
  unfold placedInRule
  split
  · next hf =>
    simp only [List.mem_map, List.mem_filter, Prod.exists, List.mem_zipIdx_iff_getElem?,
      decide_eq_true_eq, Prod.mk.injEq, hf, true_and]
    constructor
    · rintro ⟨d, j, ⟨hd, hk⟩, rfl, rfl⟩
      exact ⟨rfl, rfl, d, hd, hk, rfl⟩
    · rintro ⟨rfl, hr, d, hd, hk, rfl⟩
      exact ⟨d, a.declaration, ⟨hd, hk⟩, by rw [← hr], rfl⟩
  · next hf => exact iff_of_false List.not_mem_nil fun h => hf h.2.2.1

theorem mem_placedReferences {a : Place} {c : Candidate} :
    (a, c) ∈ s.placedReferences key exact f ↔ s.RefersTo key exact f a c := by
  simp only [placedReferences, List.mem_flatMap, Prod.exists, List.mem_zipIdx_iff_getElem?]
  constructor
  · rintro ⟨id, k, hid, r, hr, hmem⟩
    obtain ⟨rfl, sheet, hs, hrule⟩ := mem_rulesOf.1 hr
    obtain ⟨rfl, hi, hf, d, hd, rfl, rfl⟩ := mem_placedInRule.1 hmem
    rw [← hi] at hrule
    exact ⟨r.sheet, sheet, r.rule, d, hid, hs, hrule, hd, rfl, hf, by rw [hi]; rfl⟩
  · rintro ⟨id, sheet, rule, d, hid, hs, hrule, hd, rfl, hf, rfl⟩
    exact ⟨id, a.sheet, hid, ⟨id, a.rule, rule⟩, mem_rulesOf.2 ⟨rfl, sheet, hs, hrule⟩,
      mem_placedInRule.2 ⟨rfl, rfl, hf, d, hd, rfl, rfl⟩⟩

theorem pairwise_placedInRule (k : Nat) (r : PlacedRule) :
    (placedInRule key exact f k r).Pairwise fun x y => x.1.Before y.1 := by
  unfold placedInRule
  split
  · refine List.pairwise_map.2 (((pairwise_snd_zipIdx _).filter _).imp ?_)
    exact fun hlt => .inr ⟨rfl, .inr ⟨rfl, hlt⟩⟩
  · exact .nil

/-- Sheets come in the order of the list, rules in that of their sheet, and declarations in that
of their rule. -/
theorem pairwise_placedReferences :
    (s.placedReferences key exact f).Pairwise fun x y => x.1.Before y.1 := by
  refine List.pairwise_flatMap.2 ⟨?_, (pairwise_snd_zipIdx _).imp ?_⟩
  · intro x _
    refine List.pairwise_flatMap.2 ⟨fun r _ => pairwise_placedInRule x.2 r,
      (s.pairwise_rulesOf x.1).imp ?_⟩
    intro r r' hlt y hy y' hy'
    -- two rules of one sheet
    obtain ⟨hk, hr, -⟩ := mem_placedInRule.1 hy
    obtain ⟨hk', hr', -⟩ := mem_placedInRule.1 hy'
    exact .inr ⟨hk.trans hk'.symm, .inl (by rwa [hr, hr'])⟩
  · intro x x' hlt y hy y' hy'
    -- two sheets, or two positions of one sheet
    obtain ⟨r, -, hy⟩ := List.mem_flatMap.1 hy
    obtain ⟨r', -, hy'⟩ := List.mem_flatMap.1 hy'
    exact .inl (by rwa [(mem_placedInRule.1 hy).1, (mem_placedInRule.1 hy').1])

theorem lists_placedReferences : s.Lists key exact f (s.placedReferences key exact f) :=
  ⟨fun _ _ => mem_placedReferences, pairwise_placedReferences⟩

/-- The references, placed one after the other, are ranked. -/
theorem ranksReferences_placeAll :
    s.RanksReferences key exact f (Standing.placeAll (s.references key exact f)) :=
  ⟨s.placedReferences key exact f, lists_placedReferences, by
    rw [map_snd_placedReferences]
    exact ranked_placeAll _⟩

end

/-! ### The order -/

/-- **The order of the cascade,** for a ranking of the scene. -/
structure InOrder (s : Scene) (r : Ranking) : Prop where
  /-- A property that is not registered has no candidates. -/
  unregistered : ∀ {key : String}, s.registry.lookup key = none → r.candidates key = []
  /-- The candidates of a registered property: its inline declarations, the last first; its
  declarations in rules that apply to the element, ranked; and, if it is inheritable, those
  in rules that apply to an ancestor only, ranked. -/
  registered : ∀ {key : String} {p : Property}, s.registry.lookup key = some p →
    ∃ matched inherited,
      r.candidates key =
        ((declarationsOf key s.inline).map inlineReference).reverse ++ matched ++ inherited ∧
      s.RanksReferences key true s.Applies matched ∧
      (p.inheritable = true → s.RanksReferences key false s.AppliesAbove inherited) ∧
      (p.inheritable = false → inherited = [])
  /-- The winner is the first candidate that provides a value. -/
  winner_eq_some : ∀ {key : String} {p : Property}, s.registry.lookup key = some p →
    ∀ c, r.winner p = some c ↔ ∃ front back, r.candidates key = front ++ c :: back ∧
      c.declaration.Provides p ∧ ∀ b ∈ front, ¬ b.declaration.Provides p
  /-- There is no winner if none provides a value. -/
  winner_eq_none : ∀ {key : String} {p : Property}, s.registry.lookup key = some p →
    (r.winner p = none ↔ ∀ c ∈ r.candidates key, ¬ c.declaration.Provides p)

/-- **The order determines the candidates.** -/
theorem InOrder.candidates_eq {r r' : Ranking} (h : s.InOrder r) (h' : s.InOrder r')
    (key : String) : r.candidates key = r'.candidates key := by
  cases hp : s.registry.lookup key with
  | none => rw [h.unregistered hp, h'.unregistered hp]
  | some p =>
    obtain ⟨matched, inherited, heq, hm, hi, hn⟩ := h.registered hp
    obtain ⟨matched', inherited', heq', hm', hi', hn'⟩ := h'.registered hp
    -- what is taken over is ranked only if the property is inheritable, and else there is none
    have hinherited : inherited = inherited' := by
      cases hp : p.inheritable with
      | true => exact (hi hp).unique (hi' hp)
      | false => rw [hn hp, hn' hp]
    rw [heq, heq', hm.unique hm', hinherited]

theorem inOrder_ranking (s : Scene) : s.InOrder s.ranking where
  unregistered := fun {key} hn => by
    rw [Ranking.candidates_eq, group_unregistered hn, group_unregistered hn, group_unregistered hn]
    rfl
  registered := fun {key p} hp => by
    refine ⟨_, (s.ranking.standing key).group .inherited, ?_, ranksReferences_placeAll,
      fun hi => ?_, fun hi => ?_⟩
    · rw [Ranking.candidates_eq, group_inline hp, group_matched hp]
    · rw [group_inherited hp, if_pos hi]
      exact ranksReferences_placeAll
    · rw [group_inherited hp, if_neg (by rw [hi]; decide)]
      rfl
  winner_eq_some := fun {key p} hp c => by
    rw [Ranking.winner_eq_some_iff, (Registry.lookup_eq_some_iff.1 hp).2]
  winner_eq_none := fun {key p} hp => by
    rw [Ranking.winner_eq_none_iff, (Registry.lookup_eq_some_iff.1 hp).2]

/-! ### A ranking filled anew -/

/-- **A ranking that is filled anew has the order of the cascade,** whatever it held before, and
has the candidates of every ranking of which this can be said. -/
theorem inOrder_recalculate (s : Scene) (before : Ranking) :
    s.recalculate before = s.ranking ∧ s.InOrder (s.recalculate before) ∧
      ∀ r, s.InOrder r → ∀ key, r.candidates key = (s.recalculate before).candidates key := by
  have horder : s.InOrder (s.recalculate before) := s.recalculate_eq before ▸ s.inOrder_ranking
  exact ⟨s.recalculate_eq before, horder, fun r hr key => hr.candidates_eq horder key⟩

/-- A button in a window. -/
def buttonWindow : Forest :=
  let t := (({} : Forest).insert { (default : Element) with typeName := "Window" }).2
  let t := (t.insert { (default : Element) with typeName := "Button" }).2
  (t.attach ⟨1, 0⟩ ⟨0, 0⟩).2

/-- A sheet of a developer with two declarations of one property in a rule, a later one of the
system, and a local sheet with rules for anything, for buttons and for windows. -/
def layeredSheets : Catalogue :=
  let (_, c, l) := ({} : Catalogue).insertGlobal {}
    { rules := [⟨"Button", [.ofLiteral "opacity" (.int 10), .ofLiteral "opacity" (.int 20)]⟩] }
  let (_, c, l) := c.insertGlobal l
    { rules := [⟨"Button", [.ofLiteral "width" (.int 4), .ofLiteral "opacity" (.int 30)]⟩,
        ⟨"Window", [.ofLiteral "opacity" (.int 40), .ofLiteral "width" (.int 9)]⟩]
      readOnly := true }
  let (_, c, _) := c.insertLocal l
    { rules := [⟨"*", [.ofInherited "opacity"]⟩, ⟨"Button", [.ofVariable "opacity" "width"]⟩,
        ⟨"Window", [.ofInitial "opacity"]⟩] }
  c

/-- The button with these sheets, of which the local one is listed twice, with a number that has
no sheet in between.  Only one of the two properties is inheritable, and a key is misspelt. -/
def layeredButton : Scene where
  element := ⟨1, 0⟩
  context := { forest := buttonWindow }
  catalogue := layeredSheets
  localSheets := [⟨2⟩, ⟨7⟩, ⟨2⟩]
  inline := [.ofInherited "opacity", .ofLiteral "opacty" (.int 60),
    .ofLiteral "opacity" (.text "50")]
  registry :=
    let r := ((({} : Registry).register? "opacity" (.int 100) true).map Prod.snd).getD {}
    ((r.register? "width" (.int 1) false).map Prod.snd).getD {}

/-- The local sheet counts twice and stands in front of the developer's, and that in front of the
system's; the rule for anything comes last of those that apply to the button itself.  Of the window
only the opacity is taken over, and what the ranking held before is gone. -/
theorem inOrder_layeredButton :
    let before : Ranking := .ofCandidates [inlineReference (.ofInitial "width")]
    let r := layeredButton.recalculate before
    before.candidates "width" ≠ [] ∧
    layeredButton.catalogue.globalOrder = [⟨1⟩, ⟨0⟩] ∧
    (r.candidates "opacity").map (fun c => (c.origin, c.declaration.payload, c.exact)) =
      [(.inline, some (.literal (.text "50")), true), (.inline, none, true),
        (.rule ⟨2⟩ 1 ⟨0⟩, some (.variable "width"), true),
        (.rule ⟨2⟩ 1 ⟨0⟩, some (.variable "width"), true),
        (.rule ⟨0⟩ 0 ⟨0⟩, some (.literal (.int 20)), true),
        (.rule ⟨0⟩ 0 ⟨0⟩, some (.literal (.int 10)), true),
        (.rule ⟨1⟩ 0 ⟨0⟩, some (.literal (.int 30)), true),
        (.rule ⟨2⟩ 0 ⟨2⟩, none, true), (.rule ⟨2⟩ 0 ⟨2⟩, none, true),
        (.rule ⟨2⟩ 2 ⟨1⟩, none, false), (.rule ⟨2⟩ 2 ⟨1⟩, none, false),
        (.rule ⟨1⟩ 1 ⟨1⟩, some (.literal (.int 40)), false)] ∧
    (r.candidates "width").map (·.origin) = [.rule ⟨1⟩ 0 ⟨0⟩] ∧
    r.candidates "opacty" = [] ∧
    (r.winner ⟨"opacity", .int, true, .int 100⟩).map (·.origin) = some (.rule ⟨2⟩ 1 ⟨0⟩) ∧
    layeredButton.InOrder r := by
  intro before r
  obtain ⟨-, horder, -⟩ := inOrder_recalculate layeredButton before
  exact ⟨by decide, by decide +kernel, by decide +kernel, by decide +kernel,
    horder.unregistered (by decide), by decide +kernel, horder⟩

end Scene
end Cascade
