import Cascade.Proofs.Resolution
import Cascade.Proofs.Scene.Order
import Mathlib.Data.List.Perm.Subperm

/-!
# Where variables lead

A property whose winning declaration is a variable has the value of the property that the
variable names, and so on.  The way from property to property is stated here as a relation,
without a bound on its length: it goes on as long as no property is met twice.  Any way from a
registered property ends, at a value, at a name that is not registered or at a property met
before, because there are no more properties to meet than are registered.

## Main definitions

* `Sources.Refers`, `Sources.Terminal` — what the winning declaration of one property says.
* `Sources.Trail` — the way from a property to another, with the keys it has left behind.
* `Sources.Outcome` — the value of a property and the report, by where its way ends.

## Main results

* `Sources.Trail.destination_eq` — the bound on the properties followed is never met.
* `Sources.exists_outcome` — every way ends.
* `Sources.resolve_outcome` — **resolving a key gives the outcome, for all registered keys.**
-/

namespace Cascade
namespace Sources

/-- The winning declaration of the property is a variable with the name, and no reset. -/
def Refers (s : Sources) (p : Property) (name : String) : Prop :=
  ∃ c, s.ranking.winner p = some c ∧ c.declaration.mode ≠ .initial ∧
    c.declaration.payload = some (.variable name)

/-- The property has a value without a look at another property. -/
inductive Terminal (s : Sources) (p : Property) : Value → Prop where
  /-- The winning declaration is a reset. -/
  | reset {c : Candidate} (hw : s.ranking.winner p = some c)
      (hm : c.declaration.mode = .initial) : Terminal s p p.initial
  /-- The winning declaration is a literal. -/
  | literal {c : Candidate} {v : Value} (hw : s.ranking.winner p = some c)
      (hm : c.declaration.mode ≠ .initial) (hv : c.declaration.payload = some (.literal v)) :
      Terminal s p v
  /-- Nothing provides a value, and one is taken over. -/
  | inherited {v : Value} (hw : s.ranking.winner p = none) (hp : p.inheritable = true)
      (hv : s.snapshot.get? p.key = some v) : Terminal s p v
  /-- Nothing provides a value, and none is taken over. -/
  | initial (hw : s.ranking.winner p = none)
      (hv : p.inheritable = true → s.snapshot.get? p.key = none) : Terminal s p p.initial

/-- From `p` variables lead to `q`.  The keys left behind, in the order of the visit, are
`visited`, and none of them was met twice. -/
inductive Trail (s : Sources) (p : Property) : List String → Property → Prop where
  /-- At the property itself nothing is left behind. -/
  | start : Trail s p [] p
  /-- The way goes on from a property that it has not met before. -/
  | next {visited : List String} {q r : Property} {name : String} (ht : Trail s p visited q)
      (hq : q.key ∉ visited) (hn : s.Refers q name) (hr : s.registry.lookup name = some r) :
      Trail s p (visited ++ [q.key]) r

/-- The value of a property, and what is reported, by where its way ends. -/
inductive Outcome (s : Sources) (p : Property) : Value → Option Problem → Prop where
  /-- At a value of the right kind. -/
  | value {visited : List String} {q : Property} {v : Value} (ht : Trail s p visited q)
      (hq : q.key ∉ visited) (hv : s.Terminal q v) (hk : v.kind = p.kind) : Outcome s p v none
  /-- At a value of another kind. -/
  | mismatch {visited : List String} {q : Property} {v : Value} (ht : Trail s p visited q)
      (hq : q.key ∉ visited) (hv : s.Terminal q v) (hk : v.kind ≠ p.kind) :
      Outcome s p p.initial (some (.typeMismatch p.kind v.kind))
  /-- At a name that is not registered. -/
  | unknown {visited : List String} {q : Property} {name : String} (ht : Trail s p visited q)
      (hq : q.key ∉ visited) (hn : s.Refers q name) (hr : s.registry.lookup name = none) :
      Outcome s p p.initial (some (.unknownVariable name))
  /-- At a property that was met before. -/
  | cycle {visited : List String} {q : Property} (ht : Trail s p visited q)
      (hq : q.key ∈ visited) :
      Outcome s p p.initial (some (.variableCycle (visited ++ [q.key])))

variable {s : Sources} {p q r : Property} {visited : List String} {name : String} {v : Value}

/-! ### One property -/

/-- A winning declaration provides something, so there are no other cases. -/
theorem terminal_or_refers (s : Sources) (q : Property) :
    (∃ v, s.Terminal q v) ∨ ∃ name, s.Refers q name := by
  cases hw : s.ranking.winner q with
  | none =>
    by_cases hi : q.inheritable = true
    · cases hv : s.snapshot.get? q.key with
      | none => exact Or.inl ⟨_, Terminal.initial hw fun _ => hv⟩
      | some v => exact Or.inl ⟨v, Terminal.inherited hw hi hv⟩
    · exact Or.inl ⟨_, Terminal.initial hw fun h => absurd h hi⟩
  | some c =>
    obtain ⟨-, -, -, hc, -⟩ := Ranking.winner_eq_some_iff.1 hw
    obtain hm | ⟨hm, ⟨name, hn⟩ | ⟨v, hv, -⟩⟩ := hc
    · exact Or.inl ⟨_, Terminal.reset hw hm⟩
    · exact Or.inr ⟨name, c, hw, by rw [hm]; decide, hn⟩
    · exact Or.inl ⟨v, Terminal.literal hw (by rw [hm]; decide) hv⟩

theorem follow_cycle (hq : q.key ∈ visited) (n : Nat) :
    s.follow n visited q = .cycle (visited ++ [q.key]) := by
  cases n with
  | zero => rfl
  | succ n => rw [follow, if_pos hq]

theorem follow_terminal (hq : q.key ∉ visited) (hv : s.Terminal q v) (n : Nat) :
    s.follow (n + 1) visited q = .value v := by
  rw [follow, if_neg hq]
  cases hv with
  | reset hw hm => simp only [hw, hm]
  | literal hw hm hv => simp only [hw, hv]
  | inherited hw hp hv =>
    simp only [hw, fallback, hp, hv, Option.getD_some, if_true]
  | initial hw hv =>
    simp only [hw, fallback]
    split
    · next hp => rw [hv hp, Option.getD_none]
    · rfl

/-- At a variable the way goes on with the property that it names, if there is one. -/
theorem follow_refers (hq : q.key ∉ visited) (hn : s.Refers q name) (n : Nat) :
    s.follow (n + 1) visited q =
      match s.registry.lookup name with
      | none => .unknown name
      | some r => s.follow n (visited ++ [q.key]) r := by
  obtain ⟨c, hw, hm, hp⟩ := hn
  rw [follow, if_neg hq]
  cases hmode : c.declaration.mode with
  | initial => exact absurd hmode hm
  | given => cases hl : s.registry.lookup name <;> simp only [hw, hmode, hp, hl]
  | inherited => cases hl : s.registry.lookup name <;> simp only [hw, hmode, hp, hl]

/-! ### The way -/

namespace Trail

theorem nodup (ht : s.Trail p visited q) : visited.Nodup := by
  induction ht with
  | start => exact List.nodup_nil
  | next _ hq _ _ ih => exact ih.append (List.nodup_singleton _) (by simpa using hq)

/-- Only registered properties are met. -/
theorem registered (hp : s.registry.lookup p.key = some p) (ht : s.Trail p visited q) :
    q ∈ s.registry.properties ∧ visited ⊆ s.registry.properties.map (·.key) := by
  induction ht with
  | start => exact ⟨(Registry.lookup_eq_some_iff.1 hp).1, List.nil_subset _⟩
  | next _ _ _ hr ih =>
    refine ⟨(Registry.lookup_eq_some_iff.1 hr).1, ?_⟩
    rw [List.append_subset]
    exact ⟨ih.2, by simpa using List.mem_map_of_mem ih.1⟩

/-- No more keys are left behind than are registered. -/
theorem length_le (hp : s.registry.lookup p.key = some p) (ht : s.Trail p visited q) :
    visited.length ≤ s.registry.size := by
  have hsub := List.subperm_of_subset ht.nodup (ht.registered hp).2
  simpa [Registry.size] using hsub.length_le

/-- The first key that is left behind is that of the property itself. -/
theorem head?_append (ht : s.Trail p visited q) : (visited ++ [q.key]).head? = some p.key := by
  induction ht with
  | start => rfl
  | next _ _ _ _ ih => rw [List.head?_append, ih, Option.some_or]

/-- Following variables from the property is following them from where the way has led. -/
theorem follow_eq (ht : s.Trail p visited q) (n : Nat) :
    s.follow (visited.length + n) [] p = s.follow n visited q := by
  induction ht generalizing n with
  | start => rw [List.length_nil, Nat.zero_add]
  | next _ hq hn hr ih =>
    rw [List.length_append, List.length_singleton, Nat.add_assoc, Nat.add_comm 1, ih,
      follow_refers hq hn, hr]

/-- At every property that is met, there is a step left of those that were allowed for. -/
theorem destination_eq (hp : s.registry.lookup p.key = some p) (ht : s.Trail p visited q) :
    s.destination p = s.follow (s.registry.size - visited.length + 1) visited q := by
  have hle := ht.length_le hp
  rw [destination, ← ht.follow_eq]
  congr 1
  omega

end Trail

/-- **Every way ends.** -/
theorem exists_outcome (hp : s.registry.lookup p.key = some p) :
    ∃ v problem, s.Outcome p v problem := by
  -- the way can be made longer only as often as there are keys that were not met
  have hstep : ∀ (n : Nat) (visited : List String) (q : Property), s.Trail p visited q →
      s.registry.size < visited.length + n → ∃ v problem, s.Outcome p v problem := by
    intro n
    induction n with
    | zero =>
      intro visited q ht hn
      have hle := ht.length_le hp
      omega
    | succ n ih =>
      intro visited q ht hn
      by_cases hq : q.key ∈ visited
      · exact ⟨_, _, Outcome.cycle ht hq⟩
      obtain ⟨v, hv⟩ | ⟨name, hname⟩ := s.terminal_or_refers q
      · by_cases hk : v.kind = p.kind
        · exact ⟨_, _, Outcome.value ht hq hv hk⟩
        · exact ⟨_, _, Outcome.mismatch ht hq hv hk⟩
      · cases hr : s.registry.lookup name with
        | none => exact ⟨_, _, Outcome.unknown ht hq hname hr⟩
        | some r =>
          refine ih _ r (Trail.next ht hq hname hr) ?_
          rw [List.length_append, List.length_singleton]
          omega
  exact hstep (s.registry.size + 1) [] p Trail.start (by simp)

/-- What is settled is the outcome of the way, wherever it ends. -/
theorem Outcome.settle_eq {problem : Option Problem} (hp : s.registry.lookup p.key = some p)
    (ho : s.Outcome p v problem) : s.settle p = (v, problem) := by
  cases ho with
  | value ht hq hv hk =>
    simp only [settle, ht.destination_eq hp, follow_terminal hq hv, if_pos hk]
  | mismatch ht hq hv hk =>
    simp only [settle, ht.destination_eq hp, follow_terminal hq hv, if_neg hk]
  | unknown ht hq hn hr =>
    simp only [settle, ht.destination_eq hp, follow_refers hq hn, hr]
  | cycle ht hq => simp only [settle, ht.destination_eq hp, follow_cycle hq]

/-- What is settled is an outcome, and it has no other. -/
theorem settle_eq_iff {problem : Option Problem} (hp : s.registry.lookup p.key = some p) :
    s.settle p = (v, problem) ↔ s.Outcome p v problem := by
  constructor
  · intro hs
    obtain ⟨v', problem', ho⟩ := exists_outcome hp
    rw [ho.settle_eq hp] at hs
    cases hs
    exact ho
  · exact fun ho => ho.settle_eq hp

/-- There is an answer exactly for registered keys. -/
theorem isSome_resolve {key : String} :
    (s.resolve key).isSome = true ↔ ∃ p ∈ s.registry.properties, p.key = key := by
  rw [resolve, Option.isSome_map, Option.isSome_iff_exists]
  simp only [Registry.lookup_eq_some_iff]

/-- An answer is the outcome of the way, with the report about the key itself. -/
theorem resolve_eq_some_iff {key : String} {d : Option Diagnostic} :
    s.resolve key = some (v, d) ↔ ∃ p ∈ s.registry.properties, p.key = key ∧
      ∃ problem, s.Outcome p v problem ∧ d = problem.map fun x => ⟨s.element, key, x⟩ := by
  rw [resolve, Option.map_eq_some_iff]
  simp only [Registry.lookup_eq_some_iff, and_assoc, Prod.mk.injEq]
  refine exists_congr fun p => and_congr_right fun hp => and_congr_right fun _ => ?_
  have hlook := Registry.lookup_of_mem hp
  constructor
  · rintro ⟨rfl, rfl⟩
    exact ⟨(s.settle p).2, (settle_eq_iff hlook).1 rfl, rfl⟩
  · rintro ⟨problem, ho, rfl⟩
    rw [ho.settle_eq hlook]
    exact ⟨rfl, rfl⟩

/-- A circle that is reported starts with the property itself, meets no key twice before its
last one, and that one was met before. -/
theorem Outcome.circle {chain : List String}
    (ho : s.Outcome p v (some (.variableCycle chain))) :
    ∃ front last, chain = front ++ [last] ∧ front.head? = some p.key ∧ front.Nodup ∧
      last ∈ front := by
  cases ho with
  | @cycle visited q ht hq =>
    have hhead := ht.head?_append
    rw [List.head?_append_of_ne_nil _ (List.ne_nil_of_mem hq)] at hhead
    exact ⟨visited, q.key, rfl, hhead, ht.nodup, hq⟩

/-- **Resolving a key gives the outcome of its way.**  There is an answer exactly for registered
keys.  The value is the one at the end of the way, or else the initial value with one report;
a circle is reported with the keys in the order of the visit, from the key itself on and up to
the one that was met again. -/
theorem resolve_outcome (s : Sources) (key : String) :
    ((s.resolve key).isSome = true ↔ ∃ p ∈ s.registry.properties, p.key = key) ∧
    (∀ v d, s.resolve key = some (v, d) ↔ ∃ p ∈ s.registry.properties, p.key = key ∧
      ∃ problem, s.Outcome p v problem ∧ d = problem.map fun x => ⟨s.element, key, x⟩) ∧
    ∀ v chain, s.resolve key = some (v, some ⟨s.element, key, .variableCycle chain⟩) →
      ∃ front last, chain = front ++ [last] ∧ front.head? = some key ∧ front.Nodup ∧
        last ∈ front := by
  refine ⟨isSome_resolve, fun v d => resolve_eq_some_iff, ?_⟩
  intro v chain h
  obtain ⟨p, -, rfl, problem, ho, hd⟩ := resolve_eq_some_iff.1 h
  cases problem with
  | none => cases hd
  | some problem =>
    cases hd
    exact ho.circle

-- The circle need not hold the key that is resolved.
example :
    let refer (key name : String) : Candidate :=
      ⟨key, .inline, ⟨key, .given, some (.variable name)⟩, ⟨0, 0, 0⟩, true⟩
    let s : Sources := {
      element := ⟨0, 0⟩
      registry := ⟨[⟨"fill", .text, false, .text "none"⟩, ⟨"edge", .text, false, .text "thin"⟩,
        ⟨"glow", .text, true, .text "soft"⟩], by decide⟩
      ranking := .ofCandidates [refer "fill" "edge", refer "edge" "glow", refer "glow" "edge"]
      snapshot := {} }
    s.resolve "fill" = some (.text "none",
      some ⟨⟨0, 0⟩, "fill", .variableCycle ["fill", "edge", "glow", "edge"]⟩) := by
  decide

end Sources
end Cascade
