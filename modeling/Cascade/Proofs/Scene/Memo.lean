import Cascade.Scene

/-!
# Ranking by way of a memo

A memo whose answers are all right gives the ranking that is worked out without one,
and is left with answers that are all right.  What makes an answer right is left open
here: it may be any property of questions and answers that, for the selectors of the
scene, comes down to the answer of the scene.

## Main definitions

* `Memo.Keeps` — every answer kept has a property.

## Main results

* `Scene.rankingMemo_eq` — **the memo makes no difference to the ranking.**
-/

namespace Cascade

variable {m : Memo} {P : MemoKey → Bool → Prop}

/-- Every answer kept has the property. -/
def Memo.Keeps (m : Memo) (P : MemoKey → Bool → Prop) : Prop :=
  ∀ k b, m.entries.get? k = some b → P k b

namespace Memo

theorem Keeps.mono {Q : MemoKey → Bool → Prop} (hm : m.Keeps P) (h : ∀ k b, P k b → Q k b) :
    m.Keeps Q := fun k b hb => h k b (hm k b hb)

theorem keeps_empty (h : m.entries = {}) : m.Keeps P := fun k b hb => by
  rw [h] at hb
  cases hb

/-- A question with one right answer is answered right, and the answer may be kept. -/
theorem Keeps.ask (hm : m.Keeps P) {key : MemoKey} (answer : Unit → Bool)
    (hP : ∀ b, P key b ↔ b = answer ()) :
    (m.ask key answer).1 = answer () ∧ (m.ask key answer).2.Keeps P := by
  unfold Memo.ask
  cases hb : m.entries.get? key with
  | some b => exact ⟨(hP b).1 (hm key b hb), hm⟩
  | none =>
    refine ⟨rfl, ?_⟩
    intro k b hk
    -- an answer is kept now if it was kept before, or if it is the new one
    rw [Table.get?_insert] at hk
    split at hk
    · next h =>
      rw [← h]
      exact (hP b).2 (Option.some.inj hk).symm
    · exact hm k b hk

/-- What holds of a question whatever the answer holds of the answer that is kept. -/
theorem Keeps.ask_of_forall (hm : m.Keeps P) {key : MemoKey} (answer : Unit → Bool)
    (hP : ∀ b, P key b) : (m.ask key answer).2.Keeps P := by
  unfold Memo.ask
  cases m.entries.get? key with
  | some b => exact hm
  | none =>
    intro k b hk
    rw [Table.get?_insert] at hk
    split at hk
    · next h => exact h ▸ hP b
    · exact hm k b hk

end Memo

namespace Scene

variable {s : Scene}

/-- A selector reaches the element by way of the memo as it does without. -/
theorem reachMemo_eq (hm : m.Keeps P) {i : IndexedSelector}
    (hP : ∀ q b, P ⟨i.id, s.element, q⟩ b ↔ b = s.answer i.selector q) :
    (s.reachMemo m i).1 = s.reach i.selector ∧ (s.reachMemo m i).2.Keeps P := by
  unfold reachMemo reach
  split
  · exact ⟨rfl, hm⟩
  · obtain ⟨hb, hm₁⟩ := hm.ask (fun _ => s.answer i.selector .itself) (hP .itself)
    split
    · next m₁ hask =>
      rw [hask] at hb hm₁
      rw [if_pos hb.symm]
      exact ⟨rfl, hm₁⟩
    · next m₁ hask =>
      rw [hask] at hb hm₁
      -- the second question is asked only if the answer to the first is no
      obtain ⟨hb', hm₂⟩ := hm₁.ask (fun _ => s.answer i.selector .above) (hP .above)
      rw [if_neg fun h => by rw [← hb] at h; cases h]
      split
      · next m₂ hask' =>
        rw [hask'] at hb' hm₂
        rw [if_pos hb'.symm]
        exact ⟨rfl, hm₂⟩
      · next m₂ hask' =>
        rw [hask'] at hb' hm₂
        rw [if_neg fun h => by rw [← hb'] at h; cases h]
        exact ⟨rfl, hm₂⟩

theorem applyingMemo_eq (rs : List PlacedRule) (hm : m.Keeps P)
    (hP : ∀ r ∈ rs, ∀ q b, P ⟨r.rule.selector.id, s.element, q⟩ b ↔
      b = s.answer r.rule.selector.selector q) :
    (s.applyingMemo m rs).1 =
        rs.filterMap (fun r => (s.reach r.rule.selector.selector).map (r, ·)) ∧
      (s.applyingMemo m rs).2.Keeps P := by
  induction rs generalizing m with
  | nil => exact ⟨rfl, hm⟩
  | cons r rs ih =>
    have hr := reachMemo_eq hm (hP r (List.mem_cons_self ..))
    have hrest : ∀ r' ∈ rs, ∀ q b, P ⟨r'.rule.selector.id, s.element, q⟩ b ↔
        b = s.answer r'.rule.selector.selector q := by
      intro r' hr'
      exact hP r' (List.mem_cons_of_mem r hr')
    rw [applyingMemo, List.filterMap_cons, ← hr.1]
    split
    · next m₁ hreach =>
      rw [hreach] at hr
      rw [hreach]
      exact ih hr.2 hrest
    · next q m₁ hreach =>
      rw [hreach] at hr
      rw [hreach]
      obtain ⟨happlying, hm₂⟩ := ih hr.2 hrest
      exact ⟨congrArg _ happlying, hm₂⟩

/-- **The memo makes no difference to the ranking,** as long as its answers are right,
and right they remain. -/
theorem rankingMemo_eq (hm : m.Keeps P)
    (hP : ∀ r ∈ s.rules, ∀ q b, P ⟨r.rule.selector.id, s.element, q⟩ b ↔
      b = s.answer r.rule.selector.selector q) :
    (s.rankingMemo m).1 = s.ranking ∧ (s.rankingMemo m).2.Keeps P := by
  obtain ⟨happlying, hm'⟩ := applyingMemo_eq s.rules hm hP
  refine ⟨?_, hm'⟩
  show Ranking.ofCandidates (s.candidates (s.applyingMemo m s.rules).1) = s.ranking
  rw [happlying]
  rfl

/-! ### What is asked about -/

theorem keeps_reachMemo (hm : m.Keeps P) {i : IndexedSelector}
    (hP : ∀ q b, P ⟨i.id, s.element, q⟩ b) : (s.reachMemo m i).2.Keeps P := by
  unfold reachMemo
  split
  · exact hm
  · have hm₁ := hm.ask_of_forall (fun _ => s.answer i.selector .itself) (hP .itself)
    split
    · next m₁ hask => rwa [hask] at hm₁
    · next m₁ hask =>
      rw [hask] at hm₁
      have hm₂ := hm₁.ask_of_forall (fun _ => s.answer i.selector .above) (hP .above)
      split
      · next m₂ hask' => rwa [hask'] at hm₂
      · next m₂ hask' => rwa [hask'] at hm₂

theorem keeps_applyingMemo (rs : List PlacedRule) (hm : m.Keeps P)
    (hP : ∀ r ∈ rs, ∀ q b, P ⟨r.rule.selector.id, s.element, q⟩ b) :
    (s.applyingMemo m rs).2.Keeps P := by
  induction rs generalizing m with
  | nil => exact hm
  | cons r rs ih =>
    have hm₁ := keeps_reachMemo hm (hP r List.mem_cons_self)
    have hrest : ∀ r' ∈ rs, ∀ q b, P ⟨r'.rule.selector.id, s.element, q⟩ b :=
      fun r' hr' => hP r' (List.mem_cons_of_mem r hr')
    rw [applyingMemo]
    split
    · next m₁ hreach =>
      rw [hreach] at hm₁
      exact ih hm₁ hrest
    · next q m₁ hreach =>
      rw [hreach] at hm₁
      exact ih hm₁ hrest

/-- The memo is asked about the element and the selectors of the rules, and about nothing else. -/
theorem keeps_rankingMemo (hm : m.Keeps P)
    (hP : ∀ r ∈ s.rules, ∀ q b, P ⟨r.rule.selector.id, s.element, q⟩ b) :
    (s.rankingMemo m).2.Keeps P := keeps_applyingMemo s.rules hm hP

end Scene
end Cascade
