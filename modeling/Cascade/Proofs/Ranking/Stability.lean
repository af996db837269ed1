import Cascade.Proofs.Ranking

/-!
# Ranking is a stable sort

Candidates may arrive in any order, those of one property between those of others, and
with anything in their fields: an inline one may have a specificity, or not apply to the
element.  Whatever arrives, the candidates of a property end up sorted by their group and
then by their specificity, and of those that agree in both the last to arrive is in front.
So an arrival counts for the others only if these agree with it in property, group and
specificity.

## Main definitions

* `Precedes` — the order of numbered candidates across the groups.
* `StablySorted` — the candidates of one property in that order.
* `Candidate.Tied`, `InTurn` — candidates told apart by their arrival alone, and arrivals whose
  numbers do so.
* `Rearranged` — another order of arrival, with tied candidates in the same order.
* `Standing.bisect`, `Standing.seat` — the search for a place by halving.

## Main results

* `Ranking.numbered_group` — arrivals in turn fill each group in order.
* `Ranking.numbered_candidates` — so they do all groups together.
* `Standing.place_eq_seat` — halving finds the place, since the group is in order.
* `Ranking.stablySorted_ofCandidates` — **every sequence of arrivals is sorted stably.**
-/

namespace Cascade

/-! ### The order across the groups -/

/-- The place of a group among the groups. -/
def Group.position : Group → Nat
  | .inline => 0
  | .matched => 1
  | .inherited => 2

/-- One numbered candidate precedes another: its group stands in front of the other's, or
they share the group and it stands in front there. -/
def Precedes (a b : Candidate × Nat) : Prop :=
  a.1.group.position < b.1.group.position ∨ a.1.group = b.1.group ∧ Ahead a b

theorem Precedes.asymm {a b : Candidate × Nat} (hab : Precedes a b) : ¬ Precedes b a := by
  rintro (hba | ⟨hba, hba'⟩) <;> rcases hab with hab | ⟨hab, hab'⟩
  · exact Nat.lt_asymm hab hba
  · rw [hab] at hba
    exact Nat.lt_irrefl _ hba
  · rw [hba] at hab
    exact Nat.lt_irrefl _ hab
  · exact hab'.asymm hba'

/-- `ranked` lists the candidates of a property among `cs`, each once: the groups in their
order, in a group the greater specificity first, and of equal ones the one that comes last
in `cs`. -/
def StablySorted (cs : List Candidate) (key : String) (ranked : List Candidate) : Prop :=
  ∃ numbered : List (Candidate × Nat),
    numbered.Perm (cs.zipIdx.filter fun x => decide (x.1.key = key)) ∧
      numbered.Pairwise Precedes ∧ numbered.map Prod.fst = ranked

theorem pairwise_precedes {γ : Group} {xs : List (Candidate × Nat)}
    (hγ : ∀ x ∈ xs, x.1.group = γ) (hp : xs.Pairwise Ahead) : xs.Pairwise Precedes :=
  hp.imp_of_mem fun hx hy hxy => .inr ⟨(hγ _ hx).trans (hγ _ hy).symm, hxy⟩

theorem precedes_of_position_lt {γ δ : Group} (hlt : γ.position < δ.position)
    {a b : Candidate × Nat} (ha : a.1.group = γ) (hb : b.1.group = δ) : Precedes a b := by
  left
  rwa [ha, hb]

/-- A list is put together from its groups. -/
theorem perm_groups (key : String) (xs : List (Candidate × Nat)) :
    (xs.filter (fun x => decide (x.1.key = key ∧ x.1.group = .inline)) ++
      xs.filter (fun x => decide (x.1.key = key ∧ x.1.group = .matched)) ++
      xs.filter (fun x => decide (x.1.key = key ∧ x.1.group = .inherited))).Perm
    (xs.filter fun x => decide (x.1.key = key)) := by
  induction xs with
  | nil => exact .refl _
  | cons x xs ih =>
    by_cases hk : x.1.key = key
    · -- the candidate stands at the front of its group, and moves from there to the front of all
      cases hγ : x.1.group <;>
        simp only [List.filter_cons, hk, hγ, true_and, decide_true, if_true, reduceCtorEq,
          decide_false, Bool.false_eq_true, if_false]
      · exact ih.cons x
      · exact (List.perm_middle.append_right _).trans (ih.cons x)
      · exact List.perm_middle.trans (ih.cons x)
    · simpa [hk] using ih

/-! ### Arrivals in turn -/

/-- Nothing but their arrival tells the ranks of two candidates apart. -/
def Candidate.Tied (c d : Candidate) : Prop :=
  c.key = d.key ∧ c.group = d.group ∧ c.specificity = d.specificity

instance : DecidableRel Candidate.Tied := fun _ _ => inferInstanceAs (Decidable (_ ∧ _))

/-- Of tied arrivals the later has the greater number. -/
def InTurn (arrivals : List (Candidate × Nat)) : Prop :=
  arrivals.Pairwise fun a b => a.1.Tied b.1 → a.2 < b.2

/-- `cs'` has the candidates of `cs` in another order, in which tied ones come as in `cs`. -/
def Rearranged (cs cs' : List Candidate) : Prop :=
  ∃ numbered : List (Candidate × Nat),
    numbered.Perm cs.zipIdx ∧ InTurn numbered ∧ numbered.map Prod.fst = cs'

theorem inTurn_zipIdx (cs : List Candidate) : InTurn cs.zipIdx := by
  have hnumbers : (cs.zipIdx.map Prod.snd).Pairwise (· < ·) := by
    rw [List.zipIdx_map_snd]
    exact List.pairwise_lt_range'
  have hlt := List.pairwise_map.1 hnumbers
  exact hlt.imp fun h => fun _ => h

namespace Ranking

variable {arrivals : List (Candidate × Nat)}

/-- Arrivals in turn fill each group in order. -/
theorem numbered_group (h : InTurn arrivals) (key : String) (γ : Group) :
    ∃ numbered : List (Candidate × Nat),
      numbered.Perm (arrivals.filter fun x => decide (x.1.key = key ∧ x.1.group = γ)) ∧
        numbered.Pairwise Ahead ∧
        numbered.map Prod.fst = ((ofCandidates (arrivals.map Prod.fst)).standing key).group γ := by
  induction arrivals using List.reverseRecOn with
  | nil => exact ⟨[], .nil, .nil, by cases γ <;> rfl⟩
  | append_singleton arrivals x ih =>
    obtain ⟨hearlier, -, hlast⟩ := List.pairwise_append.1 h
    obtain ⟨numbered, hperm, hp, hmap⟩ := ih hearlier
    rw [List.map_append, List.map_singleton, ofCandidates_append_singleton, group_add, ← hmap,
      List.filter_append, List.filter_cons, List.filter_nil]
    by_cases hx : x.1.key = key ∧ x.1.group = γ
    · -- those already in the group are tied with the arrival if they have its specificity
      have hn : ∀ y ∈ numbered, y.1.specificity = x.1.specificity → y.2 < x.2 := by
        intro y hy hw
        obtain ⟨hy, hγ⟩ := List.mem_filter.1 (hperm.mem_iff.1 hy)
        obtain ⟨hkey, hgroup⟩ := of_decide_eq_true hγ
        exact hlast y hy x (List.mem_singleton_self x)
          ⟨hkey.trans hx.1.symm, hgroup.trans hx.2.symm, hw⟩
      obtain ⟨numbered', hperm', hp', hmap'⟩ := Standing.exists_numbered_place x.1 x.2 hp hn
      rw [if_pos hx, if_pos (decide_eq_true hx)]
      exact ⟨numbered', hperm'.trans ((hperm.cons x).trans
        (List.perm_append_singleton _ _).symm), hp', hmap'⟩
    · rw [if_neg hx, if_neg (by rwa [decide_eq_true_eq]), List.append_nil]
      exact ⟨numbered, hperm, hp, rfl⟩

/-- Arrivals in turn are ranked in order, across the groups. -/
theorem numbered_candidates (h : InTurn arrivals) (key : String) :
    ∃ numbered : List (Candidate × Nat),
      numbered.Perm (arrivals.filter fun x => decide (x.1.key = key)) ∧
        numbered.Pairwise Precedes ∧
        numbered.map Prod.fst = (ofCandidates (arrivals.map Prod.fst)).candidates key := by
  obtain ⟨as, ha, hpa, hma⟩ := numbered_group h key .inline
  obtain ⟨bs, hb, hpb, hmb⟩ := numbered_group h key .matched
  obtain ⟨cs, hc, hpc, hmc⟩ := numbered_group h key .inherited
  have hgroup : ∀ {γ : Group} {xs : List (Candidate × Nat)},
      xs.Perm (arrivals.filter fun x => decide (x.1.key = key ∧ x.1.group = γ)) →
        ∀ x ∈ xs, x.1.group = γ := fun hxs x hx =>
    (of_decide_eq_true (List.mem_filter.1 (hxs.mem_iff.1 hx)).2).2
  have ha' := hgroup ha
  have hb' := hgroup hb
  have hc' := hgroup hc
  refine ⟨as ++ bs ++ cs, ((ha.append hb).append hc).trans (perm_groups key arrivals), ?_, ?_⟩
  · refine List.pairwise_append.2 ⟨List.pairwise_append.2 ⟨pairwise_precedes ha' hpa,
      pairwise_precedes hb' hpb, ?_⟩, pairwise_precedes hc' hpc, ?_⟩
    · intro a ha b hb
      exact precedes_of_position_lt (by decide) (ha' a ha) (hb' b hb)
    · intro x hx c hc
      rcases List.mem_append.1 hx with hx | hx
      · exact precedes_of_position_lt (by decide) (ha' x hx) (hc' c hc)
      · exact precedes_of_position_lt (by decide) (hb' x hx) (hc' c hc)
  · rw [List.map_append, List.map_append, hma, hmb, hmc, candidates_eq]

end Ranking

/-! ### The search for a place -/

namespace Standing

/-- Searches by halving, from the position `low` to the position `high`, for the end of those
that satisfy `p`, all of which stand at the front. -/
def bisect (p : Candidate → Bool) (xs : List Candidate) (low high : Nat) : Nat :=
  if low < high then
    let middle := low + (high - low) / 2
    if xs[middle]?.any p then bisect p xs (middle + 1) high else bisect p xs low middle
  else low
termination_by high - low
decreasing_by all_goals omega

/-- The position that the search finds for a candidate, behind all of greater specificity. -/
def seat (c : Candidate) (xs : List Candidate) : Nat :=
  bisect (fun x => c.specificity.below x.specificity) xs 0 xs.length

section

variable {p : Candidate → Bool} {xs : List Candidate} {n low high : Nat}

/-- With one candidate, all in front of it satisfy `p`. -/
theorem forall_mem_take (hp : xs.Pairwise fun a b => p b = true → p a = true)
    (hn : xs[n]?.any p = true) : ∀ x ∈ xs.take (n + 1), p x = true := by
  obtain ⟨y, hy, hpy⟩ := (Option.any_eq_true ..).1 hn
  obtain ⟨hlt, rfl⟩ := List.getElem?_eq_some_iff.1 hy
  intro x hx
  obtain ⟨i, hi, rfl⟩ := List.mem_take_iff_getElem.1 hx
  rcases Nat.lt_or_eq_of_le (show i ≤ n by omega) with hin | rfl
  · exact List.pairwise_iff_getElem.1 hp i n (by omega) hlt hin hpy
  · exact hpy

/-- Without one candidate, none behind it satisfies `p`. -/
theorem forall_mem_drop (hp : xs.Pairwise fun a b => p b = true → p a = true)
    (hn : ¬ xs[n]?.any p = true) : ∀ x ∈ xs.drop n, ¬ p x = true := by
  intro x hx hpx
  obtain ⟨i, hi, rfl⟩ := List.mem_drop_iff_getElem.1 hx
  refine hn ((Option.any_eq_true ..).2 ⟨_, List.getElem?_eq_getElem (by omega), ?_⟩)
  cases i with
  | zero => exact hpx
  | succ i => exact List.pairwise_iff_getElem.1 hp n (n + (i + 1)) (by omega) _ (by omega) hpx

/-- Halving keeps those in front of `low` among those that satisfy `p`, and those from `high`
on among the others. -/
theorem bisect_boundary (hp : xs.Pairwise fun a b => p b = true → p a = true) (hle : low ≤ high)
    (hfront : ∀ x ∈ xs.take low, p x = true) (hback : ∀ x ∈ xs.drop high, ¬ p x = true) :
    (∀ x ∈ xs.take (bisect p xs low high), p x = true) ∧
      ∀ x ∈ xs.drop (bisect p xs low high), ¬ p x = true := by
  fun_induction bisect p xs low high with
  | case1 low high hlt middle hm ih => exact ih (by omega) (forall_mem_take hp hm) hback
  | case2 low high hlt middle hm ih => exact ih (by omega) hfront (forall_mem_drop hp hm)
  | case3 low high hge =>
    rw [Nat.le_antisymm (Nat.not_lt.1 hge) hle] at hback
    exact ⟨hfront, hback⟩

end

/-- In a sorted group halving finds the place of a candidate. -/
theorem place_eq_seat (c : Candidate) {xs : List Candidate}
    (hxs : xs.Pairwise fun a b => ¬ a.specificity.below b.specificity = true) :
    place c xs = xs.take (seat c xs) ++ c :: xs.drop (seat c xs) := by
  -- what stands in front of a greater specificity is greater itself
  have hp : xs.Pairwise fun a b =>
      c.specificity.below b.specificity = true → c.specificity.below a.specificity = true := by
    refine hxs.imp ?_
    intro a b hab hcb
    by_contra hca
    exact hab (Specificity.below_of_not_below hca hcb)
  have hfront : ∀ x ∈ xs.take 0, c.specificity.below x.specificity = true := by
    rw [List.take_zero]
    exact List.forall_mem_nil _
  have hback : ∀ x ∈ xs.drop xs.length, ¬ c.specificity.below x.specificity = true := by
    rw [List.drop_length]
    exact List.forall_mem_nil _
  obtain ⟨hfront, hback⟩ := bisect_boundary hp (Nat.zero_le _) hfront hback
  exact place_eq c hfront hback

end Standing

/-! ### Every sequence of arrivals -/

namespace Ranking

theorem sorted_group (cs : List Candidate) (key : String) (γ : Group) :
    (((ofCandidates cs).standing key).group γ).Pairwise fun a b =>
      ¬ a.specificity.below b.specificity = true := by
  rw [group_ofCandidates]
  exact (ranked_placeAll _).sorted

/-- Tied candidates in the same order are ranked in the same order. -/
theorem candidates_of_rearranged {cs cs' : List Candidate} (h : Rearranged cs cs') (key : String) :
    (ofCandidates cs').candidates key = (ofCandidates cs).candidates key := by
  obtain ⟨arrivals, hperm, hturn, rfl⟩ := h
  obtain ⟨ns, hn, hns, hmap⟩ := numbered_candidates (inTurn_zipIdx cs) key
  obtain ⟨ms, hm, hms, hmap'⟩ := numbered_candidates hturn key
  rw [List.zipIdx_map_fst] at hmap
  rw [← hmap, ← hmap']
  -- both sort the numbered arrivals of the property, and no two of them precede each other
  have hms_ns : ms.Perm ns := (hm.trans (hperm.filter _)).trans hn.symm
  refine congrArg _ (hms_ns.eq_of_pairwise ?_ hms hns)
  exact fun a b _ _ hab hba => absurd hba hab.asymm

/-- **Every sequence of arrivals is sorted stably.**  The candidates of each property end up
sorted by group, specificity and arrival.  The place of one more arrival is found by halving.
Any other order of arrival in which tied candidates come as before ends up with the same. -/
theorem stablySorted_ofCandidates (cs : List Candidate) :
    (∀ key, StablySorted cs key ((ofCandidates cs).candidates key)) ∧
    (∀ c : Candidate,
      let group := ((ofCandidates cs).standing c.key).group c.group
      (((ofCandidates cs).add c).standing c.key).group c.group =
        group.take (Standing.seat c group) ++ c :: group.drop (Standing.seat c group)) ∧
    ∀ cs', Rearranged cs cs' → ∀ key,
      (ofCandidates cs').candidates key = (ofCandidates cs).candidates key := by
  refine ⟨fun key => ?_, fun c => ?_, fun cs' => candidates_of_rearranged⟩
  · obtain ⟨numbered, hperm, hp, hmap⟩ := numbered_candidates (inTurn_zipIdx cs) key
    rw [List.zipIdx_map_fst] at hmap
    exact ⟨numbered, hperm, hp, hmap⟩
  · rw [group_add, if_pos ⟨rfl, rfl⟩]
    exact Standing.place_eq_seat c (sorted_group cs c.key c.group)

/-- A candidate for the width from a rule. -/
def widthRule (index : Nat) (w : Specificity) (exact : Bool) : Candidate :=
  ⟨"width", .rule ⟨0⟩ index ⟨0⟩, .ofInherited "width", w, exact⟩

/-- An inline candidate. -/
def inlineEntry (key : String) (w : Specificity) (exact : Bool) : Candidate :=
  ⟨key, .inline, .ofInitial key, w, exact⟩

/-- Tied rules with a stronger one between them and one that applies to an ancestor only, an
inline candidate that has a specificity and does not apply, and another property. -/
def mixedArrivals : List Candidate :=
  [widthRule 0 .oneClass true, inlineEntry "width" .oneId false, widthRule 1 .oneId false,
    widthRule 2 .oneId true, inlineEntry "height" .zero true, widthRule 3 .oneClass true,
    inlineEntry "width" .zero true]

/-- The same, with the tied rules in the same order. -/
def shuffledArrivals : List Candidate :=
  [inlineEntry "width" .zero true, widthRule 1 .oneId false, widthRule 0 .oneClass true,
    widthRule 3 .oneClass true, widthRule 2 .oneId true, inlineEntry "width" .oneId false,
    inlineEntry "height" .zero true]

theorem rearranged_mixedArrivals : Rearranged mixedArrivals shuffledArrivals :=
  ⟨shuffledArrivals.zip [6, 2, 0, 5, 3, 1, 4], by decide, by unfold InTurn; decide, rfl⟩

theorem stablySorted_mixedArrivals :
    Rearranged mixedArrivals shuffledArrivals ∧
    StablySorted mixedArrivals "width" ((ofCandidates mixedArrivals).candidates "width") ∧
    (ofCandidates mixedArrivals).candidates "width" =
      [inlineEntry "width" .oneId false, inlineEntry "width" .zero true, widthRule 2 .oneId true,
        widthRule 3 .oneClass true, widthRule 0 .oneClass true, widthRule 1 .oneId false] ∧
    (ofCandidates shuffledArrivals).candidates "width" =
      (ofCandidates mixedArrivals).candidates "width" := by
  obtain ⟨hsorted, -, hsame⟩ := stablySorted_ofCandidates mixedArrivals
  exact ⟨rearranged_mixedArrivals, hsorted "width", by decide,
    hsame shuffledArrivals rearranged_mixedArrivals "width"⟩

end Ranking

end Cascade
