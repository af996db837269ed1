import Cascade.Ranking
import Mathlib.Data.List.Forall2
import Mathlib.Data.List.Induction

/-!
# The order within a group of candidates

A group of a ranking is filled by placing one candidate after the other.  Whatever
the order of arrival, the group ends up sorted: the greater specificity in front,
and of equal ones the later arrival.  To say so for equal candidates as well, the
arrivals are numbered.

## Main definitions

* `Ahead` — the order of numbered candidates.
* `Ranked cs ranked` — `ranked` is `cs` in that order.
* `Standing.placeAll` — candidates placed one after the other.
* `Standing.Group`, `Ranking.standing` — the groups of a ranking.

## Main results

* `Ranked.place` — one arrival; `ranked_placeAll` — all of them.
* `Ranked.unique` — the order determines the list.
* `Standing.place_eq` — every search for the place finds the same one.
* `Standing.placeAll_filter` — leaving candidates out does not disturb the others.
* `Standing.forall₂_placeAll` — nor does replacing them by others of the same specificity.
* `Ranking.group_ofCandidates` — each group holds its own candidates, placed in turn.
-/

namespace Cascade

/-! ### The order of ranks -/

namespace Specificity

variable {u v w : Specificity}

/-- Ids decide, then classes, then types. -/
theorem below_iff : v.below w = true ↔
    v.ids < w.ids ∨ v.ids = w.ids ∧
      (v.classes < w.classes ∨ v.classes = w.classes ∧ v.types < w.types) := by
  have hlt : ∀ a b : UInt32, compare a b = .lt ↔ a < b := fun a b => compareOfLessAndEq_eq_lt
  have heq : ∀ a b : UInt32, compare a b = .eq ↔ a = b := by
    intro a b
    show compareOfLessAndEq a b = .eq ↔ a = b
    rw [compareOfLessAndEq_eq_eq UInt32.le_refl UInt32.not_le]
  show (compare v w == .lt) = true ↔ _
  rw [beq_iff_eq]
  show (compare v.ids w.ids).then
    ((compare v.classes w.classes).then (compare v.types w.types)) = .lt ↔ _
  rw [Ordering.then_eq_lt, Ordering.then_eq_lt, hlt, hlt, hlt, heq, heq]

theorem below_trans (huv : u.below v = true) (hvw : v.below w = true) : u.below w = true := by
  rw [below_iff] at *
  simp only [UInt32.lt_iff_toNat_lt, ← UInt32.toNat_inj] at *
  omega

theorem below_asymm (huv : u.below v = true) : ¬ v.below u = true := by
  intro hvu
  rw [below_iff] at *
  simp only [UInt32.lt_iff_toNat_lt, ← UInt32.toNat_inj] at *
  omega

/-- What stands above a rank stands above all that do not. -/
theorem below_of_not_below (hu : ¬ u.below v = true) (huw : u.below w = true) :
    v.below w = true := by
  rw [below_iff] at *
  simp only [UInt32.lt_iff_toNat_lt, ← UInt32.toNat_inj] at *
  omega

/-- Of two ranks one is below the other, or they are equal. -/
theorem eq_of_not_below (huv : ¬ u.below v = true) (hvu : ¬ v.below u = true) : u = v := by
  rw [below_iff] at *
  obtain ⟨a, b, c⟩ := u
  obtain ⟨a', b', c'⟩ := v
  simp only [UInt32.lt_iff_toNat_lt, ← UInt32.toNat_inj, Specificity.mk.injEq] at *
  omega

end Specificity

/-! ### Numbered candidates -/

/-- One numbered candidate stands in front of another: it has the greater specificity,
or the same and the greater number. -/
def Ahead (a b : Candidate × Nat) : Prop :=
  b.1.specificity.below a.1.specificity = true ∨
    a.1.specificity = b.1.specificity ∧ b.2 < a.2

theorem Ahead.trans {a b c : Candidate × Nat} (hab : Ahead a b) (hbc : Ahead b c) : Ahead a c := by
  rcases hab with hab | ⟨hab, hn⟩ <;> rcases hbc with hbc | ⟨hbc, hm⟩
  · exact .inl (Specificity.below_trans hbc hab)
  · exact .inl (hbc ▸ hab)
  · exact .inl (hab ▸ hbc)
  · exact .inr ⟨hab.trans hbc, Nat.lt_trans hm hn⟩

theorem Ahead.asymm {a b : Candidate × Nat} (hab : Ahead a b) : ¬ Ahead b a := by
  rintro (hba | ⟨hba, hm⟩) <;> rcases hab with hab | ⟨hab, hn⟩
  · exact Specificity.below_asymm hab hba
  · rw [hab] at hba
    exact Specificity.below_asymm hba hba
  · rw [hba] at hab
    exact Specificity.below_asymm hab hab
  · exact Nat.lt_asymm hm hn

/-- `ranked` lists the candidates of `cs`, each once, in their order: the greater specificity
first, and of equal ones the one that comes last in `cs`. -/
def Ranked (cs ranked : List Candidate) : Prop :=
  ∃ numbered : List (Candidate × Nat),
    numbered.Perm cs.zipIdx ∧ numbered.Pairwise Ahead ∧ numbered.map Prod.fst = ranked

theorem ranked_nil : Ranked [] [] := ⟨[], .nil, .nil, rfl⟩

/-- No candidate stands in front of one of greater specificity. -/
theorem Ranked.sorted {cs ranked : List Candidate} (hr : Ranked cs ranked) :
    ranked.Pairwise fun a b => ¬ a.specificity.below b.specificity = true := by
  obtain ⟨numbered, -, hp, rfl⟩ := hr
  refine List.pairwise_map.2 (hp.imp ?_)
  rintro a b (hba | ⟨hab, -⟩) hbelow
  · exact Specificity.below_asymm hba hbelow
  · rw [hab] at hbelow
    exact Specificity.below_asymm hbelow hbelow

/-- **The order determines the list.** -/
theorem Ranked.unique {cs xs ys : List Candidate} (hx : Ranked cs xs) (hy : Ranked cs ys) :
    xs = ys := by
  obtain ⟨ns, hn, hns, rfl⟩ := hx
  obtain ⟨ms, hm, hms, rfl⟩ := hy
  -- both sort the same numbered list, and no two numbered candidates are ahead of each other
  refine congrArg _ ((hn.trans hm.symm).eq_of_pairwise ?_ hns hms)
  exact fun a b _ _ hab hba => absurd hba hab.asymm

namespace Standing

/-! ### One arrival -/

/-- Placing a candidate that comes after all numbered ones of its specificity keeps them in
order. -/
theorem exists_numbered_place (c : Candidate) (n : Nat) {numbered : List (Candidate × Nat)}
    (hp : numbered.Pairwise Ahead)
    (hn : ∀ x ∈ numbered, x.1.specificity = c.specificity → x.2 < n) :
    ∃ numbered' : List (Candidate × Nat), numbered'.Perm ((c, n) :: numbered) ∧
      numbered'.Pairwise Ahead ∧ numbered'.map Prod.fst = place c (numbered.map Prod.fst) := by
  induction numbered with
  | nil => exact ⟨[(c, n)], .refl _, List.pairwise_singleton _ _, rfl⟩
  | cons x xs ih =>
    have hx := List.pairwise_cons.1 hp
    rw [List.map_cons, place]
    split
    · next hb =>
      -- the arrival goes behind `x`
      obtain ⟨ys, hperm, hys, hmap⟩ := ih hx.2 fun y hy => hn y (List.mem_cons_of_mem x hy)
      refine ⟨x :: ys, (hperm.cons x).trans (.swap _ _ _), ?_, by rw [List.map_cons, hmap]⟩
      refine List.pairwise_cons.2 ⟨?_, hys⟩
      intro y hy
      rcases List.mem_cons.1 (hperm.mem_iff.1 hy) with rfl | hy
      · exact .inl hb
      · exact hx.1 y hy
    · next hb =>
      -- all that follow are behind `x`, and `x` is behind the arrival
      have hcx : Ahead (c, n) x := by
        by_cases hxc : x.1.specificity.below c.specificity = true
        · exact .inl hxc
        · have hw := Specificity.eq_of_not_below hb hxc
          exact .inr ⟨hw, hn x (List.mem_cons_self ..) hw.symm⟩
      refine ⟨(c, n) :: x :: xs, .refl _, List.pairwise_cons.2 ⟨?_, hp⟩, rfl⟩
      intro y hy
      rcases List.mem_cons.1 hy with rfl | hy
      · exact hcx
      · exact hcx.trans (hx.1 y hy)

/-- In a sorted group there is one place between the candidates of greater specificity and
the others, however it is searched for. -/
theorem place_eq (c : Candidate) {xs : List Candidate} {n : Nat}
    (hfront : ∀ x ∈ xs.take n, c.specificity.below x.specificity = true)
    (hback : ∀ x ∈ xs.drop n, ¬ c.specificity.below x.specificity = true) :
    place c xs = xs.take n ++ c :: xs.drop n := by
  induction xs generalizing n with
  | nil => simp [place]
  | cons x xs ih =>
    rw [place]
    cases n with
    | zero =>
      rw [if_neg (hback x (List.mem_cons_self ..)), List.take_zero, List.drop_zero, List.nil_append]
    | succ n =>
      rw [List.take_succ_cons] at hfront
      rw [List.drop_succ_cons] at hback
      rw [if_pos (hfront x (List.mem_cons_self ..)), List.take_succ_cons, List.drop_succ_cons,
        ih (fun y hy => hfront y (List.mem_cons_of_mem x hy)) hback, List.cons_append]

/-- A candidate has the same neighbours if others are left out. -/
theorem filter_place (f : Candidate → Bool) (c : Candidate) {xs : List Candidate}
    (hxs : xs.Pairwise fun a b => ¬ a.specificity.below b.specificity = true) :
    (place c xs).filter f = if f c then place c (xs.filter f) else xs.filter f := by
  induction xs with
  | nil =>
    rw [place, List.filter_cons]
    rfl
  | cons x xs ih =>
    have hx := List.pairwise_cons.1 hxs
    rw [place]
    split
    · next hb =>
      rw [List.filter_cons, ih hx.2, List.filter_cons]
      cases f x <;> cases f c <;> simp [place, hb]
    · next hb =>
      -- all that stay are behind `x`, and so behind the arrival as well
      have hplace : place c ((x :: xs).filter f) = c :: (x :: xs).filter f := by
        refine place_eq c (n := 0) (fun y hy => by simp at hy) ?_
        intro y hy hcy
        rcases List.mem_cons.1 (List.mem_filter.1 hy).1 with rfl | hy
        · exact hb hcy
        · exact hx.1 y hy (Specificity.below_of_not_below hb hcy)
      rw [hplace, List.filter_cons]

/-- Candidates placed one after the other. -/
def placeAll (cs : List Candidate) : List Candidate := cs.foldl (fun xs c => place c xs) []

@[simp] theorem placeAll_append_singleton (cs : List Candidate) (c : Candidate) :
    placeAll (cs ++ [c]) = place c (placeAll cs) := by
  simp [placeAll]

/-- No arrival is lost, and none is added. -/
theorem placeAll_perm (cs : List Candidate) : (placeAll cs).Perm cs := by
  induction cs using List.reverseRecOn with
  | nil => exact .refl _
  | append_singleton cs c ih =>
    rw [placeAll_append_singleton]
    exact (place_perm c _).trans ((ih.cons c).trans (List.perm_append_singleton c cs).symm)

/-- Candidates of one specificity end up in the reverse order of their arrival. -/
theorem placeAll_eq_reverse {w : Specificity} {cs : List Candidate}
    (hw : ∀ c ∈ cs, c.specificity = w) : placeAll cs = cs.reverse := by
  induction cs using List.reverseRecOn with
  | nil => rfl
  | append_singleton cs c ih =>
    rw [placeAll_append_singleton, ih fun x hx => hw x (List.mem_append_left _ hx),
      List.reverse_append]
    have hc := hw c (List.mem_append_right _ (List.mem_singleton_self c))
    refine (place_eq c (n := 0) (fun x hx => by simp at hx) ?_).trans (by simp)
    intro x hx
    rw [List.drop_zero, List.mem_reverse] at hx
    rw [hc, hw x (List.mem_append_left _ hx)]
    exact fun hb => Specificity.below_asymm hb hb

end Standing

/-- **One arrival keeps a group in order.** -/
theorem Ranked.place {cs ranked : List Candidate} (hr : Ranked cs ranked) (c : Candidate) :
    Ranked (cs ++ [c]) (Standing.place c ranked) := by
  obtain ⟨numbered, hperm, hp, rfl⟩ := hr
  have hn : ∀ x ∈ numbered, x.1.specificity = c.specificity → x.2 < cs.length := by
    intro x hx _
    have hx := List.mem_zipIdx (hperm.mem_iff.1 hx)
    omega
  -- the arrival gets the number that follows all others
  obtain ⟨numbered', hperm', hp', hmap⟩ := Standing.exists_numbered_place c cs.length hp hn
  refine ⟨numbered', hperm'.trans ?_, hp', hmap⟩
  rw [List.zipIdx_append, List.zipIdx_singleton, Nat.zero_add]
  exact (hperm.cons _).trans (List.perm_append_singleton _ _).symm

/-- **All arrivals end up in order.** -/
theorem ranked_placeAll (cs : List Candidate) : Ranked cs (Standing.placeAll cs) := by
  induction cs using List.reverseRecOn with
  | nil => exact ranked_nil
  | append_singleton cs c ih =>
    rw [Standing.placeAll_append_singleton]
    exact ih.place c

/-- Candidates that are left out leave the order of the others as it is. -/
theorem Standing.placeAll_filter (f : Candidate → Bool) (cs : List Candidate) :
    placeAll (cs.filter f) = (placeAll cs).filter f := by
  induction cs using List.reverseRecOn with
  | nil => rfl
  | append_singleton cs c ih =>
    rw [placeAll_append_singleton, filter_place f c (ranked_placeAll cs).sorted, List.filter_append,
      List.filter_cons, List.filter_nil]
    split
    · rw [placeAll_append_singleton, ih]
    · rw [List.append_nil, ih]

/-! ### Candidates that are related -/

section

variable {R : Candidate → Candidate → Prop} {cs cs' : List Candidate}

/-- Candidates of the same specificity are placed alike. -/
theorem Standing.forall₂_place (hR : ∀ c c', R c c' → c'.specificity = c.specificity)
    {c c' : Candidate} (hc : R c c') (hcs : List.Forall₂ R cs cs') :
    List.Forall₂ R (place c cs) (place c' cs') := by
  induction hcs with
  | nil => exact .cons hc .nil
  | cons hx hxs ih =>
    rw [place, place, hR _ _ hc, hR _ _ hx]
    split
    · exact .cons hx ih
    · exact .cons hc (.cons hx hxs)

theorem Standing.forall₂_placeAll (hR : ∀ c c', R c c' → c'.specificity = c.specificity)
    (hcs : List.Forall₂ R cs cs') : List.Forall₂ R (placeAll cs) (placeAll cs') := by
  have hfold : ∀ {cs cs' xs xs' : List Candidate}, List.Forall₂ R cs cs' → List.Forall₂ R xs xs' →
      List.Forall₂ R (cs.foldl (fun xs c => place c xs) xs)
        (cs'.foldl (fun xs c => place c xs) xs') := by
    intro cs cs' xs xs' hcs
    induction hcs generalizing xs xs' with
    | nil => exact id
    | cons hc _ ih => exact fun hxs => ih (forall₂_place hR hc hxs)
  exact hfold hcs .nil

end

/-! ### The groups of a ranking -/

/-- The groups of candidates, the foremost first. -/
inductive Group where
  /-- Declarations on the element. -/
  | inline
  /-- Declarations of rules that apply to the element. -/
  | matched
  /-- Declarations of rules that apply to an ancestor only. -/
  | inherited
  deriving DecidableEq

/-- The group that a candidate belongs to. -/
def Candidate.group (c : Candidate) : Group :=
  match c.origin, c.exact with
  | .inline, _ => .inline
  | .rule .., true => .matched
  | .rule .., false => .inherited

/-- The candidates of a group. -/
def Standing.group (s : Standing) : Group → List Candidate
  | .inline => s.inline
  | .matched => s.matched
  | .inherited => s.inherited

theorem Standing.group_add (s : Standing) (c : Candidate) (γ : Group) :
    (s.add c).group γ = if c.group = γ then place c (s.group γ) else s.group γ := by
  obtain ⟨key, origin, d, w, exact⟩ := c
  cases origin with
  | inline => cases γ <;> rfl
  | rule => cases exact <;> cases γ <;> rfl

namespace Ranking

/-- The groups of a property. -/
def standing (r : Ranking) (key : String) : Standing := (r.standings.get? key).getD {}

theorem candidates_eq (r : Ranking) (key : String) :
    r.candidates key =
      (r.standing key).group .inline ++ (r.standing key).group .matched ++
        (r.standing key).group .inherited := rfl

theorem group_add (r : Ranking) (c : Candidate) (key : String) (γ : Group) :
    ((r.add c).standing key).group γ =
      if c.key = key ∧ c.group = γ then Standing.place c ((r.standing key).group γ)
      else (r.standing key).group γ := by
  unfold standing add
  rw [Table.get?_insert]
  by_cases hk : c.key = key
  · rw [if_pos hk, Option.getD_some, Standing.group_add, hk]
    by_cases hγ : c.group = γ <;> simp [hγ]
  · rw [if_neg hk, if_neg fun h => hk h.1]

theorem ofCandidates_append_singleton (cs : List Candidate) (c : Candidate) :
    ofCandidates (cs ++ [c]) = (ofCandidates cs).add c := by
  simp [ofCandidates]

/-- **Each group holds its own candidates, placed one after the other.** -/
theorem group_ofCandidates (cs : List Candidate) (key : String) (γ : Group) :
    ((ofCandidates cs).standing key).group γ =
      Standing.placeAll (cs.filter fun c => decide (c.key = key ∧ c.group = γ)) := by
  induction cs using List.reverseRecOn with
  | nil => cases γ <;> rfl
  | append_singleton cs c ih =>
    rw [ofCandidates_append_singleton, group_add, ih, List.filter_append, List.filter_cons,
      List.filter_nil]
    by_cases hc : c.key = key ∧ c.group = γ
    · rw [if_pos hc, if_pos (decide_eq_true hc), Standing.placeAll_append_singleton]
    · rw [if_neg hc, if_neg (by rwa [decide_eq_true_eq]), List.append_nil]

theorem mem_candidates_ofCandidates {cs : List Candidate} {key : String} {c : Candidate} :
    c ∈ (ofCandidates cs).candidates key ↔ c ∈ cs ∧ c.key = key := by
  rw [candidates_eq, group_ofCandidates, group_ofCandidates, group_ofCandidates,
    List.mem_append, List.mem_append, (Standing.placeAll_perm _).mem_iff,
    (Standing.placeAll_perm _).mem_iff, (Standing.placeAll_perm _).mem_iff]
  simp only [List.mem_filter, decide_eq_true_eq]
  cases hγ : c.group <;> simp

end Ranking
end Cascade
