import Cascade.Proofs.Scene.Correspondence
import Cascade.Proofs.Scene.Order

/-!
# What may be deleted

Some declarations never win: those of keys that are not registered, those that leave the
property to the next source in rank, those without a payload, and literals of another
kind than the property's.  Rules whose selector is malformed never apply.  Deleting any
of them, in sheets and on the element, moves the rules behind them up, and nothing else:
the candidates that provide a value are the same in the same order, and so are winners,
values and reports.

## Main definitions

* `Declaration.Inert` — declarations that never win.
* `Thinned` — a list of which some entries have been deleted.
* `Scene.Pruned` — a scene in which inert declarations and malformed rules have been deleted.
* `Scene.Spared` — two rankings have the same candidates that count, and the same outcome.

## Main results

* `Declaration.inert_iff` — the inert declarations are those that cannot provide a value.
* `Scene.Pruned.provided` — the candidates that provide a value are spared.
* `Scene.Pruned.spared` — and so is all that comes of them.
-/

namespace Cascade

/-! ### Inert declarations -/

/-- A declaration that never wins. -/
inductive Declaration.Inert (r : Registry) (d : Declaration) : Prop where
  /-- Its key is not registered. -/
  | unregistered (hp : r.lookup d.key = none)
  /-- It leaves the property to the next source in rank. -/
  | placeholder (hm : d.mode = .inherited)
  /-- It is to give a value, but has none. -/
  | empty (hm : d.mode = .given) (hn : d.payload = none)
  /-- It gives a literal of another kind than the property's. -/
  | mismatch {p : Property} {v : Value} (hp : r.lookup d.key = some p) (hm : d.mode = .given)
    (hv : d.payload = some (.literal v)) (hk : v.kind ≠ p.kind)

/-- The inert declarations are those that provide a value for no registered property. -/
theorem Declaration.inert_iff {r : Registry} {d : Declaration} :
    d.Inert r ↔ ∀ p, r.lookup d.key = some p → ¬ d.Provides p := by
  constructor
  · rintro (hn | hm | ⟨hm, hn⟩ | ⟨hq, hm, hv, hk⟩) p hp
    · rw [hn] at hp
      cases hp
    · simp [Provides, hm]
    · simp [Provides, hm, hn]
    · rw [hq] at hp
      cases hp
      simp [Provides, hm, hv, hk]
  · intro h
    cases hp : r.lookup d.key with
    | none => exact .unregistered hp
    | some p =>
      have hd := h p hp
      cases hm : d.mode with
      | inherited => exact .placeholder hm
      | initial => exact absurd (.inl hm) hd
      | given =>
        rcases hv : d.payload with _ | (name | v)
        · exact .empty hm hv
        · exact absurd (.inr ⟨hm, .inl ⟨name, hv⟩⟩) hd
        · exact .mismatch hp hm hv fun hk => hd (.inr ⟨hm, .inr ⟨v, hv, hk⟩⟩)

theorem Declaration.Inert.provides_eq_false {r : Registry} {d : Declaration} {p : Property}
    (hd : d.Inert r) (hp : r.lookup d.key = some p) : d.provides p = false :=
  Bool.eq_false_iff.2 fun h => inert_iff.1 hd p hp (provides_iff.1 h)

/-! ### Deleting entries of a list -/

/-- The second list is what is left of the first after some of the entries in `D` have been
deleted; an entry that stays is related to the one it was. -/
inductive Thinned {α β : Type} (D : α → Prop) (R : α → β → Prop) : List α → List β → Prop where
  | nil : Thinned D R [] []
  | keep {x : α} {y : β} {xs : List α} {ys : List β} (hr : R x y) (h : Thinned D R xs ys) :
    Thinned D R (x :: xs) (y :: ys)
  | delete {x : α} {xs : List α} {ys : List β} (hd : D x) (h : Thinned D R xs ys) :
    Thinned D R (x :: xs) ys

namespace Thinned

variable {α β γ δ : Type} {D : α → Prop} {R : α → β → Prop} {D' : γ → Prop} {S : γ → δ → Prop}
  {xs xs' : List α} {ys ys' : List β}

theorem append (h : Thinned D R xs ys) (h' : Thinned D R xs' ys') :
    Thinned D R (xs ++ xs') (ys ++ ys') := by
  induction h with
  | nil => exact h'
  | keep hr _ ih => exact .keep hr ih
  | delete hd _ ih => exact .delete hd ih

/-- Lists that are thinned one by one make up a list that is. -/
theorem flatMap {is : List γ} {js : List δ} {f : γ → List α} {g : δ → List β}
    (hij : List.Forall₂ S is js) (h : ∀ i j, S i j → Thinned D R (f i) (g j)) :
    Thinned D R (is.flatMap f) (js.flatMap g) := by
  induction hij with
  | nil => exact .nil
  | cons hs _ ih => exact (h _ _ hs).append ih

/-- What is made of the entries one by one has been thinned as well. -/
theorem filterMap {f : α → Option γ} {g : β → Option δ} (h : Thinned D R xs ys)
    (hd : ∀ x, D x → ∀ z, f x = some z → D' z) (hr : ∀ x y, R x y → Option.Rel S (f x) (g y)) :
    Thinned D' S (xs.filterMap f) (ys.filterMap g) := by
  induction h with
  | nil => exact .nil
  | @keep x y xs ys hxy _ ih =>
    rw [List.filterMap_cons, List.filterMap_cons]
    rcases rel_cases (hr x y hxy) with ⟨hf, hg⟩ | ⟨z, w, hf, hg, hs⟩
    · rw [hf, hg]
      exact ih
    · rw [hf, hg]
      exact .keep hs ih
  | @delete x xs ys hx _ ih =>
    rw [List.filterMap_cons]
    cases hf : f x with
    | none => exact ih
    | some z => exact .delete (hd x hx z hf) ih

theorem map {f : α → γ} {g : β → δ} (h : Thinned D R xs ys) (hd : ∀ x, D x → D' (f x))
    (hr : ∀ x y, R x y → S (f x) (g y)) : Thinned D' S (xs.map f) (ys.map g) := by
  induction h with
  | nil => exact .nil
  | keep hxy _ ih => exact .keep (hr _ _ hxy) ih
  | delete hx _ ih => exact .delete (hd _ hx) ih

/-- If no entry may be deleted, all stay. -/
theorem forall₂ (h : Thinned (fun _ => False) R xs ys) : List.Forall₂ R xs ys := by
  induction h with
  | nil => exact .nil
  | keep hr _ ih => exact .cons hr ih
  | delete hd => exact hd.elim

/-- A test that no deleted entry passes passes the same entries. -/
theorem filter {f : α → Bool} {g : β → Bool} (h : Thinned D R xs ys)
    (hd : ∀ x, D x → f x = false) (hr : ∀ x y, R x y → g y = f x) :
    List.Forall₂ R (xs.filter f) (ys.filter g) := by
  induction h with
  | nil => exact .nil
  | @keep x y xs ys hxy _ ih =>
    rw [List.filter_cons, List.filter_cons, hr x y hxy]
    split
    · exact .cons hxy ih
    · exact ih
  | @delete x xs ys hx _ ih =>
    rw [List.filter_cons, hd x hx]
    exact ih

end Thinned

/-! ### Scenes in which something has been deleted -/

namespace CompiledRule

/-- The selector of the rule is malformed, so that it applies nowhere. -/
def Malformed (x : CompiledRule) : Prop := x.selector.selector.isInvalid = true

/-- The rule has its selector still and has lost inert declarations at most. -/
structure Pruned (r : Registry) (x y : CompiledRule) : Prop where
  selector : y.selector = x.selector
  declarations : Thinned (Declaration.Inert r) Eq x.declarations y.declarations

/-- How many rules are not malformed. -/
def formed (rules : List CompiledRule) : Nat := rules.countP fun x => !x.selector.selector.isInvalid

/-- Rules that stay have as many rules in front of them that are not malformed as before. -/
theorem thinned_zipIdx {r : Registry} {xs ys : List CompiledRule}
    (h : Thinned Malformed (Pruned r) xs ys) (front front' : List CompiledRule)
    (hfront : formed front' = formed front) :
    Thinned (fun x => Malformed x.1)
      (fun x y => x.1.Pruned r y.1 ∧
        formed ((front' ++ ys).take y.2) = formed ((front ++ xs).take x.2))
      (xs.zipIdx front.length) (ys.zipIdx front'.length) := by
  -- an induction along both sheets, with the rules already passed in front
  induction h generalizing front front' with
  | nil => exact .nil
  | @keep x y xs ys hxy _ ih =>
    have hnext : formed (front' ++ [y]) = formed (front ++ [x]) := by
      simpa [formed, hxy.selector] using hfront
    rw [List.zipIdx_cons, List.zipIdx_cons]
    refine .keep ⟨hxy, ?_⟩ ?_
    · rw [List.take_left, List.take_left, hfront]
    · simpa using ih _ _ hnext
  | @delete x xs ys hx _ ih =>
    have hnext : formed front' = formed (front ++ [x]) := by
      simpa [formed, show x.selector.selector.isInvalid = true from hx] using hfront
    rw [List.zipIdx_cons]
    refine .delete hx ?_
    simpa using ih _ _ hnext

end CompiledRule

namespace Scene

/-- Inert declarations have been deleted in sheets and on the element, and so have rules whose
selector is malformed.  All else has stayed. -/
structure Pruned (s s' : Scene) : Prop where
  element : s'.element = s.element
  context : s'.context = s.context
  registry : s'.registry = s.registry
  localSheets : s'.localSheets = s.localSheets
  globalOrder : s'.catalogue.globalOrder = s.catalogue.globalOrder
  sheets : ∀ id, Option.Rel
    (fun x y => Thinned CompiledRule.Malformed (CompiledRule.Pruned s.registry) x.rules y.rules)
    (s.catalogue.get? id) (s'.catalogue.get? id)
  inline : Thinned (Declaration.Inert s.registry) Eq s.inline s'.inline

/-- How many rules that are not malformed stand in front of a place in a sheet. -/
def formedBefore (s : Scene) (id : SheetId) (index : Nat) : Nat :=
  ((s.catalogue.get? id).map fun sheet => CompiledRule.formed (sheet.rules.take index)).getD 0

/-- Where a declaration stands, if only the rules are counted that are not malformed. -/
def address (s : Scene) : Origin → Option (SheetId × Nat × SelectorId)
  | .inline => none
  | .rule id index selector => some (id, s.formedBefore id index, selector)

/-- Two candidates come from the same declaration in the same place, although the rules may be
numbered differently. -/
structure SameReference (s s' : Scene) (c c' : Candidate) : Prop where
  key : c'.key = c.key
  declaration : c'.declaration = c.declaration
  specificity : c'.specificity = c.specificity
  exact : c'.exact = c.exact
  address : s'.address c'.origin = s.address c.origin

/-- For every registered property two rankings have the same candidates that provide a value, in
the same order, and the same comes of them whatever is taken over from the parent. -/
structure Spared (s s' : Scene) (r r' : Ranking) : Prop where
  provided : ∀ {p}, s.registry.lookup p.key = some p → List.Forall₂ (SameReference s s')
    ((r.candidates p.key).filter fun c => c.declaration.provides p)
    ((r'.candidates p.key).filter fun c => c.declaration.provides p)
  winner : ∀ {p}, s.registry.lookup p.key = some p →
    Option.Rel (SameReference s s') (r.winner p) (r'.winner p)
  resolve : ∀ (snapshot : Values) (key : String),
    Sources.resolve ⟨s'.element, s'.registry, r', snapshot⟩ key =
      Sources.resolve ⟨s.element, s.registry, r, snapshot⟩ key
  resolveAll : ∀ snapshot : Values,
    Sources.resolveAll ⟨s'.element, s'.registry, r', snapshot⟩ =
      Sources.resolveAll ⟨s.element, s.registry, r, snapshot⟩

/-! ### Rules -/

/-- Two placed rules are one rule before and after the deletion. -/
structure SameRule (s s' : Scene) (x y : PlacedRule) : Prop where
  sheet : y.sheet = x.sheet
  pruned : x.rule.Pruned s.registry y.rule
  formed : s'.formedBefore y.sheet y.index = s.formedBefore x.sheet x.index

variable {s s' : Scene} {p : Property}

namespace Pruned

theorem thinned_rulesOf (h : s.Pruned s') (id : SheetId) :
    Thinned (fun x => x.rule.Malformed) (SameRule s s') (s.rulesOf id) (s'.rulesOf id) := by
  rcases rel_cases (h.sheets id) with ⟨hs, hs'⟩ | ⟨sheet, sheet', hs, hs', hrules⟩
  · rw [rulesOf, rulesOf, hs, hs']
    exact .nil
  · rw [rulesOf, rulesOf, hs, hs']
    refine (CompiledRule.thinned_zipIdx hrules [] [] rfl).map ?_ ?_
    · exact fun _ hx => hx
    · intro x y hxy
      refine ⟨rfl, hxy.1, ?_⟩
      rw [formedBefore, formedBefore, hs, hs']
      exact hxy.2

theorem thinned_rules (h : s.Pruned s') :
    Thinned (fun x => x.rule.Malformed) (SameRule s s') s.rules s'.rules := by
  rw [rules, rules, h.globalOrder, h.localSheets]
  refine .flatMap (List.forall₂_same.2 fun _ _ => rfl) ?_
  rintro id _ rfl
  exact h.thinned_rulesOf id

/-! ### How rules apply -/

theorem answer_eq (h : s.Pruned s') (σ : Selector) (q : Question) :
    s'.answer σ q = s.answer σ q := by
  cases q <;> rw [answer, answer, h.context, h.element]

theorem reach_eq (h : s.Pruned s') (σ : Selector) : s'.reach σ = s.reach σ := by
  rw [reach, reach, h.answer_eq, h.answer_eq]

theorem reachMemo_eq (h : s.Pruned s') (m : Memo) (i : IndexedSelector) :
    s'.reachMemo m i = s.reachMemo m i := by
  rw [reachMemo, reachMemo, h.answer_eq, h.answer_eq, h.element]

/-- The rules that apply are the same and apply in the same way. -/
theorem rel_applying (h : s.Pruned s') :
    List.Forall₂ (fun x y => SameRule s s' x.1 y.1 ∧ y.2 = x.2) s.applying s'.applying := by
  refine Thinned.forall₂ (h.thinned_rules.filterMap ?_ ?_)
  · -- a malformed rule applies nowhere, so it is missing on both sides
    intro x hx z hz
    have hnone : s.reach x.rule.selector.selector = none := if_pos hx
    rw [hnone] at hz
    cases hz
  · intro x y hr
    rw [hr.pruned.selector, h.reach_eq]
    cases s.reach x.rule.selector.selector with
    | none => exact .none
    | some q => exact .some ⟨hr, rfl⟩

/-- They are the same by way of the memo as well, whatever it keeps, and leave it the same. -/
theorem rel_applyingMemo (h : s.Pruned s') {xs ys : List PlacedRule} (m : Memo)
    (hxy : Thinned (fun x => x.rule.Malformed) (SameRule s s') xs ys) :
    List.Forall₂ (fun x y => SameRule s s' x.1 y.1 ∧ y.2 = x.2)
        (s.applyingMemo m xs).1 (s'.applyingMemo m ys).1 ∧
      (s'.applyingMemo m ys).2 = (s.applyingMemo m xs).2 := by
  -- nothing is asked about a malformed rule, so both sides go on with the same memo
  induction hxy generalizing m with
  | nil => exact ⟨.nil, rfl⟩
  | @keep x y xs ys hr _ ih =>
    rw [applyingMemo, applyingMemo, hr.pruned.selector, h.reachMemo_eq]
    split
    · next m₁ _ => exact ih m₁
    · next q m₁ _ => exact ⟨.cons ⟨hr, rfl⟩ (ih m₁).1, (ih m₁).2⟩
  | @delete x xs ys hx _ ih =>
    have hnone : s.reachMemo m x.rule.selector = (none, m) := if_pos hx
    rw [applyingMemo, hnone]
    exact ih m

/-! ### Candidates -/

theorem rel_candidate? (h : s.Pruned s') {x y : PlacedRule} (hr : SameRule s s' x y) (q : Question)
    (d : Declaration) :
    Option.Rel (SameReference s s') (s.candidate? x q d) (s'.candidate? y q d) := by
  rw [candidate?, candidate?, h.registry]
  cases s.registry.lookup d.key with
  | none => exact .none
  | some p =>
    dsimp only
    split
    · exact .none
    · refine .some ⟨rfl, rfl, ?_, rfl, ?_⟩
      · rw [hr.pruned.selector]
      · show some (_, _, _) = some (_, _, _)
        rw [hr.formed, hr.sheet, hr.pruned.selector]

theorem rel_inlineCandidate? (h : s.Pruned s') (d : Declaration) :
    Option.Rel (SameReference s s') (s.inlineCandidate? d) (s'.inlineCandidate? d) := by
  rw [inlineCandidate?, inlineCandidate?, h.registry]
  split
  · exact .some ⟨rfl, rfl, rfl, rfl, rfl⟩
  · exact .none

/-- A candidate has the key of its declaration. -/
theorem declaration_of_candidate? {x : PlacedRule} {q : Question} {d : Declaration} {c : Candidate}
    (hc : s.candidate? x q d = some c) : c.declaration = d ∧ c.key = d.key := by
  rw [candidate?] at hc
  split at hc
  · cases hc
  · split at hc
    · cases hc
    · cases hc
      exact ⟨rfl, rfl⟩

theorem declaration_of_inlineCandidate? {d : Declaration} {c : Candidate}
    (hc : s.inlineCandidate? d = some c) : c.declaration = d ∧ c.key = d.key := by
  rw [inlineCandidate?] at hc
  split at hc
  · cases hc
    exact ⟨rfl, rfl⟩
  · cases hc

/-- The candidates of inert declarations are missing, all others are there in the same order. -/
theorem thinned_candidates (h : s.Pruned s') {xs ys : List (PlacedRule × Question)}
    (hxy : List.Forall₂ (fun x y => SameRule s s' x.1 y.1 ∧ y.2 = x.2) xs ys) :
    Thinned (fun c => c.declaration.Inert s.registry ∧ c.key = c.declaration.key)
      (SameReference s s') (s.candidates xs) (s'.candidates ys) := by
  -- first the declarations in rules, then those on the element
  refine .append (.flatMap hxy ?_) (h.inline.filterMap ?_ ?_)
  · rintro ⟨x, _⟩ ⟨y, q⟩ ⟨hr, rfl⟩
    refine hr.pruned.declarations.filterMap ?_ ?_
    · intro d hd c hc
      obtain ⟨hdecl, hkey⟩ := declaration_of_candidate? hc
      exact ⟨hdecl ▸ hd, hdecl ▸ hkey⟩
    · rintro d _ rfl
      exact h.rel_candidate? hr q d
  · intro d hd c hc
    obtain ⟨hdecl, hkey⟩ := declaration_of_inlineCandidate? hc
    exact ⟨hdecl ▸ hd, hdecl ▸ hkey⟩
  · rintro d _ rfl
    exact h.rel_inlineCandidate? d

end Pruned

/-! ### Rankings -/

theorem SameReference.group {c c' : Candidate} (h : SameReference s s' c c') :
    c'.group = c.group := by
  have haddress := h.address
  rw [Candidate.group, Candidate.group, h.exact]
  cases hc : c.origin with
  | inline =>
    cases hc' : c'.origin with
    | inline => rfl
    | rule =>
      rw [hc, hc'] at haddress
      cases haddress
  | rule =>
    cases hc' : c'.origin with
    | inline =>
      rw [hc, hc'] at haddress
      cases haddress
    | rule => cases c.exact <;> rfl

/-- **The candidates that provide a value are the same,** in the same order, if those of inert
declarations are missing among the candidates that are ranked. -/
theorem forall₂_provided {cs cs' : List Candidate}
    (hcs : Thinned (fun c => c.declaration.Inert s.registry ∧ c.key = c.declaration.key)
      (SameReference s s') cs cs') (hp : s.registry.lookup p.key = some p) :
    List.Forall₂ (SameReference s s')
      (((Ranking.ofCandidates cs).candidates p.key).filter fun c => c.declaration.provides p)
      (((Ranking.ofCandidates cs').candidates p.key).filter fun c => c.declaration.provides p) := by
  have hgroup : ∀ γ, List.Forall₂ (SameReference s s')
      ((((Ranking.ofCandidates cs).standing p.key).group γ).filter
        fun c => c.declaration.provides p)
      ((((Ranking.ofCandidates cs').standing p.key).group γ).filter
        fun c => c.declaration.provides p) := by
    intro γ
    -- what provides no value may be left out before the group is ranked
    rw [Ranking.group_ofCandidates, Ranking.group_ofCandidates, ← Standing.placeAll_filter,
      ← Standing.placeAll_filter, List.filter_filter, List.filter_filter]
    refine Standing.forall₂_placeAll (fun _ _ hc => hc.specificity) (hcs.filter ?_ ?_)
    · rintro c ⟨hd, hkey⟩
      -- another property's candidate does not stand here, and this property's provides nothing
      by_cases hk : c.key = p.key
      · rw [hd.provides_eq_false (by rw [← hkey, hk, hp]), Bool.false_and]
      · rw [decide_eq_false fun hc => hk hc.1, Bool.and_false]
    · intro c c' hc
      rw [hc.declaration, hc.key, hc.group]
  rw [Ranking.candidates_eq, Ranking.candidates_eq]
  simp only [List.filter_append]
  exact List.rel_append (List.rel_append (hgroup .inline) (hgroup .matched)) (hgroup .inherited)

theorem rel_winner {r r' : Ranking} (h : List.Forall₂ (SameReference s s')
      ((r.candidates p.key).filter fun c => c.declaration.provides p)
      ((r'.candidates p.key).filter fun c => c.declaration.provides p)) :
    Option.Rel (SameReference s s') (r.winner p) (r'.winner p) := by
  rw [Ranking.winner, Ranking.winner, ← List.head?_filter, ← List.head?_filter]
  generalize (r.candidates p.key).filter _ = cs, (r'.candidates p.key).filter _ = cs' at h ⊢
  cases h with
  | nil => exact .none
  | cons hc _ => exact .some hc

namespace Pruned

theorem agrees (h : s.Pruned s') {r r' : Ranking}
    (hw : ∀ p, s.registry.lookup p.key = some p →
      Option.Rel (SameReference s s') (r.winner p) (r'.winner p)) (snapshot : Values) :
    Sources.Agrees ⟨s.element, s.registry, r, snapshot⟩
      ⟨s'.element, s'.registry, r', snapshot⟩ where
  registry := fun p => by rw [h.registry]
  winner := fun p hp => map_eq_of_rel (hw p hp) fun _ _ hc => hc.declaration
  snapshot := fun _ => rfl

/-- Rankings of candidates of which those of inert declarations are missing have the same
outcome. -/
theorem spared_of_thinned (h : s.Pruned s') {cs cs' : List Candidate}
    (hcs : Thinned (fun c => c.declaration.Inert s.registry ∧ c.key = c.declaration.key)
      (SameReference s s') cs cs') :
    s.Spared s' (.ofCandidates cs) (.ofCandidates cs') := by
  have hwinner : ∀ p, s.registry.lookup p.key = some p → Option.Rel (SameReference s s')
      ((Ranking.ofCandidates cs).winner p) ((Ranking.ofCandidates cs').winner p) := fun _ hp =>
    rel_winner (forall₂_provided hcs hp)
  have hresolve : ∀ (snapshot : Values) (key : String),
      Sources.resolve ⟨s'.element, s'.registry, .ofCandidates cs', snapshot⟩ key =
        Sources.resolve ⟨s.element, s.registry, .ofCandidates cs, snapshot⟩ key := by
    intro snapshot key
    rw [Sources.resolve, Sources.resolve, h.registry, h.element]
    cases hp : s.registry.lookup key with
    | none => rfl
    | some p =>
      have hkey : s.registry.lookup p.key = some p := by
        rw [(Registry.lookup_eq_some_iff.1 hp).2, hp]
      have hsettle := (h.agrees hwinner snapshot).settle_eq hkey
      rw [h.registry, h.element] at hsettle
      rw [Option.map_some, Option.map_some, hsettle]
  refine ⟨fun hp => forall₂_provided hcs hp, fun hp => hwinner _ hp, hresolve, ?_⟩
  intro snapshot
  simp only [Sources.resolveAll, Sources.resolveEach, hresolve]
  rw [h.registry]

/-- **Inert declarations and malformed rules may be deleted,** in sheets and on the element, any
of them in any number.  It makes no difference to the outcome, whether answers of matching are
worked out or taken from a memo, whatever that keeps. -/
theorem spared (h : s.Pruned s') :
    (∀ before before', s.Spared s' (s.recalculate before) (s'.recalculate before')) ∧
    ∀ m, s.Spared s' (s.rankingMemo m).1 (s'.rankingMemo m).1 ∧
      (s'.rankingMemo m).2 = (s.rankingMemo m).2 := by
  constructor
  · intro before before'
    rw [recalculate_eq, recalculate_eq]
    exact h.spared_of_thinned (h.thinned_candidates h.rel_applying)
  · intro m
    obtain ⟨happlying, hmemo⟩ := h.rel_applyingMemo m h.thinned_rules
    exact ⟨h.spared_of_thinned (h.thinned_candidates happlying), hmemo⟩

end Pruned

/-- The declaration that counts for the panel. -/
def panelOpacity : Declaration := .ofLiteral "opacity" (.int 40)

/-- A panel with a sheet and declarations of its own, most of which are inert: a placeholder, a
key that is not registered, a declaration without a payload, a literal of another kind, and two
malformed rules. -/
def clutteredPanel : Scene where
  element := ⟨0, 0⟩
  context := { forest := (({} : Forest).insert { (default : Element) with typeName := "Panel" }).2 }
  catalogue :=
    { sheets := ({} : Table SheetId CompiledSheet).insert ⟨0⟩ ⟨⟨0⟩, .developer, 0,
        [⟨⟨⟨0⟩, .invalid⟩, [panelOpacity]⟩,
          ⟨⟨⟨1⟩, .ofType "Panel"⟩, [.ofLiteral "opacity" (.text "40"), panelOpacity,
            .ofInherited "opacity", .ofLiteral "opacty" (.int 80)]⟩,
          ⟨⟨⟨0⟩, .invalid⟩, []⟩]⟩
      developer := [⟨0⟩] }
  localSheets := []
  inline := [⟨"opacity", .given, none⟩, .ofInherited "opacity"]
  registry := ((({} : Registry).register? "opacity" (.int 100) false).map Prod.snd).getD {}

/-- The panel without anything that is inert. -/
def tidyPanel : Scene :=
  { clutteredPanel with
    catalogue :=
      { sheets := ({} : Table SheetId CompiledSheet).insert ⟨0⟩ ⟨⟨0⟩, .developer, 0,
          [⟨⟨⟨1⟩, .ofType "Panel"⟩, [panelOpacity]⟩]⟩
        developer := [⟨0⟩] }
    inline := [] }

/-- The one declaration that counts wins in either, though its rule has moved up. -/
theorem spared_clutteredPanel :
    clutteredPanel.Pruned tidyPanel ∧
    ((clutteredPanel.ranking.winner ⟨"opacity", .int, false, .int 100⟩).map (·.origin) =
        some (.rule ⟨0⟩ 1 ⟨1⟩) ∧
      (tidyPanel.ranking.winner ⟨"opacity", .int, false, .int 100⟩).map (·.origin) =
        some (.rule ⟨0⟩ 0 ⟨1⟩)) ∧
    (∀ before before',
      clutteredPanel.Spared tidyPanel (clutteredPanel.recalculate before)
        (tidyPanel.recalculate before')) ∧
    ∀ m, clutteredPanel.Spared tidyPanel (clutteredPanel.rankingMemo m).1
        (tidyPanel.rankingMemo m).1 ∧
      (tidyPanel.rankingMemo m).2 = (clutteredPanel.rankingMemo m).2 := by
  have hlookup : clutteredPanel.registry.lookup "opacity" =
      some ⟨"opacity", .int, false, .int 100⟩ := by decide
  have hrule : CompiledRule.Pruned clutteredPanel.registry
      ⟨⟨⟨1⟩, .ofType "Panel"⟩, [.ofLiteral "opacity" (.text "40"), panelOpacity,
        .ofInherited "opacity", .ofLiteral "opacty" (.int 80)]⟩
      ⟨⟨⟨1⟩, .ofType "Panel"⟩, [panelOpacity]⟩ :=
    ⟨rfl, .delete (.mismatch hlookup rfl rfl (by decide)) <| .keep rfl <|
      .delete (.placeholder rfl) <| .delete (.unregistered (by decide)) .nil⟩
  have hpruned : clutteredPanel.Pruned tidyPanel := by
    refine ⟨rfl, rfl, rfl, rfl, rfl, fun id => ?_, ?_⟩
    · show Option.Rel _ ((Table.insert _ _ _).get? id) ((Table.insert _ _ _).get? id)
      rw [Table.get?_insert, Table.get?_insert]
      split
      · exact .some (.delete rfl (.keep hrule (.delete rfl .nil)))
      · exact .none
    · exact .delete (.empty rfl rfl) (.delete (.placeholder rfl) .nil)
  exact ⟨hpruned, by decide, hpruned.spared⟩

end Scene
end Cascade
