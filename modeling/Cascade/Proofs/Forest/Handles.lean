import Cascade.Proofs.Forest.Runs

/-!
# Handles never come back

A slot is filled again and again, the one emptied last first, and only its generation tells the
handles apart that have led to it.  The generation advances when the slot is emptied and at no
other time, so that it says how often that has happened, as long as it does not wrap around.
Handles whose slots have been emptied therefore belong to earlier generations for good, and the
handle of an insertion, which belongs to the present one, is none of them.

## Main definitions

* `Forest.generation` — the generation of a slot.
* `Forest.issued`, `Forest.emptied` — the handles that a run hands out, and those whose slots
  it empties.
* `Forest.Accounted` — the invariant: what the generations say about these handles.
* `Forest.Stale` — a handle of which nothing can be had.

## Main results

* `Accounted.insert`, `Accounted.release` — filling and emptying one slot.
* `Accounted.apply`, `Accounted.run` — one operation; a run.
* `stale_run` — **no handle is handed out twice, and destroyed ones stay stale.**
-/

namespace Cascade
namespace Forest

variable {t u : Forest} {h : Handle} {op : Operation} {ops : List Operation}

/-! ### Generations -/

/-- The generation of a slot.  A slot that there is not yet will start with generation 0. -/
def generation (t : Forest) (i : UInt32) : UInt32 :=
  ((t.slots[i.toNat]?).map (·.generation)).getD 0

theorem generation_of_contains (hh : t.contains h = true) :
    t.generation h.index = h.generation := by
  obtain ⟨e, he⟩ := contains_iff.1 hh
  rw [generation, get?_eq_some_iff.1 he]
  rfl

theorem generation_update (t : Forest) (h : Handle) (f : Element → Element) (i : UInt32) :
    (t.update h f).generation i = t.generation i := by
  unfold update
  split
  · unfold generation
    rw [Array.getElem?_modify]
    split
    · rw [Option.map_map]
      rfl
    · rfl
  · rfl

theorem generation_detach {old : Option Handle} (hd : t.detach h = (.ok old, u)) (i : UInt32) :
    u.generation i = t.generation i :=
  detach_keeps (P := fun v => v.generation i = t.generation i)
    (fun v k f hv => (generation_update v k f i).trans hv) rfl hd

theorem generation_attach {p : Handle} (ha : t.attach h p = (.ok (), u)) (i : UInt32) :
    u.generation i = t.generation i :=
  attach_keeps (P := fun v => v.generation i = t.generation i)
    (fun v k f hv => (generation_update v k f i).trans hv) rfl ha

/-- The handle of an insertion is of the present generation of its slot. -/
theorem generation_insert_fst (hr : t.Ready) (e : Element) :
    (t.insert e).1.generation = t.generation (t.insert e).1.index := by
  rcases insert_cases hr.toTallied e with ⟨i, g, free, -, hg, hi⟩ | ⟨hf, hi⟩
  · simp [hi, generation, hg]
  · have hn := toNat_ofNat_size (hr.room hf)
    rw [hi]
    simp [generation, hn]

/-- Filling a slot starts no other generation. -/
theorem generation_insert (hr : t.Ready) (e : Element) (i : UInt32) :
    (t.insert e).2.generation i = t.generation i := by
  have hlive : (t.insert e).2.contains (t.insert e).1 = true :=
    (contains_insert hr e _).2 (.inl rfl)
  by_cases hk : i = (t.insert e).1.index
  · rw [hk, generation_of_contains hlive, generation_insert_fst hr e]
  · -- any other slot is as it was
    rcases insert_cases hr.toTallied e with ⟨j, g, free, -, -, hi⟩ | ⟨hf, hi⟩
    · rw [hi] at hk ⊢
      have hn : j.toNat ≠ i.toNat := fun hn => hk (UInt32.toNat_inj.1 hn).symm
      simp [generation, Array.getElem?_modify, hn]
    · have hn := toNat_ofNat_size (hr.room hf)
      rw [hi] at hk ⊢
      have hne : i.toNat ≠ t.slots.size := fun hi => hk (UInt32.toNat_inj.1 (hi.trans hn.symm))
      simp [generation, Array.getElem?_push, hne]

theorem generation_release (hh : t.contains h = true) (i : UInt32) :
    (t.release h).generation i = if i = h.index then h.generation + 1 else t.generation i := by
  obtain ⟨e, he⟩ := contains_iff.1 hh
  have hslot := get?_eq_some_iff.1 he
  by_cases hi : i = h.index
  · simp [generation, Forest.release, Array.getElem?_modify, hi, hslot]
  · have hn : h.index.toNat ≠ i.toNat := fun hn => hi (UInt32.toNat_inj.1 hn).symm
    simp [generation, Forest.release, Array.getElem?_modify, hn, hi]

/-! ### The handles of a run -/

/-- The handles that an operation hands out. -/
def issuedBy (t : Forest) : Operation → List Handle
  | .insert e => [(t.insert e).1]
  | _ => []

/-- The handles whose slots an operation empties, in this order. -/
def emptiedBy (t : Forest) : Operation → List Handle
  | .destroy h =>
    match t.destroy h with
    | (.ok removed, _) => removed
    | (.error _, _) => []
  | _ => []

/-- The handles that a run hands out, in this order. -/
def issued (t : Forest) : List Operation → List Handle
  | [] => []
  | op :: ops => t.issuedBy op ++ (t.apply op).issued ops

/-- The handles whose slots a run empties, in this order. -/
def emptied (t : Forest) : List Operation → List Handle
  | [] => []
  | op :: ops => t.emptiedBy op ++ (t.apply op).emptied ops

/-- How often a slot is emptied when the slots of some handles are emptied one after another. -/
def timesEmptied (hs : List Handle) (i : UInt32) : Nat := hs.countP fun h => h.index = i

@[simp] theorem timesEmptied_append (hs ks : List Handle) (i : UInt32) :
    timesEmptied (hs ++ ks) i = timesEmptied hs i + timesEmptied ks i := List.countP_append

theorem run_append (t : Forest) (ops ops' : List Operation) :
    t.run (ops ++ ops') = (t.run ops).run ops' := List.foldl_append

theorem emptied_append (t : Forest) (ops ops' : List Operation) :
    t.emptied (ops ++ ops') = t.emptied ops ++ (t.run ops).emptied ops' := by
  induction ops generalizing t with
  | nil => rfl
  | cons op ops ih =>
    rw [List.cons_append, emptied, emptied, ih, List.append_assoc]
    rfl

theorem issued_append (t : Forest) (ops ops' : List Operation) :
    t.issued (ops ++ ops') = t.issued ops ++ (t.run ops).issued ops' := by
  induction ops generalizing t with
  | nil => rfl
  | cons op ops ih =>
    rw [List.cons_append, issued, issued, ih, List.append_assoc]
    rfl

/-- A destruction empties the slots of the element and of everything below it. -/
theorem emptiedBy_destroy (hl : t.Linked) (hh : t.contains h = true) :
    t.emptiedBy (.destroy h) = t.subtree h := by
  obtain ⟨v, hv⟩ := detach_of_contains hh
  have hd : t.destroy h = (.ok (v.subtree h), (v.subtree h).foldl release v) := by
    simp only [destroy, hv]
  rw [emptiedBy, hd]
  exact (destroy_eq_ok hl hd).1

/-! ### The invariant -/

/-- The books about the handles `out` that have been handed out, and `gone`, whose slots have
been emptied. -/
structure Accounted (t : Forest) (out gone : List Handle) : Prop where
  /-- The generation of a slot is the number of times it has been emptied. -/
  generation : ∀ i, (t.generation i).toNat = timesEmptied gone i
  /-- What is gone is of an earlier generation. -/
  earlier : ∀ h ∈ gone, h.generation < t.generation h.index
  /-- What has been handed out is live or gone. -/
  mem_out : ∀ h, h ∈ out ↔ t.contains h = true ∨ h ∈ gone
  /-- Nothing has been handed out twice. -/
  nodup : out.Nodup

theorem accounted_empty : ({} : Forest).Accounted [] [] where
  generation := fun _ => rfl
  earlier := by simp
  mem_out := by simp [contains, get?]
  nodup := List.nodup_nil

namespace Accounted

variable {out gone : List Handle}

/-- The books are about generations, and about what is live. -/
theorem congr (ha : t.Accounted out gone) (hg : ∀ i, u.generation i = t.generation i)
    (hc : ∀ k, u.contains k = t.contains k) : u.Accounted out gone where
  generation := fun i => by rw [hg, ha.generation]
  earlier := fun k hk => by rw [hg]; exact ha.earlier k hk
  mem_out := fun k => by rw [hc, ha.mem_out]
  nodup := ha.nodup

theorem not_contains (ha : t.Accounted out gone) (hh : h ∈ gone) : ¬ t.contains h = true := by
  intro hc
  have hlt := ha.earlier h hh
  rw [generation_of_contains hc] at hlt
  exact UInt32.lt_irrefl _ hlt

/-- **Filling a slot hands out a new handle:** it is not live, and it is not of an earlier
generation either. -/
theorem insert (ha : t.Accounted out gone) (hr : t.Ready) (e : Element) :
    (t.insert e).2.Accounted (out ++ [(t.insert e).1]) gone where
  generation i := by rw [generation_insert hr e, ha.generation]
  earlier k hk := by
    rw [generation_insert hr e]
    exact ha.earlier k hk
  mem_out k := by
    rw [List.mem_append, List.mem_singleton, contains_insert hr e, ha.mem_out]
    tauto
  nodup := by
    have hnew : (t.insert e).1 ∉ out := by
      rw [ha.mem_out]
      rintro (hlive | hgone)
      · exact contains_insert_fst hr e hlive
      · have hlt := ha.earlier _ hgone
        rw [← generation_insert_fst hr e] at hlt
        exact UInt32.lt_irrefl _ hlt
    exact List.nodup_append.2
      ⟨ha.nodup, List.nodup_singleton _, fun a hout b hb => by
        rw [List.mem_singleton.1 hb]
        exact ne_of_mem_of_not_mem hout hnew⟩

/-- **Emptying a slot leaves its handle behind,** unless the generation wraps around. -/
theorem release (ha : t.Accounted out gone) (hh : t.contains h = true)
    (hlt : timesEmptied (gone ++ [h]) h.index < 2 ^ 32) :
    (t.release h).Accounted out (gone ++ [h]) := by
  have hpresent : h.generation.toNat = timesEmptied gone h.index := by
    rw [← generation_of_contains hh, ha.generation]
  have hone : ∀ i, timesEmptied [h] i = if i = h.index then 1 else 0 := by
    intro i
    simp [timesEmptied, List.countP_cons, eq_comm]
  have hnext : (h.generation + 1).toNat = h.generation.toNat + 1 := by
    rw [timesEmptied_append, hone, if_pos rfl] at hlt
    rw [UInt32.toNat_add, UInt32.toNat_one, Nat.mod_eq_of_lt (by omega)]
  refine ⟨?_, ?_, ?_, ha.nodup⟩
  · intro i
    rw [generation_release hh, timesEmptied_append, hone]
    split
    · next hi => rw [hi, hnext, hpresent]
    · exact ha.generation i
  · intro k hk
    rw [generation_release hh, UInt32.lt_iff_toNat_lt]
    rcases List.mem_append.1 hk with hk | hk
    · have hearlier := UInt32.lt_iff_toNat_lt.1 (ha.earlier k hk)
      split
      · next hi =>
        rw [hi, generation_of_contains hh] at hearlier
        omega
      · exact hearlier
    · obtain rfl := List.mem_singleton.1 hk
      rw [if_pos rfl, hnext]
      exact Nat.lt_succ_self _
  · intro k
    have hstale : (t.release h).contains k = true ↔ k ≠ h ∧ t.contains k = true := by
      rw [contains, get?_release hh]
      split <;> simp_all [contains]
    rw [ha.mem_out, hstale, List.mem_append, List.mem_singleton]
    by_cases hk : k = h <;> simp [hk, hh]

theorem releaseAll {hs : List Handle} (ha : t.Accounted out gone) (hn : hs.Nodup)
    (hl : ∀ h ∈ hs, t.contains h = true)
    (hlt : ∀ i, timesEmptied (gone ++ hs) i < 2 ^ 32) :
    (hs.foldl Forest.release t).Accounted out (gone ++ hs) := by
  induction hs generalizing t gone with
  | nil => rwa [List.append_nil]
  | cons h hs ih =>
    rw [List.nodup_cons] at hn
    have hh : t.contains h = true := hl h List.mem_cons_self
    have hcons : gone ++ h :: hs = (gone ++ [h]) ++ hs := by rw [List.append_assoc]; rfl
    rw [hcons] at hlt ⊢
    have hfirst : timesEmptied (gone ++ [h]) h.index < 2 ^ 32 :=
      Nat.lt_of_le_of_lt (Nat.le.intro (timesEmptied_append _ hs _).symm) (hlt h.index)
    refine ih (ha.release hh hfirst) hn.2 ?_ hlt
    intro x hx
    exact contains_release_of_ne hh (hl x (List.mem_cons_of_mem _ hx)) fun he => hn.1 (he ▸ hx)

theorem destroy (ha : t.Accounted out gone) (ht : t.Sound) {removed : List Handle}
    (hd : t.destroy h = (.ok removed, u)) (hlt : ∀ i, timesEmptied (gone ++ removed) i < 2 ^ 32) :
    u.Accounted out (gone ++ removed) := by
  obtain ⟨rfl, old, v, hv, rfl⟩ := destroy_eq_ok ht.linked hd
  refine (ha.congr (generation_detach hv) (contains_detach hv)).releaseAll
    (nodup_subtree ht.linked h) ?_ hlt
  intro x hx
  rw [contains_detach hv]
  exact ((mem_subtree ht.linked).1 hx).1

/-- **One operation keeps the books,** whatever handles it is given. -/
theorem apply (ha : t.Accounted out gone) (ht : t.Sound) (op : Operation)
    (hsz : (t.apply op).slots.size ≤ 2 ^ 32)
    (hlt : ∀ i, timesEmptied (gone ++ t.emptiedBy op) i < 2 ^ 32) :
    (t.apply op).Accounted (out ++ t.issuedBy op) (gone ++ t.emptiedBy op) := by
  have hsilent : ∀ {u : Forest}, u.Accounted out gone → u.Accounted (out ++ []) (gone ++ []) := by
    intro u hu
    rwa [List.append_nil, List.append_nil]
  cases op with
  | insert e =>
    have hinsert := ha.insert (ht.slotted.ready hsz) e
    rwa [← List.append_nil gone] at hinsert
  | attach child parent =>
    rcases t.apply_attach child parent with heq | hd
    · exact hsilent (by rwa [heq])
    · exact hsilent (ha.congr (generation_attach hd) (contains_attach hd))
  | detach child =>
    rcases t.apply_detach child with heq | ⟨old, hd⟩
    · exact hsilent (by rwa [heq])
    · exact hsilent (ha.congr (generation_detach hd) (contains_detach hd))
  | destroy h =>
    rcases hd : t.destroy h with ⟨e | removed, u⟩
    · have heq := eq_of_destroy_error hd
      simpa [Forest.apply, issuedBy, emptiedBy, hd, heq] using ha
    · simp only [Forest.apply, issuedBy, emptiedBy, hd, List.append_nil] at hlt ⊢
      exact ha.destroy ht hd hlt
  | edit h c =>
    exact hsilent (ha.congr (generation_update t h _) fun k => contains_update t h k _)

/-- **The books are kept along a run.** -/
theorem run (ha : t.Accounted out gone) (ht : t.Sound) (ops : List Operation)
    (hsz : (t.run ops).slots.size ≤ 2 ^ 32)
    (hlt : ∀ i, timesEmptied (gone ++ t.emptied ops) i < 2 ^ 32) :
    (t.run ops).Accounted (out ++ t.issued ops) (gone ++ t.emptied ops) := by
  induction ops generalizing t out gone with
  | nil =>
    rw [issued, emptied, List.append_nil, List.append_nil]
    exact ha
  | cons op ops ih =>
    rw [emptied, ← List.append_assoc] at hlt ⊢
    rw [issued, ← List.append_assoc]
    -- no more slots, and none of them emptied more often, than at the end
    have hsz' := Nat.le_trans (slots_size_le_run (t.apply op) ops) hsz
    have hlt' : ∀ i, timesEmptied (gone ++ t.emptiedBy op) i < 2 ^ 32 := fun i =>
      Nat.lt_of_le_of_lt (Nat.le.intro (timesEmptied_append _ _ i).symm) (hlt i)
    exact ih (ha.apply ht op hsz' hlt') (ht.apply op hsz') hsz hlt

end Accounted

/-! ### Stale handles -/

/-- The handle names nothing, nothing can be changed through it, and what is tried with it is
refused because it is stale, whereby the forest stays as it is. -/
structure Stale (t : Forest) (h : Handle) : Prop where
  get?_eq : t.get? h = none
  contains_eq : t.contains h = false
  update_eq : ∀ f, t.update h f = t
  detach_eq : t.detach h = (.error (.staleHandle h), t)
  destroy_eq : t.destroy h = (.error (.staleHandle h), t)
  attach_eq : ∀ parent, t.attach h parent = (.error (.staleHandle h), t)
  /-- Nothing can be attached under it either, whereby the child is checked first. -/
  attach_under_eq : ∀ child, t.attach child h =
    (.error (.staleHandle (if t.contains child then h else child)), t)

theorem stale_of_not_contains (hh : ¬ t.contains h = true) : t.Stale h := by
  refine
    { get?_eq := get?_eq_none hh
      contains_eq := Bool.eq_false_iff.2 hh
      update_eq := fun f => if_neg hh
      detach_eq := detach_stale hh
      destroy_eq := destroy_stale hh
      attach_eq := fun parent => attach_stale (by simp [hh])
      attach_under_eq := fun child => attach_stale ?_ }
  by_cases hc : t.contains child = true <;> simp [hc, hh]

/-- **Handles never come back.**  No insertion of a run returns a handle that an earlier one has
returned, and an element that has been destroyed, by itself or with what it was below, stays
stale in every later state, however often its slot is used again. -/
theorem stale_run (ops : List Operation) (hsz : (({} : Forest).run ops).slots.size < 2 ^ 32)
    (hlt : ∀ i, timesEmptied (({} : Forest).emptied ops) i < 2 ^ 32) :
    (∀ ds e es, ops = ds ++ .insert e :: es →
      ((({} : Forest).run ds).insert e).1 ∉ ({} : Forest).issued ds) ∧
      ∀ ds h es fs, ops = ds ++ .destroy h :: es ++ fs →
        ∀ x, (({} : Forest).run ds).contains x = true →
          h ∈ x :: (({} : Forest).run ds).ancestors x →
            (({} : Forest).run (ds ++ .destroy h :: es)).Stale x := by
  -- the books are right in all states on the way
  have hbooks : ∀ ds es, ops = ds ++ es → (({} : Forest).run ds).Sound ∧
      (({} : Forest).run ds).Accounted (({} : Forest).issued ds) (({} : Forest).emptied ds) := by
    rintro ds es rfl
    have hsz' : (({} : Forest).run ds).slots.size ≤ 2 ^ 32 := by
      rw [run_append] at hsz
      exact Nat.le_trans (slots_size_le_run _ es) (Nat.le_of_lt hsz)
    refine ⟨sound_empty.run ds hsz', accounted_empty.run sound_empty ds hsz' fun i => ?_⟩
    have hi := hlt i
    rw [emptied_append, timesEmptied_append] at hi
    exact Nat.lt_of_le_of_lt (Nat.le_add_right _ _) hi
  constructor
  · rintro ds e es rfl
    obtain ⟨-, ha⟩ := hbooks (ds ++ [.insert e]) es (List.append_cons ..)
    have hnodup := ha.nodup
    rw [issued_append] at hnodup
    intro hm
    exact List.disjoint_of_nodup_append hnodup hm List.mem_cons_self
  · rintro ds h es fs rfl x hx hpath
    obtain ⟨ht, -⟩ := hbooks ds (.destroy h :: es ++ fs) (List.append_assoc ..)
    obtain ⟨-, ha⟩ := hbooks (ds ++ .destroy h :: es) fs rfl
    refine stale_of_not_contains (ha.not_contains ?_)
    have hgone := (mem_subtree ht.linked).2 ⟨hx, hpath⟩
    rw [← emptiedBy_destroy ht.linked (ht.linked.contains_of_mem_path hx hpath)] at hgone
    rw [emptied_append]
    exact List.mem_append_right _ (List.mem_append_left _ hgone)

/-- The slots of the panel and of its button are used again, under other handles. -/
theorem stale_run_recycling :
    (({} : Forest).run recycling).slots.size < 2 ^ 32 ∧
      (∀ i, timesEmptied (({} : Forest).emptied recycling) i < 2 ^ 32) ∧
      ({} : Forest).issued recycling = [⟨0, 0⟩, ⟨1, 0⟩, ⟨1, 1⟩, ⟨0, 1⟩] ∧
      (({} : Forest).run recycling).Stale ⟨0, 0⟩ ∧ (({} : Forest).run recycling).Stale ⟨1, 0⟩ := by
  have hsz : (({} : Forest).run recycling).slots.size < 2 ^ 32 := by decide
  have hlt : ∀ i, timesEmptied (({} : Forest).emptied recycling) i < 2 ^ 32 := fun i =>
    Nat.lt_of_le_of_lt List.countP_le_length (by decide)
  have hstale := (stale_run recycling hsz hlt).2 (recycling.take 4) ⟨0, 0⟩ (recycling.drop 5) [] rfl
  exact ⟨hsz, hlt, by decide, hstale ⟨0, 0⟩ (by decide) (by decide),
    hstale ⟨1, 0⟩ (by decide) (by decide)⟩

end Forest
end Cascade
