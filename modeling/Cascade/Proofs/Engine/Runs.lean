import Cascade.Proofs.Engine.Coherence
import Cascade.Proofs.Forest.Runs

/-!
# Proper runs

A host may do whatever it likes, in any order and with whatever handles, with two
restrictions.  After it has changed element data behind the engine's back, the next thing to
do is to take note of it.  And the numbers that the engine hands out have to fit.

## Main definitions

* `Engine.unnotedAfter` — the element with a change that is still to be noted.
* `Engine.Admits` — what may be done while there is one.
* `Engine.Proper` — a run keeps to the two restrictions.

## Main results

* `Engine.Proper.induction` — what every step keeps, a run keeps.
* `Engine.Proper.of_bounds` — short runs in which every change is noted are proper.
-/

namespace Cascade

/-- The number of rules that come with a command. -/
def Command.rules : Command → Nat
  | .assignSheet _ (some sheet) => sheet.rules.length
  | .addSheet sheet => sheet.rules.length
  | _ => 0

namespace Engine

variable {g g' : Engine} {h : Handle} {o : Option Handle} {c : Command} {cs : List Command}

/-- The element whose data has changed and is still to be noted after a command. -/
def unnotedAfter (g : Engine) (o : Option Handle) : Command → Option Handle
  | .editUnnoted h c => if (g.editUnnoted h c).1 = some true then some h else o
  | _ => none

/-- While a change is to be noted, it is, or there are more changes to the same element. -/
def Admits (o : Option Handle) (c : Command) : Prop :=
  ∀ h, o = some h → c = .noteChange h ∨ ∃ e, c = .editUnnoted h e

/-- All changes are noted, and all numbers fit. -/
def Proper (g : Engine) (o : Option Handle) : List Command → Prop
  | [] => True
  | c :: cs =>
    Admits o c ∧ g.Unwrapped (g.after c) ∧ (g.after c).Proper (g.unnotedAfter o c) cs

/-- The element whose data has changed and is still to be noted after a run. -/
def unnotedRun (g : Engine) (o : Option Handle) : List Command → Option Handle
  | [] => o
  | c :: cs => (g.after c).unnotedRun (g.unnotedAfter o c) cs

theorem admits_none (c : Command) : Admits none c := fun _ h => by cases h

theorem unnotedAfter_editUnnoted (g : Engine) (o : Option Handle) (h : Handle) (e : Element.Edit) :
    g.unnotedAfter o (.editUnnoted h e) =
      if (g.editUnnoted h e).1 = some true then some h else o := rfl

theorem unnotedAfter_of_ne (hc : ∀ h e, c ≠ .editUnnoted h e) : g.unnotedAfter o c = none := by
  unfold unnotedAfter
  split
  · next h e => exact absurd rfl (hc h e)
  · rfl

/-- **What every step of a proper run keeps, the run keeps.** -/
theorem Proper.induction {P : Engine → Option Handle → Prop}
    (step : ∀ {g o c}, P g o → Admits o c → g.Unwrapped (g.after c) →
      P (g.after c) (g.unnotedAfter o c))
    (hp : g.Proper o cs) (h₀ : P g o) : P (g.run cs) (g.unnotedRun o cs) := by
  induction cs generalizing g o with
  | nil => exact h₀
  | cons c cs ih => exact ih hp.2.2 (step h₀ hp.1 hp.2.1)

/-- A run is proper if its two parts are. -/
theorem proper_append {ds : List Command} :
    g.Proper o (cs ++ ds) ↔ g.Proper o cs ∧ (g.run cs).Proper (g.unnotedRun o cs) ds := by
  induction cs generalizing g o with
  | nil => exact (and_iff_right trivial).symm
  | cons c cs ih =>
    show _ ∧ _ ∧ _ ↔ (_ ∧ _ ∧ _) ∧ _
    rw [and_assoc, and_assoc]
    exact and_congr_right fun _ => and_congr_right fun _ => ih

/-- A run may be left off early. -/
theorem Proper.of_append {ds : List Command} (hp : g.Proper o (cs ++ ds)) : g.Proper o cs :=
  (proper_append.1 hp).1

theorem unnotedRun_append {ds : List Command} :
    g.unnotedRun o (cs ++ ds) = (g.run cs).unnotedRun (g.unnotedRun o cs) ds := by
  induction cs generalizing g o with
  | nil => rfl
  | cons c cs ih => exact ih

/-- The books are right after every proper run. -/
theorem Proper.coherent (hp : g.Proper o cs) (hg : g.Coherent) : (g.run cs).Coherent :=
  hp.induction (P := fun g _ => g.Coherent) (fun hg _ hw => hg.after _ hw) hg

/-! ### Short runs -/

/-- What one command takes of the numbers: at most one slot, one text for each rule that comes
with it, and one sheet. -/
structure Grows (g : Engine) (rules : Nat) (g' : Engine) : Prop where
  slots : g'.forest.slots.size ≤ g.forest.slots.size + 1
  texts : g'.lexicon.size ≤ g.lexicon.size + rules
  sheets : g'.catalogue.next = g.catalogue.next ∨ g'.catalogue.next = g.catalogue.next + 1

namespace Grows

variable {n : Nat}

theorem of_eq (hf : g'.forest.slots.size = g.forest.slots.size) (hl : g'.lexicon = g.lexicon)
    (hc : g'.catalogue.next = g.catalogue.next) : g.Grows n g' where
  slots := by rw [hf]; exact Nat.le_succ _
  texts := by rw [hl]; exact Nat.le_add_right _ _
  sheets := .inl hc

/-- Computing styles takes no numbers. -/
theorem restyle (hg : g.Grows n g') : g.Grows n (g'.restyle h) where
  slots := forest_restyle g' h ▸ hg.slots
  texts := lexicon_restyle g' h ▸ hg.texts
  sheets := catalogue_restyle g' h ▸ hg.sheets

theorem restyleAll (hg : g.Grows n g') : g.Grows n g'.restyleAll where
  slots := forest_restyleAll g' ▸ hg.slots
  texts := lexicon_restyleAll g' ▸ hg.texts
  sheets := catalogue_restyleAll g' ▸ hg.sheets

theorem flush (hg : g.Grows n g') : g.Grows n g'.flush where
  slots := (restyled_flush g').forest ▸ hg.slots
  texts := (restyled_flush g').lexicon ▸ hg.texts
  sheets := (restyled_flush g').catalogue ▸ hg.sheets

theorem inserted (g : Engine) (e : Element) : g.Grows 0 (g.inserted e) where
  slots := Forest.slots_size_insert_le_succ g.forest e
  texts := Nat.le_refl _
  sheets := .inl rfl

theorem destroyed {removed : List Handle} {u : Forest}
    (hd : g.forest.destroy h = (.ok removed, u)) : g.Grows n (g.destroyed removed u) := by
  refine of_eq ?_ (config_dropAll _ _).2 (next_dropAll _ _)
  have hforest : (g.destroyed removed u).forest = u := forest_dropAll _ _
  rw [hforest]
  exact Forest.slots_size_destroy hd

theorem assigned (g : Engine) (h : Handle) (sheet : Option Sheet) :
    g.Grows (Command.assignSheet h sheet).rules (g.assigned h sheet) where
  slots := by rw [forest_assigned]; exact Nat.le_succ _
  texts := by
    rw [lexicon_assigned]
    cases sheet with
    | none => exact Nat.le_add_right _ _
    | some sheet => exact size_compileRules_le _ _
  sheets := by
    rw [next_assigned]
    cases sheet with
    | none => exact .inl rfl
    | some sheet => exact .inr rfl

theorem withGlobal (g : Engine) (sheet : Sheet) :
    g.Grows (Command.addSheet sheet).rules (g.withGlobal sheet) where
  slots := Nat.le_succ _
  texts := by rw [lexicon_withGlobal]; exact size_compileRules_le _ _
  sheets := by
    refine .inr ?_
    unfold Engine.withGlobal Catalogue.insertGlobal
    split <;> rfl

theorem registerOverlay {name : String} (he : Effect g (.registerOverlay h name) g') :
    g.Grows n g' := by
  cases he with
  | idle => exact of_eq rfl rfl rfl
  | registerOverlay => exact flush (.of_eq rfl rfl rfl)

end Grows

theorem grows_effect (he : Effect g c g') : g.Grows c.rules g' := by
  cases he with
  | idle => exact .of_eq rfl rfl rfl
  | registerEarly => exact .of_eq rfl rfl rfl
  | register => exact .restyleAll (.of_eq rfl rfl rfl)
  | insert e => exact .flush (.inserted g e)
  | destroy hd => exact .destroyed hd
  | attach ha => exact .restyle (.of_eq (Forest.slots_size_attach ha) rfl rfl)
  | detach hd => exact .restyle (.of_eq (Forest.slots_size_detach hd) rfl rfl)
  | noteChange => exact .restyle (.of_eq rfl rfl rfl)
  | edit c => exact .restyle (.of_eq (Forest.slots_size_update _ _ _) rfl rfl)
  | editUnnoted c => exact .of_eq (Forest.slots_size_update _ _ _) rfl rfl
  | assignSheet sheet => exact .restyle (.assigned g _ sheet)
  | setInline => exact .restyle (.of_eq rfl rfl rfl)
  | addSheet sheet => exact .restyleAll (.withGlobal g sheet)
  | removeSheet => exact .restyleAll (.of_eq rfl rfl (Catalogue.next_remove _ _))
  | registerOverlay hh hs ho => exact .registerOverlay (.registerOverlay hh hs ho)
  | setOverlay enabled blend hh he =>
    have hr := Grows.registerOverlay (n := 0) he
    exact ⟨hr.slots, hr.texts, hr.sheets⟩
  | takeDiagnostics => exact .of_eq rfl rfl rfl

/-- There is room for the numbers of `n` commands with `rules` rules. -/
structure Room (g : Engine) (n rules : Nat) : Prop where
  slots : g.forest.slots.size + n ≤ 2 ^ 32
  texts : g.lexicon.size + rules ≤ 2 ^ 32
  sheets : g.catalogue.next.toNat + n < 2 ^ 32

theorem room_empty (config : Config) {n rules : Nat} (hn : n < 2 ^ 32) (hr : rules ≤ 2 ^ 32) :
    Room { config } n rules where
  slots := by show 0 + n ≤ 2 ^ 32; omega
  texts := by show 0 + rules ≤ 2 ^ 32; omega
  sheets := by show 0 + n < 2 ^ 32; omega

theorem Room.after {n rules : Nat} (hr : g.Room (n + 1) (c.rules + rules)) :
    g.Unwrapped (g.after c) ∧ (g.after c).Room n rules := by
  obtain ⟨hslots, htexts, hsheets⟩ := hr
  obtain ⟨hs, ht, hn⟩ := grows_effect (effect_after g c)
  have hnext : g.catalogue.next.toNat ≤ (g.after c).catalogue.next.toNat ∧
      (g.after c).catalogue.next.toNat ≤ g.catalogue.next.toNat + 1 := by
    rcases hn with hn | hn
    · rw [hn]
      omega
    · have h1 : (1 : UInt32).toNat = 1 := rfl
      rw [hn, UInt32.toNat_add]
      omega
  -- what this command takes is at most what it counts for
  refine ⟨⟨by omega, by omega, UInt32.le_iff_toNat_le.2 hnext.1⟩, ⟨by omega, by omega, by omega⟩⟩

/-- Every change of element data is noted at once. -/
def noted : List Command → Bool
  | [] => true
  | .editUnnoted h _ :: .noteChange k :: cs => decide (h = k) && noted cs
  | .editUnnoted .. :: _ => false
  | _ :: cs => noted cs

/-- **Short runs in which every change is noted at once are proper.** -/
theorem Proper.of_bounds (hn : noted cs = true)
    (hr : g.Room cs.length (cs.map Command.rules).sum) : g.Proper none cs := by
  induction cs using noted.induct generalizing g with
  | case1 => trivial
  | case2 h e k cs ih =>
    rw [noted, Bool.and_eq_true, decide_eq_true_eq] at hn
    obtain ⟨rfl, hn⟩ := hn
    obtain ⟨hw, hr⟩ := Room.after hr
    obtain ⟨hw', hr⟩ := Room.after hr
    refine ⟨admits_none _, hw, ⟨?_, hw', ih hn hr⟩⟩
    intro k hk
    -- what is to be noted after the edit is either this element or none
    show _ ∨ _
    rw [unnotedAfter_editUnnoted] at hk
    split at hk
    · cases hk
      exact .inl rfl
    · cases hk
  | case3 => simp [noted] at hn
  | case4 c cs hne hne' ih =>
    have hc : noted (c :: cs) = noted cs := by
      rw [noted]
      · exact hne
      · exact hne'
    obtain ⟨hw, hr⟩ := Room.after hr
    refine ⟨admits_none c, hw, ?_⟩
    -- nothing is to be noted after any other command
    rw [unnotedAfter_of_ne fun h e => hne' h e]
    exact ih (hc ▸ hn) hr

/-- A button goes under a panel that a sheet is about, the panel changes, once behind the
engine's back, and the button is destroyed. -/
def darkPanel : List Command :=
  [.register "opacity" (.int 10) true, .insert { (default : Element) with typeName := "Panel" },
    .insert { (default : Element) with typeName := "Button" }, .attach ⟨1, 0⟩ ⟨0, 0⟩,
    .addSheet
      { rules := [⟨"Panel.dark", [{ key := "opacity", payload := some (.literal (.int 5)) }]⟩] },
    .editUnnoted ⟨0, 0⟩ (.addClass "dark"), .noteChange ⟨0, 0⟩,
    .setInline ⟨1, 0⟩ [{ key := "opacity", mode := .initial }],
    .setOverlay ⟨1, 0⟩ "hover" true 1, .edit ⟨0, 0⟩ (.removeClass "dark"), .destroy ⟨1, 0⟩]

theorem proper_darkPanel (config : Config) : Proper { config } none darkPanel :=
  .of_bounds rfl (room_empty config (by decide) (by decide))

end Engine
end Cascade
