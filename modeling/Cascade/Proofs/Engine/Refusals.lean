import Cascade.Proofs.Engine.Operations

/-!
# Refused operations

An operation of the engine is refused for one of a few reasons, all of which can be read off the
state and the arguments before anything is done.  A refused operation leaves the engine as it is:
no check comes after a change.  Both hold in every state, however it was reached.

## Main definitions

* `Command.needed` — the elements without which an operation is refused.
* `Engine.Refuses` — the reasons for which an operation is refused.

## Main results

* `Engine.Refuses.perform_eq` — what is refused fails for that reason, and changes nothing.
* `Engine.perform_ok` — what is not refused succeeds.
* `Engine.refused_iff` — **operations fail for the listed reasons alone, and leave no trace.**
-/

namespace Cascade

/-- The elements that have to be live for an operation, in the order in which they are checked.
An edit behind the engine's back tells whether the element is there, and is never refused. -/
def Command.needed : Command → List Handle
  | .attach child parent => [child, parent]
  | .destroy h | .detach h | .noteChange h | .edit h _ | .assignSheet h _ | .setInline h _
  | .registerOverlay h _ | .setOverlay h _ _ _ => [h]
  | .register .. | .insert _ | .editUnnoted .. | .addSheet _ | .removeSheet _
  | .takeDiagnostics => []

namespace Engine

variable {g : Engine} {h : Handle} {c : Command} {e : StyleError}

/-! ### Reasons -/

/-- The reasons for which an operation is refused. -/
inductive Refuses (g : Engine) : Command → StyleError → Prop
  /-- Of the elements that are needed, `h` is the first one that is not live. -/
  | stale {c : Command} {h : Handle} :
    c.needed.find? (fun k => !g.forest.contains k) = some h →
    Refuses g c (.forest (.staleHandle h))
  /-- An element cannot go under itself. -/
  | self {h : Handle} : g.forest.contains h = true →
    Refuses g (.attach h h) (.forest (.selfParent h))
  /-- An element cannot go under one that it is above. -/
  | cycle {child parent : Handle} : g.forest.contains child = true →
    g.forest.contains parent = true → child ≠ parent → g.forest.Above child parent →
    Refuses g (.attach child parent) (.forest (.wouldCreateCycle child parent))
  /-- The key is taken. -/
  | duplicate {key : String} (initial : Value) (inheritable : Bool) :
    key ∈ g.registry.properties.map (·.key) →
    Refuses g (.register key initial inheritable) (.duplicateProperty key)
  /-- No sheet of the system or of a developer has the number. -/
  | unknownSheet {id : SheetId} :
    (∀ sheet, g.catalogue.get? id = some sheet → sheet.owner = .element) →
    Refuses g (.removeSheet id) (.unknownSheet id)

/-- What is needed is live, unless the operation is refused. -/
theorem contains_of_not_refuses (hr : ∀ e, ¬ g.Refuses c e) :
    ∀ k ∈ c.needed, g.forest.contains k = true := by
  intro k hk
  cases hs : c.needed.find? fun k => !g.forest.contains k with
  | none => simpa using List.find?_eq_none.1 hs k hk
  | some h => exact absurd (.stale hs) (hr _)

/-! ### What is refused -/

/-- An operation fails at the first handle that is not live, before it does anything. -/
theorem perform_stale (hs : c.needed.find? (fun k => !g.forest.contains k) = some h) :
    g.perform c = (.error (.forest (.staleHandle h)), g) := by
  have hstale : ∀ {k}, [k].find? (fun k => !g.forest.contains k) = some h →
      k = h ∧ ¬ g.forest.contains k = true := by
    intro k hk
    obtain ⟨hc, rfl⟩ : ¬ g.forest.contains k = true ∧ k = h := by simpa using hk
    exact ⟨rfl, hc⟩
  cases c with
  | register | insert | editUnnoted | addSheet | removeSheet | takeDiagnostics => cases hs
  | attach child parent =>
    rw [perform, attach_eq_error (Forest.attach_stale hs)]
    rfl
  | destroy k =>
    obtain ⟨rfl, hk⟩ := hstale hs
    rw [perform, destroy_eq_error (Forest.destroy_stale hk)]
    rfl
  | detach k =>
    obtain ⟨rfl, hk⟩ := hstale hs
    rw [perform, detach_eq_error (Forest.detach_stale hk)]
    rfl
  | noteChange k =>
    obtain ⟨rfl, hk⟩ := hstale hs
    rw [perform, noteChange_stale hk]
    rfl
  | edit k =>
    obtain ⟨rfl, hk⟩ := hstale hs
    rw [perform, edit_stale hk]
    rfl
  | assignSheet k =>
    obtain ⟨rfl, hk⟩ := hstale hs
    rw [perform, assignSheet_stale hk]
    rfl
  | setInline k =>
    obtain ⟨rfl, hk⟩ := hstale hs
    rw [perform, setInline_stale hk]
    rfl
  | registerOverlay k =>
    obtain ⟨rfl, hk⟩ := hstale hs
    rw [perform, registerOverlay_stale hk]
    rfl
  | setOverlay k =>
    obtain ⟨rfl, hk⟩ := hstale hs
    rw [perform, setOverlay_stale hk]
    rfl

/-- What is refused fails for that reason, and changes nothing. -/
theorem Refuses.perform_eq (hr : g.Refuses c e) : g.perform c = (.error e, g) := by
  cases hr with
  | stale hs => exact perform_stale hs
  | self hh =>
    obtain ⟨u, hu⟩ := Forest.attach_of_contains hh hh
    rw [if_pos rfl] at hu
    rw [perform, attach_eq_error hu]
    rfl
  | cycle hc hp hne ha =>
    obtain ⟨u, hu⟩ := Forest.attach_of_contains hc hp
    rw [if_neg hne, if_pos ((Forest.mem_ancestors_iff_above hc).2 ha)] at hu
    rw [perform, attach_eq_error hu]
    rfl
  | duplicate initial inheritable hk =>
    rw [perform, register_taken (dif_pos (Registry.contains_iff.2 hk))]
    rfl
  | unknownSheet hid =>
    rw [perform, removeSheet_unknown hid]
    rfl

/-! ### What is not refused -/

theorem register_ok {key : String} {initial : Value} {inheritable : Bool}
    (hr : ∀ e, ¬ g.Refuses (.register key initial inheritable) e) :
    ∃ id, (g.register key initial inheritable).1 = .ok id := by
  cases hs : g.registry.register? key initial inheritable with
  | some r => exact ⟨r.1, by rw [register_of_some hs]⟩
  | none =>
    -- only a key that is taken is not registered
    refine absurd (.duplicate initial inheritable (Registry.contains_iff.1 ?_)) (hr _)
    by_contra hk
    rw [Registry.register?, dif_neg hk] at hs
    cases hs

theorem attach_ok {child parent : Handle} (hr : ∀ e, ¬ g.Refuses (.attach child parent) e) :
    (g.attach child parent).1 = .ok () := by
  have hlive := contains_of_not_refuses hr
  have hc : g.forest.contains child = true := hlive child (by simp [Command.needed])
  have hp : g.forest.contains parent = true := hlive parent (by simp [Command.needed])
  have hne : child ≠ parent := by
    rintro rfl
    exact hr _ (.self hc)
  have hm : child ∉ g.forest.ancestors parent :=
    fun hm => hr _ (.cycle hc hp hne ((Forest.mem_ancestors_iff_above hc).1 hm))
  obtain ⟨u, hu⟩ := Forest.attach_of_contains hc hp
  rw [if_neg hne, if_neg hm] at hu
  rw [attach_eq_ok hu]

theorem removeSheet_ok {id : SheetId} (hr : ∀ e, ¬ g.Refuses (.removeSheet id) e) :
    (g.removeSheet id).1 = .ok () := by
  have hid : ¬ ∀ sheet, g.catalogue.get? id = some sheet → sheet.owner = .element :=
    fun hid => hr _ (.unknownSheet hid)
  simp only [not_forall, exists_prop] at hid
  obtain ⟨sheet, hs, ho⟩ := hid
  rw [removeSheet_of_get? hs ho]

theorem ok_replying {α : Type} {f : α → Reply} {o : Outcome α} {a : α} (ho : o.1 = .ok a) :
    ∃ r, (replying f o).1 = .ok r := ⟨f a, by rw [replying, ho]; rfl⟩

/-- What is not refused succeeds. -/
theorem perform_ok (hr : ∀ e, ¬ g.Refuses c e) : ∃ r, (g.perform c).1 = .ok r := by
  have hlive := contains_of_not_refuses hr
  cases c with
  | insert | editUnnoted | addSheet | takeDiagnostics => exact ⟨_, rfl⟩
  | register key initial inheritable => exact ok_replying (register_ok hr).choose_spec
  | removeSheet id => exact ok_replying (removeSheet_ok hr)
  | attach child parent => exact ok_replying (attach_ok hr)
  | destroy h =>
    obtain ⟨removed, u, hd⟩ := Forest.destroy_of_contains (hlive h List.mem_cons_self)
    exact ok_replying (congrArg Prod.fst (destroy_eq_ok hd))
  | detach h =>
    obtain ⟨u, hd⟩ := Forest.detach_of_contains (hlive h List.mem_cons_self)
    exact ok_replying (congrArg Prod.fst (detach_eq_ok hd))
  | noteChange h =>
    exact ok_replying (congrArg Prod.fst (noteChange_of_contains (hlive h List.mem_cons_self)))
  | edit h x =>
    obtain ⟨y, hy⟩ := Forest.contains_iff.1 (hlive h List.mem_cons_self)
    exact ok_replying (congrArg Prod.fst (edit_of_get? hy x))
  | assignSheet h sheet =>
    exact ok_replying
      (congrArg Prod.fst (assignSheet_of_contains (hlive h List.mem_cons_self) sheet))
  | setInline h inline =>
    exact ok_replying
      (congrArg Prod.fst (setInline_of_contains (hlive h List.mem_cons_self) inline))
  | registerOverlay h name =>
    obtain ⟨g', hg', -⟩ := registerOverlay_of_contains (hlive h List.mem_cons_self) name
    exact ok_replying (congrArg Prod.fst hg')
  | setOverlay h name enabled blend =>
    obtain ⟨g', hg', -⟩ :=
      setOverlay_of_contains (hlive h List.mem_cons_self) name enabled blend
    exact ok_replying (congrArg Prod.fst hg')

/-- **Operations fail for the listed reasons alone, and leave no trace:** after a failure the whole
engine is what it was before. -/
theorem refused_iff (g : Engine) (c : Command) :
    (∀ e, (g.perform c).1 = .error e ↔ g.Refuses c e) ∧
      ∀ e, (g.perform c).1 = .error e → g.after c = g := by
  have hfail : ∀ e, (g.perform c).1 = .error e → g.Refuses c e := by
    intro e he
    by_contra hn
    -- a reason that holds is the one that comes out, and without a reason nothing fails
    by_cases hr : ∃ e', g.Refuses c e'
    · obtain ⟨e', hr⟩ := hr
      rw [hr.perform_eq] at he
      cases he
      exact hn hr
    · obtain ⟨r, hr⟩ := perform_ok fun e' he' => hr ⟨e', he'⟩
      rw [hr] at he
      cases he
  refine ⟨fun e => ⟨hfail e, fun hr => by rw [hr.perform_eq]⟩, fun e he => ?_⟩
  rw [after, (hfail e he).perform_eq]

end Engine
end Cascade
