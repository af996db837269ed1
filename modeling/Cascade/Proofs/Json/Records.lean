import Cascade.Json.Decode
import Cascade.Json.Writer
import Mathlib.Data.List.Nodup

/-!
# What is put into JSON comes out again

A record is put into an object under names of its own.  Each field is then found under its name, or
missing if it was left out.  Where something of a value gets lost on the way, it is the whole value
that does not come out again, and so a list comes out if all its items do.

## Main definitions

* `Json.Recovers` — a value comes out again if it passes a test, and is refused if not.

## Main results

* `Json.fields?_ofMembers` — the fields of a record are found under their names.
* `Json.recovers_list` — a list comes out if all its items do.
* `Json.int32?_ofInt` — an integer comes out.
-/

namespace Cascade
namespace Json

variable {α β : Type} {ms : List (String × Json)}

/-- What is put into JSON comes out again if it passes the test, and is refused if it does not. -/
def Recovers (take? : Json → Option α) (put : α → Json) (ok : α → Bool) (x : α) : Prop :=
  take? (put x) = Option.guard ok x

/-- What passes the test goes on to the next field. -/
theorem guard_bind (ok : α → Bool) (x : α) (f : α → Option β) :
    (Option.guard ok x).bind f = if ok x = true then f x else none := by
  unfold Option.guard
  split <;> rfl

/-! ### Lists -/

theorem mapM_eq_some_map {f : α → Option β} {g : α → β} {xs : List α}
    (hfg : ∀ x ∈ xs, f x = some (g x)) : xs.mapM f = some (xs.map g) := by
  induction xs with
  | nil => rfl
  | cons x xs ih =>
    rw [List.mapM_cons, hfg x List.mem_cons_self, ih fun y hy => hfg y (List.mem_cons_of_mem x hy)]
    rfl

/-- **A list comes out if all its items do.** -/
theorem recovers_list {take? : Json → Option α} {put : α → Json} {ok : α → Bool} {xs : List α}
    (hxs : ∀ x ∈ xs, Recovers take? put ok x) :
    Recovers (list? take?) (fun xs => .array (xs.map put)) (·.all ok) xs := by
  show (xs.map put).mapM take? = Option.guard _ xs
  induction xs with
  | nil => rfl
  | cons x xs ih =>
    have hx : take? (put x) = Option.guard ok x := hxs x List.mem_cons_self
    rw [List.map_cons, List.mapM_cons, hx, ih fun y hy => hxs y (List.mem_cons_of_mem x hy)]
    simp only [Option.bind_eq_bind, guard_bind]
    simp only [Option.guard, List.all_cons, Bool.and_eq_true, ite_and]
    rfl

/-! ### Records -/

theorem named?_map (ms : List (String × Json)) :
    named? (ms.map fun (k, x) => (some k, x)) = some ms := by
  unfold named?
  rw [List.mapM_map]
  exact (mapM_eq_some_map (g := id) fun _ _ => rfl).trans (congrArg some (List.map_id ms))

theorem under_cons (name k : String) (x : Json) (ms : List (String × Json)) :
    under name ((k, x) :: ms) = if k = name then x :: under name ms else under name ms := by
  by_cases hk : k = name <;> simp [under, hk]

theorem under_of_notMem {name : String} (hn : name ∉ ms.map Prod.fst) : under name ms = [] := by
  refine List.filterMap_eq_nil_iff.2 ?_
  rintro ⟨k, x⟩ hm
  refine if_neg ?_
  rintro rfl
  exact hn (List.mem_map_of_mem hm)

/-- With every name there only once, a field is what stands under its name. -/
theorem field?_of_nodup (hms : (ms.map Prod.fst).Nodup) (name : String) :
    field? ms name = some (ms.lookup name) := by
  unfold field?
  induction ms with
  | nil => rfl
  | cons m ms ih =>
    obtain ⟨k, x⟩ := m
    obtain ⟨hk, hms⟩ := List.nodup_cons.1 hms
    by_cases hname : k = name
    · subst hname
      rw [under_cons, if_pos rfl, under_of_notMem hk, List.lookup_cons_self]
    · rw [under_cons, if_neg hname, ih hms, List.lookup_cons, beq_false_of_ne (Ne.symm hname)]

theorem objectFields?_ofMembers (hms : (ms.map Prod.fst).Nodup) (names : List String) :
    objectFields? names (ofMembers ms) = some (names.map fun name => ms.lookup name) := by
  show (named? (ms.map fun (k, x) => (some k, x))).bind _ = _
  rw [named?_map, Option.bind_some]
  exact mapM_eq_some_map fun name _ => field?_of_nodup hms name

/-- **The fields of a record are found under their names.** -/
theorem fields?_ofMembers (hms : (ms.map Prod.fst).Nodup) (names : List String) :
    fields? names (ofMembers ms) = some (names.map fun name => ms.lookup name) :=
  objectFields?_ofMembers hms names

/-! ### Integers -/

/-- An integer of 64 bits is read as such. -/
theorem integer?_ofInt {n : Int} (hlow : -0x8000000000000000 ≤ n)
    (hhigh : n < 0x10000000000000000) : (ofInt n).integer? = some n := by
  show Numeral.integer? (.ofInt n) = some n
  unfold Numeral.integer? Numeral.ofInt
  dsimp only
  rw [if_neg (by simp), ofDigits_digitsOf]
  by_cases hneg : n < 0
  · rw [if_pos (decide_eq_true hneg), if_pos (by omega)]
    exact congrArg some (by omega)
  · rw [if_neg (by simpa using hneg), if_pos (by omega)]
    exact congrArg some (by omega)

/-- **An integer of 32 bits comes out again.** -/
theorem int32?_ofInt (n : Int32) : (ofInt n.toInt).int32? = some n := by
  have hlow := n.le_toInt
  have hhigh := n.toInt_lt
  unfold int32?
  rw [integer?_ofInt (by omega) (by omega), Option.bind_some, if_pos (by omega), Int32.ofInt_toInt]

end Json
end Cascade
