/-!
# Finite tables

A table is a finite map kept as a list of entries, in the order in which the
keys were first written.  Writing a key that is present changes its entry where
it stands; a new key goes to the end.  No key has two entries, so that a walk
over the entries meets every key once.

## Main definitions

* `Table` — the entries.
* `Table.get?`, `Table.insert`, `Table.erase`, `Table.filter` — look up, write, remove.

## Main results

* `Table.get?_insert`, `Table.get?_erase`, `Table.get?_modify` — what the operations
  do to a look-up.
* `Table.get?_eq_some_iff` — a look-up finds exactly the entries.
-/

namespace Cascade

/-- A finite map from `κ` to `β`, oldest key first. -/
structure Table (κ β : Type) where
  /-- The entries. -/
  entries : List (κ × β) := []
  /-- No key has two entries. -/
  nodup : (entries.map Prod.fst).Nodup := by exact List.nodup_nil

instance {κ β : Type} : Inhabited (Table κ β) := ⟨{}⟩

namespace Table

variable {κ β : Type} [DecidableEq κ]

/-- The value of the first entry under `k`. -/
def find : List (κ × β) → κ → Option β
  | [], _ => none
  | (k', v) :: rest, k => if k' = k then some v else find rest k

/-- The entries after writing `v` under `k`: in place if `k` is there, else at the end. -/
def put : List (κ × β) → κ → β → List (κ × β)
  | [], k, v => [(k, v)]
  | (k', v') :: rest, k, v => if k' = k then (k, v) :: rest else (k', v') :: put rest k v

theorem mem_keys_put {es : List (κ × β)} {k : κ} {v : β} {x : κ} :
    x ∈ (put es k v).map Prod.fst ↔ x = k ∨ x ∈ es.map Prod.fst := by
  induction es with
  | nil => simp [put]
  | cons e es ih => grind [put]

theorem nodup_put {es : List (κ × β)} (h : (es.map Prod.fst).Nodup) (k : κ) (v : β) :
    ((put es k v).map Prod.fst).Nodup := by
  induction es with
  | nil => simp [put]
  | cons e es ih =>
    obtain ⟨k', v'⟩ := e
    rw [List.map_cons, List.nodup_cons] at h
    by_cases hk : k' = k
    · subst hk
      simpa [put] using h
    · rw [put, if_neg hk, List.map_cons, List.nodup_cons, mem_keys_put]
      exact ⟨fun hm => hm.elim hk h.1, ih h.2⟩

/-- The value under `k`. -/
def get? (t : Table κ β) (k : κ) : Option β := find t.entries k

/-- Whether `k` has an entry. -/
def contains (t : Table κ β) (k : κ) : Bool := (t.get? k).isSome

/-- Writes `v` under `k`. -/
def insert (t : Table κ β) (k : κ) (v : β) : Table κ β := ⟨put t.entries k v, nodup_put t.nodup k v⟩

/-- The table of a list of entries, of which the last under a key counts. -/
def ofList (es : List (κ × β)) : Table κ β := es.foldl (fun t e => t.insert e.1 e.2) {}

omit [DecidableEq κ] in
/-- Keeps the entries that satisfy `p`. -/
def filter (p : κ → β → Bool) (t : Table κ β) : Table κ β where
  entries := t.entries.filter fun e => p e.1 e.2
  nodup := (List.filter_sublist.map Prod.fst).nodup t.nodup

/-- Removes the entry under `k`. -/
def erase (t : Table κ β) (k : κ) : Table κ β := t.filter fun k' _ => decide (k' ≠ k)

/-- Changes the value under `k` by `f`, if there is one. -/
def modify (t : Table κ β) (k : κ) (f : β → β) : Table κ β :=
  match t.get? k with
  | none => t
  | some v => t.insert k (f v)

/-- The keys, oldest first. -/
def keys (t : Table κ β) : List κ := t.entries.map Prod.fst

/-- The number of entries. -/
def size (t : Table κ β) : Nat := t.entries.length

/-- Whether there is no entry. -/
def isEmpty (t : Table κ β) : Bool := t.entries.isEmpty

/-! ### What the operations do to a look-up -/

theorem find_put (es : List (κ × β)) (k : κ) (v : β) (x : κ) :
    find (put es k v) x = if k = x then some v else find es x := by
  induction es with
  | nil => simp [put, find]
  | cons e es ih =>
    obtain ⟨k', v'⟩ := e
    by_cases h : k' = k
    · subst h
      by_cases hx : k' = x <;> simp [put, find, hx]
    · by_cases hx : k' = x
      · subst hx
        simp [put, find, h, Ne.symm h]
      · simp [put, find, h, hx, ih]

/-- A written key answers with what was written, every other key as before. -/
@[simp] theorem get?_insert (t : Table κ β) (k : κ) (v : β) (x : κ) :
    (t.insert k v).get? x = if k = x then some v else t.get? x :=
  find_put t.entries k v x

@[simp] theorem get?_empty (k : κ) : ({} : Table κ β).get? k = none := rfl

theorem find_filter_ne (es : List (κ × β)) (k x : κ) :
    find (es.filter fun e => decide (e.1 ≠ k)) x = if k = x then none else find es x := by
  induction es with
  | nil => simp [find]
  | cons e es ih =>
    obtain ⟨k', v'⟩ := e
    by_cases h : k' = k
    · subst h
      by_cases hx : k' = x <;> simpa [find, hx] using ih
    · by_cases hx : k' = x
      · subst hx
        simp [find, h, Ne.symm h]
      · simpa [find, h, hx] using ih

/-- An erased key answers nothing, every other key as before. -/
@[simp] theorem get?_erase (t : Table κ β) (k x : κ) :
    (t.erase k).get? x = if k = x then none else t.get? x :=
  find_filter_ne t.entries k x

/-- Changing the value under `k` touches no other key. -/
@[simp] theorem get?_modify (t : Table κ β) (k : κ) (f : β → β) (x : κ) :
    (t.modify k f).get? x = if k = x then (t.get? k).map f else t.get? x := by
  unfold modify
  cases h : t.get? k with
  | none =>
    by_cases hx : k = x
    · subst hx; simp [h]
    · simp [hx]
  | some v => simp

/-- A look-up finds exactly the entries. -/
theorem get?_eq_some_iff {t : Table κ β} {k : κ} {v : β} :
    t.get? k = some v ↔ (k, v) ∈ t.entries := by
  obtain ⟨es, hes⟩ := t
  simp only [get?]
  induction es with
  | nil => simp [find]
  | cons e es ih =>
    obtain ⟨k', v'⟩ := e
    rw [List.map_cons, List.nodup_cons] at hes
    by_cases hk : k' = k
    · subst hk
      have hv : (k', v) ∉ es := fun hm => hes.1 (List.mem_map.2 ⟨_, hm, rfl⟩)
      simp [find, hv, eq_comm]
    · simp [find, hk, Ne.symm hk, ih hes.2]

end Table

end Cascade
