/-
# Tables

A table gives a value to each of its keys. It is a list of pairs in which the
first pair for a key counts, and a value that is put replaces the one there was.

Key definitions: `Table`, `Table.put`, `Names`.
Key theorems: `Table.lookup_put_self`, `Table.lookup_put_of_ne`, `Table.put_put`.
-/

namespace Treewalk

/-- A table, the first entry for each key counting. -/
abbrev Table (κ β : Type) := List (κ × β)

/-- A table from names. -/
abbrev Names (β : Type) := Table String β

namespace Table

variable {κ β : Type} [BEq κ]

/-- The table with the entry of one key replaced, or added at the end. -/
def put (key : κ) (b : β) : Table κ β → Table κ β
  | [] => [(key, b)]
  | (k, c) :: rest => if k == key then (k, b) :: rest else (k, c) :: put key b rest

/-- A lookup in the table with every value changed. -/
theorem lookup_map {γ : Type} (g : β → γ) (key : κ) : ∀ t : Table κ β,
    List.lookup key (t.map fun e => (e.1, g e.2)) = (List.lookup key t).map g
  | [] => rfl
  | (k, b) :: t => by
    rw [List.map_cons, List.lookup_cons, List.lookup_cons]
    cases key == k with
    | true => rfl
    | false => exact lookup_map g key t

theorem map_put {γ : Type} (g : β → γ) (key : κ) (b : β) : ∀ t : Table κ β,
    (put key b t).map (fun e => (e.1, g e.2)) = put key (g b) (t.map fun e => (e.1, g e.2))
  | [] => rfl
  | (k, c) :: t => by
    rw [put, List.map_cons, put]
    by_cases h : (k == key) = true
    · rw [if_pos h, if_pos h]
      rfl
    · rw [if_neg h, if_neg h, List.map_cons, map_put g key b t]

variable [LawfulBEq κ]

theorem lookup_put_self (key : κ) (b : β) (t : Table κ β) :
    (put key b t).lookup key = some b := by
  induction t with
  | nil => simp [put]
  | cons e t ih =>
    obtain ⟨k, c⟩ := e
    by_cases h : k = key
    · subst h; simp [put]
    · have h' : (key == k) = false := by simpa using Ne.symm h
      simp [put, h, List.lookup_cons, h', ih]

theorem lookup_put_of_ne {key other : κ} (b : β) (t : Table κ β) (ne : other ≠ key) :
    (put key b t).lookup other = t.lookup other := by
  have hne : (other == key) = false := by simpa using ne
  induction t with
  | nil => simp [put, List.lookup_cons, hne]
  | cons e t ih =>
    obtain ⟨k, c⟩ := e
    by_cases h : k = key
    · subst h
      simp [put, List.lookup_cons, hne]
    · simp [put, h, List.lookup_cons, ih]

theorem isSome_lookup_put {key other : κ} (b : β) (t : Table κ β) :
    ((put key b t).lookup other).isSome = (other == key || (t.lookup other).isSome) := by
  by_cases h : other = key
  · subst h
    simp [lookup_put_self]
  · have hne : (other == key) = false := by simpa using h
    rw [lookup_put_of_ne b t h, hne, Bool.false_or]

/-- Of two values put for one key the second stays. -/
theorem put_put (key : κ) (b c : β) (t : Table κ β) : (t.put key b).put key c = t.put key c := by
  induction t with
  | nil => simp [put]
  | cons e t ih =>
    obtain ⟨k, d⟩ := e
    by_cases h : k = key
    · simp [put, h]
    · simp [put, h, ih]

end Table

end Treewalk
