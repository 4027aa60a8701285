/-!
# Tables

A table maps names to declarations. Inserting a name again replaces what the
table held for it, so a table has one entry for each of its names.
-/

namespace WhileStatics

variable {α : Type}

/-- Entries under pairwise different names. -/
structure Table (α : Type) where
  entries : List (String × α)
  nodup : (entries.map Prod.fst).Nodup

namespace Table

/-- The table without entries. -/
def empty : Table α := ⟨[], List.nodup_nil⟩

instance : Inhabited (Table α) := ⟨empty⟩

/-- The entry under a name. -/
def get? (t : Table α) (name : String) : Option α := t.entries.lookup name

/-- A name that has an entry. -/
def contains (t : Table α) (name : String) : Bool := (t.get? name).isSome

/-- The number of names. -/
def size (t : Table α) : Nat := t.entries.length

/-- Puts an entry under a name in the place of what the table held for it. -/
def insert (t : Table α) (name : String) (a : α) : Table α where
  entries := (name, a) :: t.entries.filter fun e => e.1 != name
  nodup := by
    rw [List.map_cons, List.nodup_cons]
    refine ⟨by simp, ?_⟩
    exact (List.filter_sublist.map Prod.fst).nodup t.nodup

@[simp] theorem get?_empty (name : String) : (empty : Table α).get? name = none := rfl

@[simp] theorem get?_insert_self (t : Table α) (name : String) (a : α) :
    (t.insert name a).get? name = some a := by
  simp [get?, insert]

private theorem lookup_filter_ne {name other : String} (h : other ≠ name)
    (entries : List (String × α)) :
    (entries.filter fun e => e.1 != name).lookup other = entries.lookup other := by
  induction entries with
  | nil => rfl
  | cons e entries ih =>
      obtain ⟨k, a⟩ := e
      by_cases hk : k = name
      · subst hk
        have hne : (other == k) = false := by simpa using h
        simp [List.lookup_cons, hne, ih]
      · simp [hk, List.lookup_cons, ih]

theorem get?_insert_of_ne (t : Table α) {name other : String} (a : α) (h : other ≠ name) :
    (t.insert name a).get? other = t.get? other := by
  have hne : (other == name) = false := by simpa using h
  simp [get?, insert, List.lookup_cons, hne, lookup_filter_ne h]

/-- The entries in ascending order of their names. -/
def sorted (t : Table α) : List (String × α) :=
  t.entries.mergeSort fun a b => decide (a.1 ≤ b.1)

theorem perm_sorted (t : Table α) : t.sorted.Perm t.entries :=
  List.mergeSort_perm _ _

end Table
end WhileStatics
