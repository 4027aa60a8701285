import WhileStatics.Declarations

/-!
# What the tables of a program hold

Under every name a table of a program holds the last declaration of its kind
with that name. A table depends on the declarations of its kind alone, and the
bodies of methods play no part in what is found where.
-/

namespace WhileStatics

/-! ### Entries -/

variable {α : Type}

theorem mem_of_lookup {entries : List (String × α)} {name : String} {a : α}
    (h : entries.lookup name = some a) : (name, a) ∈ entries := by
  obtain ⟨before, after, rfl, _⟩ := List.lookup_eq_some_iff.1 h
  simp

namespace Table

theorem mem_of_get? {t : Table α} {name : String} {a : α} (h : t.get? name = some a) :
    (name, a) ∈ t.entries :=
  mem_of_lookup h

theorem contains_of_get? {t : Table α} {name : String} {a : α} (h : t.get? name = some a) :
    t.contains name = true := by
  rw [contains, h, Option.isSome_some]

theorem mem_map_fst_of_contains {t : Table α} {name : String} (h : t.contains name = true) :
    name ∈ t.entries.map Prod.fst := by
  obtain ⟨a, ha⟩ := Option.isSome_iff_exists.1 h
  exact List.mem_map_of_mem (mem_of_get? ha)

/-- Pairwise different names that all have entries are at most as many as the entries. -/
theorem length_le_size {t : Table α} {names : List String} (hnodup : names.Nodup)
    (h : ∀ n ∈ names, ∃ a, t.get? n = some a) : names.length ≤ t.size := by
  have hsub : names ⊆ t.entries.map Prod.fst := by
    intro n hn
    obtain ⟨a, ha⟩ := h n hn
    exact List.mem_map.2 ⟨(n, a), mem_of_get? ha, rfl⟩
  simpa [size] using hnodup.length_le_of_subset hsub

theorem get?_insert (t : Table α) (name other : String) (a : α) :
    (t.insert name a).get? other = if name = other then some a else t.get? other := by
  by_cases h : name = other
  · rw [if_pos h, h, get?_insert_self]
  · rw [if_neg h, get?_insert_of_ne t a (Ne.symm h)]

/-- Enters items under their names in their order. -/
def insertItems (name : α → String) (t : Table α) (items : List α) : Table α :=
  items.foldl (fun t a => t.insert (name a) a) t

/-- The last item with a name is found under it, and otherwise what was there before. -/
theorem get?_insertItems (name : α → String) (t : Table α) (items : List α) (n : String) :
    (t.insertItems name items).get? n =
      (items.reverse.find? fun a => name a == n).or (t.get? n) := by
  induction items generalizing t with
  | nil => rfl
  | cons a items ih =>
      have hstep := ih (t.insert (name a) a)
      rw [get?_insert] at hstep
      rw [List.reverse_cons, List.find?_append, Option.or_assoc]
      refine hstep.trans ?_
      by_cases h : name a = n <;> simp [h]

end Table

/-! ### The tables by kind -/

/-- The type declaration, if it is one. -/
def Decl.type? : Decl → Option TypeDecl
  | .type t => some t
  | _ => none

/-- The macro declaration, if it is one. -/
def Decl.macroDecl? : Decl → Option MacroDecl
  | .macroDecl m => some m
  | _ => none

namespace Program

variable {p q : Program} {n : String}

/-- The declarations of types in their order. -/
def types (p : Program) : List TypeDecl := p.decls.filterMap Decl.type?

/-- The declarations of macros in their order. -/
def macros (p : Program) : List MacroDecl := p.decls.filterMap Decl.macroDecl?

theorem declarations_insertAll (ds : Declarations) (decls : List Decl) :
    ds.insertAll decls =
      { path := ds.path
        methods := ds.methods.insertItems Method.name (decls.filterMap Decl.method?)
        types := ds.types.insertItems TypeDecl.name (decls.filterMap Decl.type?)
        macros := ds.macros.insertItems MacroDecl.name (decls.filterMap Decl.macroDecl?) } := by
  induction decls generalizing ds with
  | nil => rfl
  | cons d decls ih =>
      refine (ih (ds.insert d)).trans ?_
      cases d <;> rfl

theorem declarations_eq (p : Program) :
    p.declarations =
      { path := p.path
        methods := Table.empty.insertItems Method.name p.methods
        types := Table.empty.insertItems TypeDecl.name p.types
        macros := Table.empty.insertItems MacroDecl.name p.macros } :=
  declarations_insertAll { path := p.path } p.decls

/-- The tables of a program know the file that it stands in. -/
@[simp] theorem path_declarations (p : Program) : p.declarations.path = p.path := by
  rw [declarations_eq]

/-- A call goes to the last method of its name. -/
theorem get?_methods (p : Program) (n : String) :
    p.declarations.methods.get? n = p.methods.reverse.find? fun m => m.name == n := by
  rw [declarations_eq, Table.get?_insertItems, Table.get?_empty, Option.or_none]

/-- A type name stands for the last type declared under it. -/
theorem get?_types (p : Program) (n : String) :
    p.declarations.types.get? n = p.types.reverse.find? fun t => t.name == n := by
  rw [declarations_eq, Table.get?_insertItems, Table.get?_empty, Option.or_none]

/-- A call is expanded with the last macro of its name. -/
theorem get?_macros (p : Program) (n : String) :
    p.declarations.macros.get? n = p.macros.reverse.find? fun m => m.name == n := by
  rw [declarations_eq, Table.get?_insertItems, Table.get?_empty, Option.or_none]

/-- Under a name the tables of a program hold the last declaration of their kind. -/
structure LastWins (p : Program) : Prop where
  methods : ∀ n, p.declarations.methods.get? n = p.methods.reverse.find? fun m => m.name == n
  types : ∀ n, p.declarations.types.get? n = p.types.reverse.find? fun t => t.name == n
  macros : ∀ n, p.declarations.macros.get? n = p.macros.reverse.find? fun m => m.name == n

theorem lastWins (p : Program) : p.LastWins := ⟨p.get?_methods, p.get?_types, p.get?_macros⟩

theorem mem_methods {m : Method} : m ∈ p.methods ↔ .method m ∈ p.decls := by
  rw [methods, List.mem_filterMap]
  constructor
  · rintro ⟨d, hd, hm⟩
    cases d <;> cases hm
    exact hd
  · intro hm
    exact ⟨.method m, hm, rfl⟩

theorem mem_types {t : TypeDecl} : t ∈ p.types ↔ .type t ∈ p.decls := by
  rw [types, List.mem_filterMap]
  constructor
  · rintro ⟨d, hd, ht⟩
    cases d <;> cases ht
    exact hd
  · intro ht
    exact ⟨.type t, ht, rfl⟩

theorem mem_decls_of_get?_methods {m : Method} (h : p.declarations.methods.get? n = some m) :
    .method m ∈ p.decls := by
  rw [get?_methods] at h
  exact mem_methods.1 (List.mem_reverse.1 (List.mem_of_find?_eq_some h))

theorem mem_decls_of_get?_types {t : TypeDecl} (h : p.declarations.types.get? n = some t) :
    .type t ∈ p.decls := by
  rw [get?_types] at h
  exact mem_types.1 (List.mem_reverse.1 (List.mem_of_find?_eq_some h))

theorem exists_get?_types {t : TypeDecl} (h : .type t ∈ p.decls) :
    ∃ d, p.declarations.types.get? t.name = some d := by
  rw [get?_types, ← Option.isSome_iff_exists, List.find?_isSome]
  exact ⟨t, List.mem_reverse.2 (mem_types.2 h), by simp⟩

end Program
end WhileStatics
