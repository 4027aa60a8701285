import WhileStatics.Proofs.AliasChains
import WhileStatics.Proofs.Outcomes
import WhileStatics.Ty.Validity

/-!
# Well-formed types

A type is well formed when the names written in it resolve and no record in it
repeats a field; validation accepts exactly these types. Names stand for further
types, and `Reaches` goes through them: where every declared type is well
formed, so is every type that a well-formed type reaches.
-/

namespace WhileStatics.Ty

variable {types : TypeTable} {t u : Ty}

/-- Every name in the type resolves and no record in it repeats a field. -/
inductive WellFormed (types : TypeTable) : Ty → Prop
  | void : WellFormed types .void
  | bool : WellFormed types .bool
  | char : WellFormed types .char
  | int : WellFormed types .int
  | string : WellFormed types .string
  | array {e} (h : WellFormed types e) : WellFormed types (.array e)
  | record {fs : List (String × Ty)} (hnames : (fs.map Prod.fst).Nodup)
      (h : ∀ f ∈ fs, WellFormed types f.2) : WellFormed types (.record fs)
  | named {n u} (h : (Ty.named n).resolve types = .ok u) : WellFormed types (.named n)

theorem validateFields_eq_ok_iff {whole : Ty} {seen : List String} {fs : List (String × Ty)} :
    validateFields types whole seen fs = .ok () ↔
      (∀ f ∈ fs, f.1 ∉ seen) ∧ (fs.map Prod.fst).Nodup ∧
        ∀ f ∈ fs, validate types f.2 = .ok () := by
  induction fs generalizing seen with
  | nil => simp [validateFields]
  | cons f fs ih =>
      obtain ⟨n, t⟩ := f
      by_cases hn : n ∈ seen
      · simp [validateFields, hn]
      · simp only [validateFields, if_neg hn, bindM_eq_ok_iff, ih, forall_not_mem_cons_iff,
          List.forall_mem_cons, List.map_cons, List.nodup_cons]
        constructor
        · rintro ⟨_, ht, ⟨hfresh, hseen⟩, hnodup, hfs⟩
          exact ⟨⟨hn, hseen⟩, ⟨hfresh, hnodup⟩, ht, hfs⟩
        · rintro ⟨⟨_, hseen⟩, ⟨hfresh, hnodup⟩, ht, hfs⟩
          exact ⟨(), ht, ⟨hfresh, hseen⟩, hnodup, hfs⟩

/-- Validation accepts exactly the well-formed types. -/
theorem validate_eq_ok_iff : validate types t = .ok () ↔ WellFormed types t := by
  induction t with
  | array e ih =>
      rw [validate, ih]
      exact ⟨.array, fun h => by cases h; assumption⟩
  | record fs ih =>
      rw [validate, validateFields_eq_ok_iff]
      constructor
      · rintro ⟨_, hnames, h⟩
        exact .record hnames fun f hf => (ih f hf).1 (h f hf)
      · intro h
        cases h with
        | record hnames h => exact ⟨by simp, hnames, fun f hf => (ih f hf).2 (h f hf)⟩
  | named n =>
      rw [validate, bindM_eq_ok_iff]
      constructor
      · rintro ⟨u, hu, _⟩
        exact .named hu
      · intro h
        cases h with
        | named hu => exact ⟨_, hu, rfl⟩
  | void => exact ⟨fun _ => .void, fun _ => by rw [validate] <;> simp⟩
  | bool => exact ⟨fun _ => .bool, fun _ => by rw [validate] <;> simp⟩
  | char => exact ⟨fun _ => .char, fun _ => by rw [validate] <;> simp⟩
  | int => exact ⟨fun _ => .int, fun _ => by rw [validate] <;> simp⟩
  | string => exact ⟨fun _ => .string, fun _ => by rw [validate] <;> simp⟩

/-- The types that occur in a type, also behind the names in it. -/
inductive Reaches (types : TypeTable) : Ty → Ty → Prop
  | refl (t : Ty) : Reaches types t t
  | element {e u} (h : Reaches types e u) : Reaches types (.array e) u
  | field {fs : List (String × Ty)} {f u} (hf : f ∈ fs) (h : Reaches types f.2 u) :
      Reaches types (.record fs) u
  | declared {n d u} (hd : types.get? n = some d) (h : Reaches types d.ty u) :
      Reaches types (.named n) u

theorem Reaches.trans {v : Ty} (h : Reaches types t u) (hv : Reaches types u v) :
    Reaches types t v := by
  induction h with
  | refl => exact hv
  | element _ ih => exact .element (ih hv)
  | field hf _ ih => exact .field hf (ih hv)
  | declared hd _ ih => exact .declared hd (ih hv)

theorem reaches_of_resolve (h : t.resolve types = .ok u) : Reaches types t u := by
  obtain ⟨k, chain⟩ := (resolve_eq_ok_iff.1 h).2
  clear h
  induction chain with
  | stop _ => exact .refl _
  | next hd _ ih => exact .declared hd ih

/-- The property passes on to all types that a type reaches. -/
def Hereditary (types : TypeTable) (Q : Ty → Prop) : Prop :=
  ∀ ⦃t u⦄, Q t → Reaches types t u → Q u

namespace Hereditary

variable {Q : Ty → Prop}

theorem element (hQ : Hereditary types Q) {e : Ty} (h : Q (.array e)) : Q e :=
  hQ h (.element (.refl e))

theorem field (hQ : Hereditary types Q) {fs : List (String × Ty)} {f : String × Ty}
    (h : Q (.record fs)) (hf : f ∈ fs) : Q f.2 :=
  hQ h (.field hf (.refl f.2))

/-- Two records whose fields are compared in pairs. -/
theorem zip_fields (hQ : Hereditary types Q) {fs gs : List (String × Ty)} (hfs : Q (.record fs))
    (hgs : Q (.record gs)) {p : (String × Ty) × (String × Ty)} (hp : p ∈ fs.zip gs) :
    Q p.1.2 ∧ Q p.2.2 :=
  ⟨hQ.field hfs (List.of_mem_zip hp).1, hQ.field hgs (List.of_mem_zip hp).2⟩

theorem resolved (hQ : Hereditary types Q) (h : Q t) (hu : t.resolve types = .ok u) : Q u :=
  hQ h (reaches_of_resolve hu)

end Hereditary

/-- The class holds the primitive types and all arrays and records that are built of its types
without a repeated field. -/
structure Constructive (Q : Ty → Prop) : Prop where
  primitive : ∀ t ∈ [Ty.void, .bool, .char, .int, .string], Q t
  array : ∀ {e}, Q e → Q (.array e)
  record : ∀ {fs : List (String × Ty)}, (fs.map Prod.fst).Nodup → (∀ f ∈ fs, Q f.2) →
    Q (.record fs)

theorem constructive_wellFormed (types : TypeTable) : Constructive (WellFormed types) where
  primitive t ht := by
    simp only [List.mem_cons, List.not_mem_nil, or_false] at ht
    rcases ht with rfl | rfl | rfl | rfl | rfl <;> constructor
  array := .array
  record := .record

/-- What holds of all names that a type reaches holds of those that its parts reach. -/
theorem hereditary_names (types : TypeTable) (p : String → Prop) :
    Hereditary types fun t => ∀ n, Reaches types t (.named n) → p n := by
  intro t u h hu n hn
  exact h n (hu.trans hn)

/-- What holds of all names that the parts of a type reach holds of those that it reaches. -/
theorem constructive_names (types : TypeTable) (p : String → Prop) :
    Constructive fun t => ∀ n, Reaches types t (.named n) → p n where
  primitive t ht n hn := by
    cases hn <;> simp at ht
  array he n hn := by
    cases hn with
    | element hn => exact he n hn
  record _ hfs n hn := by
    cases hn with
    | field hf hn => exact hfs _ hf n hn

/-- Every name that a type reaches resolves. -/
def NamesResolve (types : TypeTable) (t : Ty) : Prop :=
  ∀ n, Reaches types t (.named n) → ∃ u, (Ty.named n).resolve types = .ok u

theorem hereditary_namesResolve (types : TypeTable) : Hereditary types (NamesResolve types) :=
  hereditary_names types _

theorem constructive_namesResolve (types : TypeTable) : Constructive (NamesResolve types) :=
  constructive_names types _

/-- A type whose names resolve resolves itself. -/
theorem NamesResolve.exists_resolve (h : NamesResolve types t) :
    ∃ u, t.resolve types = .ok u := by
  cases hs : t.shape? with
  | some s => exact ⟨t, resolve_of_shape (by simp [hs])⟩
  | none =>
      obtain ⟨n, rfl⟩ := shape?_eq_none_iff.1 hs
      exact h n (.refl _)

/-- Well-formed declarations keep everything well formed that a well-formed type reaches. -/
theorem hereditary_wellFormed (hdecls : ∀ n d, types.get? n = some d → WellFormed types d.ty) :
    Hereditary types (WellFormed types) := by
  intro t u h hu
  induction hu with
  | refl t => exact h
  | element _ ih =>
      cases h with
      | array h => exact ih h
  | field hf _ ih =>
      cases h with
      | record _ h => exact ih (h _ hf)
  | declared hd _ ih => exact ih (hdecls _ _ hd)

theorem WellFormed.namesResolve
    (hdecls : ∀ n d, types.get? n = some d → WellFormed types d.ty)
    (h : WellFormed types t) : NamesResolve types t := by
  intro n hn
  cases hereditary_wellFormed hdecls h hn with
  | named hu => exact ⟨_, hu⟩

/-- A declared name resolves where the declared types are well formed. -/
theorem exists_resolve_named (hdecls : ∀ n d, types.get? n = some d → WellFormed types d.ty)
    {n : String} {d : TypeDecl} (hd : types.get? n = some d) :
    ∃ u, (Ty.named n).resolve types = .ok u := by
  obtain ⟨u, hu⟩ := ((hdecls n d hd).namesResolve hdecls).exists_resolve
  exact ⟨u, (resolve_named hd).2 hu⟩

/-- Validating the declared types and one more type is enough for all names to resolve. -/
theorem namesResolve_of_validate (hdecls : ∀ e ∈ types.entries, validate types e.2.ty = .ok ())
    (h : validate types t = .ok ()) : NamesResolve types t := by
  refine (validate_eq_ok_iff.1 h).namesResolve ?_
  intro n d hd
  exact validate_eq_ok_iff.1 (hdecls _ (Table.mem_of_get? hd))

end WhileStatics.Ty
