import WhileStatics.Proofs.CheckingFailures

/-!
# Faults of type names

A program that passes the check mentions only types whose names resolve and whose
records repeat no field, however deep they are looked into. In the other
direction, a complaint about an unknown or a cyclic name goes back to a written
type: if all names in written types were free of such a fault, then so would be
all names that checking can meet.
-/

namespace WhileStatics

namespace Ty

variable {types : TypeTable} {P : Fault → Prop} {kind : Kind} {a b t : Ty} {n : String}

/-! ### Answers about well-formed types -/

theorem equivalent_total (ha : NamesResolve types a) (hb : NamesResolve types b) :
    ∃ answer, equivalent types a b = .ok answer := by
  obtain ⟨above, habove⟩ := isSubtype_total ha hb
  obtain ⟨below, hbelow⟩ := isSubtype_total hb ha
  cases above with
  | true => exact ⟨below, by simp [equivalent, habove, hbelow]⟩
  | false => exact ⟨false, by simp [equivalent, habove]⟩

theorem comparable_total (ha : NamesResolve types a) (hb : NamesResolve types b) :
    ∃ answer, comparable types a b = .ok answer := by
  obtain ⟨above, habove⟩ := isSubtype_total ha hb
  obtain ⟨below, hbelow⟩ := isSubtype_total hb ha
  cases above with
  | true => exact ⟨true, by simp [comparable, habove]⟩
  | false => exact ⟨below, by simp [comparable, habove, hbelow]⟩

/-! ### Names that fail with one kind of fault -/

/-- Some name in the type, as it is written, fails to resolve with a fault of the kind. -/
def HasFaultyName (types : TypeTable) (kind : Kind) (t : Ty) : Prop :=
  ∃ n, .named n ∈ t.subterms ∧ ∃ f, (Ty.named n).resolve types = .error f ∧ f.kind = kind

/-- Resolving a name that the type reaches fails only with faults that have the property. -/
def NamesFailOnly (types : TypeTable) (P : Fault → Prop) (t : Ty) : Prop :=
  ∀ n, Reaches types t (.named n) → FailsOnly P ((Ty.named n).resolve types)

theorem NamesFailOnly.resolve (h : NamesFailOnly types P t) : FailsOnly P (t.resolve types) := by
  cases hs : t.shape? with
  | some s =>
      rw [resolve_of_shape (by simp [hs])]
      exact failsOnly_ok t
  | none =>
      obtain ⟨n, rfl⟩ := shape?_eq_none_iff.1 hs
      exact h n (.refl _)

/-- Names whose faults are of other kinds lead checking to faults of other kinds. -/
theorem confines_namesFailOnly (hkind : kind ∈ [.unknownType, .cyclicType]) :
    Confines types (NamesFailOnly types (·.kind ≠ kind)) (·.kind ≠ kind) where
  constructive := constructive_names types _
  hereditary := hereditary_names types _
  resolve _ ht := ht.resolve
  other f hf := by
    rintro rfl
    simp only [List.mem_cons, List.not_mem_nil, or_false, not_or] at hf hkind
    rcases hkind with hkind | hkind
    · exact hf.1 hkind
    · exact hf.2.1 hkind

/-- A declared name is not worse than the type that it is declared as. -/
theorem NamesFailOnly.named {d : TypeDecl} (hd : types.get? n = some d)
    (h : NamesFailOnly types (·.kind ≠ kind) d.ty) :
    NamesFailOnly types (·.kind ≠ kind) (.named n) := by
  intro m hm
  cases hm with
  | refl =>
      intro f hf
      obtain ⟨g, hg, hsame⟩ := exists_fault_of_resolve_named hd hf
      rw [← hsame]
      exact h.resolve g hg
  | declared hd' hm =>
      obtain rfl := Option.some.inj (hd'.symm.trans hd)
      exact h m hm

theorem HasFaultyName.of_subterm {u : Ty} (h : HasFaultyName types kind u) (hu : u ∈ t.subterms) :
    HasFaultyName types kind t := by
  obtain ⟨n, hn, hfault⟩ := h
  exact ⟨n, subterms_subset hu hn, hfault⟩

/-- If no name in a declared type is faulty, then a type without faulty names reaches none. -/
theorem hereditary_not_hasFaultyName
    (hdecls : ∀ n d, types.get? n = some d → ¬ HasFaultyName types kind d.ty) :
    Hereditary types fun t => ¬ HasFaultyName types kind t := by
  intro t u h hu
  induction hu with
  | refl t => exact h
  | @element e _ _ ih =>
      refine ih fun he => h (he.of_subterm ?_)
      simp [subterms, self_mem_subterms]
  | @field fs f _ hf _ ih =>
      refine ih fun hfault => h (hfault.of_subterm ?_)
      rw [subterms]
      exact List.mem_cons_of_mem _ (mem_fieldSubterms.2 ⟨f, hf, self_mem_subterms f.2⟩)
  | declared hd _ ih => exact ih (hdecls _ _ hd)

theorem namesFailOnly_of_not_hasFaultyName
    (hdecls : ∀ n d, types.get? n = some d → ¬ HasFaultyName types kind d.ty)
    (ht : ¬ HasFaultyName types kind t) : NamesFailOnly types (·.kind ≠ kind) t := by
  intro n hn f hf hkind
  have hname := hereditary_not_hasFaultyName hdecls ht hn
  exact hname ⟨n, self_mem_subterms _, f, hf, hkind⟩

end Ty

namespace Program

variable {p : Program} {kind : Kind}

/-- Where no written type has a faulty name, checking finds no fault of that kind. -/
theorem failsOnly_check_of_not_hasFaultyName (hkind : kind ∈ [.unknownType, .cyclicType])
    (h : ∀ t ∈ p.writtenTypes, ¬ t.HasFaultyName p.declarations.types kind) :
    FailsOnly (fun f => f.fault.kind ≠ kind) p.check.result := by
  have hdecls : ∀ n d, p.declarations.types.get? n = some d →
      ¬ d.ty.HasFaultyName p.declarations.types kind :=
    fun n d hd => h d.ty (ty_mem_writtenTypes hd)
  have hreports : FailsOnly (p.Reports (·.kind ≠ kind)) p.check.result := by
    refine check_reports (Ty.confines_namesFailOnly hkind) ?_ ?_ {}
    · intro t ht
      exact Ty.namesFailOnly_of_not_hasFaultyName hdecls (h t ht)
    · intro t ht
      obtain ⟨d, hd⟩ := exists_get?_types (mem_types.1 ht)
      exact .named hd (Ty.namesFailOnly_of_not_hasFaultyName hdecls (hdecls _ d hd))
  refine hreports.mono fun f hf => hf.fault fun fault hinternal => ?_
  rintro rfl
  simp [hinternal] at hkind

/-- All types that a checked program mentions reach only names that resolve and records without
repeated fields, so that questions about its annotations are always answered. A check that fails
for an unknown or a cyclic name blames a name in a written type. -/
theorem check_accepts_only_well_formed_types_and_blames_written_ones (p : Program) :
    (∀ q, p.check.result = .ok q →
      (∀ t, q.Annotates t ∨ t ∈ p.writtenTypes →
        (∀ n, Ty.Reaches p.declarations.types t (.named n) →
          ∃ u, (Ty.named n).resolve p.declarations.types = .ok u) ∧
        ∀ fs, Ty.Reaches p.declarations.types t (.record fs) → (fs.map Prod.fst).Nodup) ∧
      ∀ t u, q.Annotates t → q.Annotates u →
        (∃ r, t.resolve p.declarations.types = .ok r) ∧
        (∃ r, Ty.isSubtype p.declarations.types t u = .ok r) ∧
        (∃ r, Ty.equivalent p.declarations.types t u = .ok r) ∧
        ∃ r, Ty.comparable p.declarations.types t u = .ok r) ∧
    ∀ f, p.check.result = .error f → ∀ kind ∈ [.unknownType, .cyclicType], f.fault.kind = kind →
      ∃ t ∈ p.writtenTypes, t.HasFaultyName p.declarations.types kind := by
  refine ⟨fun q hq => ?_, fun f hf kind hkind hfault => ?_⟩
  · obtain ⟨htyped, hannotation⟩ := check_eq_ok_iff.1 hq
    have htypes := htyped.wellFormed_declarations.types
    have hall : ∀ t, q.Annotates t ∨ t ∈ p.writtenTypes →
        t.WellFormed p.declarations.types := by
      rintro t (ht | ht)
      · exact hannotation.wellFormed_of_annotates htyped ht
      · exact htyped.wellFormed_writtenTypes t ht
    refine ⟨fun t ht => ⟨(hall t ht).namesResolve htypes, fun fs hfs => ?_⟩, fun t u ht hu => ?_⟩
    · cases Ty.hereditary_wellFormed htypes (hall t ht) hfs with
      | record hnames _ => exact hnames
    · have ht' := (hall t (.inl ht)).namesResolve htypes
      have hu' := (hall u (.inl hu)).namesResolve htypes
      exact ⟨ht'.exists_resolve, Ty.isSubtype_total ht' hu', Ty.equivalent_total ht' hu',
        Ty.comparable_total ht' hu'⟩
  · by_contra hnone
    push Not at hnone
    exact failsOnly_check_of_not_hasFaultyName hkind hnone f hf hfault

/-- A recursive type and a method that goes into a value of it. -/
def trees : Program where
  path := "trees"
  decls := [
    .type { name := "Tree", ty := .record [("label", .int), ("children", .array (.named "Tree"))] },
    .method { name := "main", ret := .void, params := [⟨"t", .named "Tree", {}⟩],
              body := [.print {} (.access {} (.var {} "t") "children")] }]

/-- The program `trees` with its annotations. -/
def treesChecked : Program where
  path := "trees"
  decls := trees.decls.take 1 ++ [
    .method { name := "main", ret := .void, params := [⟨"t", .named "Tree", {}⟩],
              body := [.print {} (.access { ty := some (.array (.named "Tree")) }
                (.var { ty := some (.named "Tree") } "t") "children")] }]

/-- Two types that are declared as each other. -/
def ring : Program where
  path := "ring"
  decls := [.type { name := "First", ty := .named "Second" },
    .type { name := "Second", ty := .named "First" }]

/-- All names behind the annotations of `trees` resolve and the annotations can be compared, and
the failing check of `ring` blames a written name. -/
theorem trees_annotations_resolve_and_ring_is_blamed :
    (treesChecked.Annotates (.array (.named "Tree")) ∧
      (∃ u, (Ty.named "Tree").resolve trees.declarations.types = .ok u) ∧
      ∃ r, Ty.comparable trees.declarations.types (.array (.named "Tree"))
        (.array (.named "Tree")) = .ok r) ∧
    ∃ t ∈ ring.writtenTypes, t.HasFaultyName ring.declarations.types .cyclicType := by
  have htrees := check_accepts_only_well_formed_types_and_blames_written_ones trees
  have hring := check_accepts_only_well_formed_types_and_blames_written_ones ring
  have hchecked : trees.check.result = .ok treesChecked := by rfl
  have hslot : treesChecked.Annotates (.array (.named "Tree")) :=
    ⟨_, .head _, _, .head _, _, .self _, rfl⟩
  obtain ⟨hall, hanswers⟩ := htrees.1 _ hchecked
  obtain ⟨_, _, _, hcomparable⟩ := hanswers _ _ hslot hslot
  refine ⟨⟨hslot, (hall _ (.inl hslot)).1 "Tree" (.element (.refl _)), hcomparable⟩, ?_⟩
  have hfails : ring.check.result =
      .error ⟨.cyclicType ["Second", "First"] "Second", {}, "ring"⟩ := by rfl
  exact hring.2 _ hfails .cyclicType (by simp) rfl

end Program

end WhileStatics
