import WhileStatics.Proofs.EquivalentTypes

/-!
# Unfoldings of types

Replacing the names in a type by what they stand for, again and again, unfolds
the type into a tree without names that may go on forever. `unfoldTo` cuts this
tree at a depth. Types are equivalent exactly when their unfoldings are equal at
every depth, so that how many names the declarations of a recursive type use
makes no difference.
-/

namespace WhileStatics.Ty

/-- A type without names, given down to some depth. -/
inductive Tree where
  | cut
  | leaf (t : Ty)
  | array (element : Tree)
  | record (fields : List (String × Tree))

/-- The first `depth` levels of what a type unfolds to. A type that does not resolve is a leaf. -/
def unfoldTo (types : TypeTable) : (depth : Nat) → Ty → Tree
  | 0, _ => .cut
  | depth + 1, t =>
      match t.resolve types with
      | .ok (.array e) => .array (unfoldTo types depth e)
      | .ok (.record fs) => .record (fs.map fun f => (f.1, unfoldTo types depth f.2))
      | .ok primitive => .leaf primitive
      | .error _ => .leaf t

/-- The type is written without names. -/
def Nameless (t : Ty) : Prop :=
  ∀ n, .named n ∉ subterms t

variable {types : TypeTable} {a b c : Ty}

/-! ### One level of an unfolding -/

theorem unfoldTo_array {e : Ty} (h : a.resolve types = .ok (.array e)) (depth : Nat) :
    unfoldTo types (depth + 1) a = .array (unfoldTo types depth e) := by
  rw [unfoldTo, h]

theorem unfoldTo_record {fs : List (String × Ty)} (h : a.resolve types = .ok (.record fs))
    (depth : Nat) :
    unfoldTo types (depth + 1) a = .record (fs.map fun f => (f.1, unfoldTo types depth f.2)) := by
  rw [unfoldTo, h]

theorem unfoldTo_primitive {p : Ty} (hp : p ∈ [Ty.void, .bool, .char, .int, .string])
    (h : a.resolve types = .ok p) (depth : Nat) : unfoldTo types (depth + 1) a = .leaf p := by
  rw [unfoldTo, h]
  cases p <;> simp at hp ⊢

theorem resolve_of_unfoldTo_array {depth : Nat} {tree : Tree}
    (h : unfoldTo types (depth + 1) a = .array tree) :
    ∃ e, a.resolve types = .ok (.array e) := by
  rw [unfoldTo] at h
  split at h
  case h_1 e he => exact ⟨e, he⟩
  all_goals cases h

theorem resolve_of_unfoldTo_record {depth : Nat} {fields : List (String × Tree)}
    (h : unfoldTo types (depth + 1) a = .record fields) :
    ∃ fs, a.resolve types = .ok (.record fs) := by
  rw [unfoldTo] at h
  split at h
  case h_2 fs hfs => exact ⟨fs, hfs⟩
  all_goals cases h

theorem resolve_of_unfoldTo_leaf {u : Ty} {depth : Nat} (ha : NamesResolve types a)
    (h : unfoldTo types (depth + 1) a = .leaf u) : a.resolve types = .ok u := by
  obtain ⟨v, hv⟩ := ha.exists_resolve
  rw [unfoldTo, hv] at h
  cases v <;> cases h
  all_goals exact hv

/-- Equal unfoldings of two lists of fields are equal field by field. -/
theorem forall_zip_of_unfoldTo_fields {fs gs : List (String × Ty)} {depth : Nat}
    (h : (fs.map fun f => (f.1, unfoldTo types depth f.2)) =
      gs.map fun g => (g.1, unfoldTo types depth g.2)) :
    fs.length = gs.length ∧ ∀ p ∈ fs.zip gs,
      p.1.1 = p.2.1 ∧ unfoldTo types depth p.1.2 = unfoldTo types depth p.2.2 := by
  rw [← List.forall₂_eq_eq_eq, List.forall₂_map_left_iff, List.forall₂_map_right_iff,
    List.forall₂_iff_zip] at h
  exact ⟨h.1, fun p hp => Prod.mk.inj (h.2 hp)⟩

/-! ### Equivalence and unfoldings -/

/-- Equivalent types cannot be told apart at any depth. -/
theorem Alike.unfoldTo_eq (h : Alike types a b) (depth : Nat) :
    unfoldTo types depth a = unfoldTo types depth b := by
  induction depth generalizing a b with
  | zero => rfl
  | succ depth ih =>
      obtain ⟨u, hu⟩ := h.left.exists_resolve
      obtain ⟨v, hv, huv⟩ := h.resolved hu
      have hshape := huv.shape_eq (shape_of_resolve hu) (shape_of_resolve hv)
      cases u with
      | array e =>
          obtain ⟨e', hb, he⟩ := h.exists_array hu
          rw [unfoldTo_array hu, unfoldTo_array hb, ih he]
      | record fs =>
          obtain ⟨gs, hb, hfields⟩ := h.exists_record hu
          rw [unfoldTo_record hu, unfoldTo_record hb, Tree.record.injEq]
          refine List.forall₂_eq_eq_eq ▸ List.rel_map ?_ hfields
          rintro ⟨n, s⟩ ⟨m, t⟩ ⟨rfl, hst⟩
          exact congrArg (Prod.mk n) (ih hst)
      | named n => exact absurd rfl (shape_of_resolve hu)
      | void | bool | char | int | string =>
          cases v <;> cases hshape
          rw [unfoldTo_primitive (by simp) hu, unfoldTo_primitive (by simp) hv]

/-- Types whose unfoldings are equal match, and so do their parts. -/
theorem isSimulation_unfoldTo (types : TypeTable) :
    IsSimulation types fun a b => NamesResolve types a ∧ NamesResolve types b ∧
      ∀ depth, unfoldTo types depth a = unfoldTo types depth b := by
  rintro a b ⟨ha, hb, h⟩
  have hnames := hereditary_namesResolve types
  have hlevel : ∀ depth, unfoldTo types (depth + 1) b = unfoldTo types (depth + 1) a :=
    fun depth => (h (depth + 1)).symm
  obtain ⟨u, hu⟩ := ha.exists_resolve
  have hparts := hnames.resolved ha hu
  cases u with
  | array s =>
      obtain ⟨t, ht⟩ := resolve_of_unfoldTo_array ((hlevel 0).trans (unfoldTo_array hu 0))
      refine .array hu ht ⟨hnames.element hparts, hnames.element (hnames.resolved hb ht), ?_⟩
      intro depth
      have harray := h (depth + 1)
      rwa [unfoldTo_array hu, unfoldTo_array ht, Tree.array.injEq] at harray
  | record fs =>
      obtain ⟨gs, hgs⟩ := resolve_of_unfoldTo_record ((hlevel 0).trans (unfoldTo_record hu 0))
      have hparts' := hnames.resolved hb hgs
      have hfields : ∀ depth, fs.length = gs.length ∧ ∀ p ∈ fs.zip gs,
          p.1.1 = p.2.1 ∧ unfoldTo types depth p.1.2 = unfoldTo types depth p.2.2 := by
        intro depth
        apply forall_zip_of_unfoldTo_fields
        have hrecord := h (depth + 1)
        rwa [unfoldTo_record hu, unfoldTo_record hgs, Tree.record.injEq] at hrecord
      refine .record hu hgs (hfields 0).1.le fun p hp => ⟨((hfields 0).2 p hp).1, ?_⟩
      obtain ⟨hs, ht⟩ := hnames.zip_fields hparts hparts' hp
      exact ⟨hs, ht, fun depth => ((hfields depth).2 p hp).2⟩
  | named n => exact absurd rfl (shape_of_resolve hu)
  | void =>
      have hleaf := (hlevel 0).trans (unfoldTo_primitive (by simp) hu 0)
      exact .void (resolve_of_unfoldTo_leaf hb hleaf)
  | bool | char | int | string =>
      have hleaf := (hlevel 0).trans (unfoldTo_primitive (by simp) hu 0)
      exact .primitive (by simp) hu (resolve_of_unfoldTo_leaf hb hleaf)

theorem Alike.of_unfoldTo_eq (ha : NamesResolve types a) (hb : NamesResolve types b)
    (h : ∀ depth, unfoldTo types depth a = unfoldTo types depth b) : Alike types a b where
  left := ha
  right := hb
  above := ⟨_, isSimulation_unfoldTo types, ha, hb, h⟩
  below := ⟨_, isSimulation_unfoldTo types, hb, ha, fun depth => (h depth).symm⟩

/-! ### Types without names -/

namespace Nameless

theorem shape (h : Nameless a) : a.shape? ≠ none := by
  intro hnone
  obtain ⟨n, rfl⟩ := shape?_eq_none_iff.1 hnone
  exact h n (self_mem_subterms _)

theorem element {e : Ty} (h : Nameless (.array e)) : Nameless e := by
  intro n hn
  exact h n (by simp [subterms, hn])

theorem field {fs : List (String × Ty)} {f : String × Ty} (h : Nameless (.record fs))
    (hf : f ∈ fs) : Nameless f.2 := by
  intro n hn
  exact h n (by simpa [subterms, mem_fieldSubterms] using ⟨f.1, f.2, hf, hn⟩)

end Nameless

/-- Equivalence of types without names is equality. -/
theorem Alike.eq_of_nameless (h : Alike types a b) (ha : Nameless a) (hb : Nameless b) :
    a = b := by
  induction a generalizing b with
  | array e ih =>
      obtain ⟨e', hb', he⟩ := h.exists_array (resolve_array e)
      obtain rfl : b = .array e' := by
        rwa [resolve_of_shape hb.shape, Except.ok.injEq] at hb'
      rw [ih he ha.element hb.element]
  | record fs ih =>
      obtain ⟨gs, hb', hfields⟩ := h.exists_record (resolve_record fs)
      obtain rfl : b = .record gs := by
        rwa [resolve_of_shape hb.shape, Except.ok.injEq] at hb'
      obtain ⟨hlength, hpairs⟩ := List.forall₂_iff_zip.1 hfields
      rw [Ty.record.injEq, ← List.forall₂_eq_eq_eq]
      refine List.forall₂_iff_zip.2 ⟨hlength, fun {f g} hfg => ?_⟩
      obtain ⟨hf, hg⟩ := List.of_mem_zip hfg
      obtain ⟨hname, hty⟩ := hpairs hfg
      exact Prod.ext hname (ih f hf hty (ha.field hf) (hb.field hg))
  | named n => exact absurd rfl ha.shape
  | void | bool | char | int | string =>
      have hshape := h.shape_eq ha.shape hb.shape
      cases b <;> cases hshape
      rfl

/-! ### The order and its equivalence -/

/-- On types whose names resolve, being a subtype is a preorder, and the equivalence it induces
is equality of the unfoldings at every depth; on types without names it is equality. -/
theorem isSubtype_preorder_of_unfoldings (ha : NamesResolve types a) (hb : NamesResolve types b)
    (hc : NamesResolve types c) :
    isSubtype types a a = .ok true ∧
      (isSubtype types a b = .ok true → isSubtype types b c = .ok true →
        isSubtype types a c = .ok true) ∧
      (equivalent types a b = .ok true ↔
        ∀ depth, unfoldTo types depth a = unfoldTo types depth b) ∧
      (Nameless a → Nameless b → equivalent types a b = .ok true → a = b) := by
  have halike : equivalent types a b = .ok true → Alike types a b := by
    intro h
    obtain ⟨habove, hbelow⟩ := (equivalent_eq_true_iff ha hb).1 h
    exact ⟨ha, hb, habove, hbelow⟩
  refine ⟨(isSubtype_eq_true_iff ha ha).2 (.refl ha), ?_, ?_, ?_⟩
  · rw [isSubtype_eq_true_iff ha hb, isSubtype_eq_true_iff hb hc, isSubtype_eq_true_iff ha hc]
    exact Below.trans
  · exact ⟨fun h => (halike h).unfoldTo_eq, fun h => (Alike.of_unfoldTo_eq ha hb h).equivalent⟩
  · exact fun hleft hright h => (halike h).eq_of_nameless hleft hright

/-- Streams that are declared in one piece and streams that are declared as two types that take
turns have the same unfoldings. -/
theorem stream_unfoldings_eq :
    isSubtype streamTypes (.named "Stream") (.named "Odd") = .ok true ∧
      equivalent streamTypes (.named "Stream") (.named "Even") = .ok true ∧
      ∀ depth, unfoldTo streamTypes depth (.named "Stream") =
        unfoldTo streamTypes depth (.named "Even") := by
  have hdecls : ∀ e ∈ streamTypes.entries, validate streamTypes e.2.ty = .ok () := by
    simp only [streamTypes, List.forall_mem_cons]
    exact ⟨rfl, rfl, rfl, by simp⟩
  obtain ⟨_, htrans, hunfold, _⟩ := isSubtype_preorder_of_unfoldings
    (namesResolve_of_validate (t := .named "Stream") hdecls rfl)
    (namesResolve_of_validate (t := .named "Even") hdecls rfl)
    (namesResolve_of_validate (t := .named "Odd") hdecls rfl)
  have hequivalent : equivalent streamTypes (.named "Stream") (.named "Even") = .ok true := rfl
  exact ⟨htrans rfl rfl, hequivalent, hunfold.1 hequivalent⟩

end WhileStatics.Ty
