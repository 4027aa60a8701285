import WhileStatics.Proofs.Failures
import WhileStatics.Proofs.SubtypeRelation
import WhileStatics.Proofs.WellFormed
import WhileStatics.Ty.Subtyping
import Mathlib.Data.List.ProdSigma

/-!
# The subtype test decides the subtype relation

A comparison that succeeds under assumptions says: if the assumed pairs agree to
some depth, so do the compared types, and to one level more when neither of them
is a name. That one level is what lets a name be assumed while it is unfolded.
In the other direction, related types are never told apart. The budget plays no
part in the answers, because the assumed pairs are different pairs of subterms
and a pair that the budget would cut is always assumed already.
-/

namespace WhileStatics.Ty

variable {types : TypeTable} {named : Ty → Ty → Except Fault Bool} {a b : Ty}

/-! ### Comparison down to names -/

/-- Induction on two types along the way a comparison goes through them. -/
@[elab_as_elim]
theorem comparison_induction {motive : Ty → Ty → Prop}
    (void : ∀ a, motive a .void)
    (name : ∀ a b, b ≠ .void → a.shape? = none ∨ b.shape? = none → motive a b)
    (primitive : ∀ p ∈ [Ty.bool, .char, .int, .string], motive p p)
    (array : ∀ s t, motive s t → motive (.array s) (.array t))
    (record : ∀ fs gs, (∀ p ∈ fs.zip gs, motive p.1.2 p.2.2) → motive (.record fs) (.record gs))
    (clash : ∀ a b, b ≠ .void → a.shape? ≠ none → b.shape? ≠ none → a.shape? ≠ b.shape? →
      motive a b)
    (a b : Ty) : motive a b := by
  have same : ∀ a b, (b ≠ .void → a.shape? = b.shape? → motive a b) → motive a b := by
    intro a b h
    by_cases hb : b = .void
    · exact hb ▸ void a
    by_cases hname : a.shape? = none ∨ b.shape? = none
    · exact name a b hb hname
    by_cases hs : a.shape? = b.shape?
    · exact h hb hs
    · exact clash a b hb (fun h => hname (.inl h)) (fun h => hname (.inr h)) hs
  induction a generalizing b with
  | array s ih =>
      refine same _ b fun _ hs => ?_
      cases b with
      | array t => exact array s t (ih t)
      | _ => cases hs
  | record fs ih =>
      refine same _ b fun _ hs => ?_
      cases b with
      | record gs => exact record fs gs fun p hp => ih p.1 (List.of_mem_zip hp).1 p.2.2
      | _ => cases hs
  | named m =>
      refine same _ b fun hb _ => ?_
      exact name _ b hb (.inl rfl)
  | void =>
      refine same _ b fun hb hs => ?_
      cases b with
      | void => exact absurd rfl hb
      | _ => cases hs
  | _ =>
      refine same _ b fun _ hs => ?_
      cases b <;> cases hs
      exact primitive _ (by simp)

theorem compareWith_void : compareWith named a .void = .ok true := by
  rw [compareWith]

/-- Where one of the types is a name, the decision is left to `named`. -/
theorem compareWith_of_name (hb : b ≠ .void) (h : a.shape? = none ∨ b.shape? = none) :
    compareWith named a b = named a b := by
  rcases h with h | h
  · obtain ⟨m, rfl⟩ := shape?_eq_none_iff.1 h
    cases b <;> simp_all [compareWith]
  · obtain ⟨n, rfl⟩ := shape?_eq_none_iff.1 h
    cases a <;> simp [compareWith]

theorem compareWith_primitive {p : Ty} (hp : p ∈ [Ty.bool, .char, .int, .string]) :
    compareWith named p p = .ok true := by
  cases p <;> simp_all [compareWith]

theorem compareWith_clash (hb : b ≠ .void) (ha : a.shape? ≠ none) (hb' : b.shape? ≠ none)
    (h : a.shape? ≠ b.shape?) : compareWith named a b = .ok false := by
  cases a <;> cases b <;> simp_all [shape?, compareWith]

theorem compareFieldsWith_eq_true_iff {fs gs : List (String × Ty)} :
    compareFieldsWith named fs gs = .ok true ↔
      ∀ p ∈ fs.zip gs, p.1.1 = p.2.1 ∧ compareWith named p.1.2 p.2.2 = .ok true := by
  induction fs generalizing gs with
  | nil => simp [compareFieldsWith]
  | cons f fs ih =>
      cases gs with
      | nil => simp [compareFieldsWith]
      | cons g gs =>
          obtain ⟨m, s⟩ := f
          obtain ⟨n, t⟩ := g
          rw [compareFieldsWith, List.zip_cons_cons, List.forall_mem_cons, ← ih]
          by_cases hmn : m = n <;> simp [hmn]

theorem compareWith_record_eq_true_iff {fs gs : List (String × Ty)} :
    compareWith named (.record fs) (.record gs) = .ok true ↔
      fs.length ≤ gs.length ∧
        ∀ p ∈ fs.zip gs, p.1.1 = p.2.1 ∧ compareWith named p.1.2 p.2.2 = .ok true := by
  rw [compareWith, ← compareFieldsWith_eq_true_iff]
  by_cases h : gs.length < fs.length
  · simp [h]
  · simp [h, Nat.le_of_not_lt h]

/-! ### What a comparison fails with -/

section Failures

variable {Q : Ty → Prop} {P : Fault → Prop}

theorem failsOnly_compareFieldsWith {fs gs : List (String × Ty)}
    (h : ∀ p ∈ fs.zip gs, FailsOnly P (compareWith named p.1.2 p.2.2)) :
    FailsOnly P (compareFieldsWith named fs gs) := by
  induction fs generalizing gs with
  | nil => simp [compareFieldsWith]
  | cons f fs ih =>
      cases gs with
      | nil => simp [compareFieldsWith]
      | cons g gs =>
          obtain ⟨m, s⟩ := f
          obtain ⟨n, t⟩ := g
          rw [List.zip_cons_cons, List.forall_mem_cons] at h
          rw [compareFieldsWith]
          split
          · refine h.1.bindM fun answer _ => ?_
            cases answer with
            | true => exact ih h.2
            | false => exact failsOnly_ok _
          · exact failsOnly_ok _

theorem failsOnly_compareWith (hQ : Hereditary types Q)
    (hnamed : ∀ s t, Q s → Q t → FailsOnly P (named s t)) (ha : Q a) (hb : Q b) :
    FailsOnly P (compareWith named a b) := by
  induction a, b using comparison_induction with
  | void a => simp [compareWith_void]
  | name a b hvoid hname =>
      rw [compareWith_of_name hvoid hname]
      exact hnamed a b ha hb
  | primitive p hp => simp [compareWith_primitive hp]
  | array s t ih =>
      rw [compareWith]
      exact ih (hQ.element ha) (hQ.element hb)
  | record fs gs ih =>
      rw [compareWith]
      split
      · exact failsOnly_ok _
      · apply failsOnly_compareFieldsWith
        intro p hp
        obtain ⟨hs, ht⟩ := hQ.zip_fields ha hb hp
        exact ih p hp hs ht
  | clash a b hvoid hsa hsb hne => simp [compareWith_clash hvoid hsa hsb hne]

theorem failsOnly_subtypeWithin (hQ : Hereditary types Q)
    (hresolve : ∀ t, Q t → FailsOnly P (t.resolve types)) (budget : Nat)
    (assumed : List (Ty × Ty)) (ha : Q a) (hb : Q b) :
    FailsOnly P (subtypeWithin types budget assumed a b) := by
  induction budget generalizing assumed a b with
  | zero =>
      rw [subtypeWithin]
      exact failsOnly_compareWith hQ (fun _ _ _ _ => failsOnly_ok _) ha hb
  | succ budget ih =>
      rw [subtypeWithin]
      refine failsOnly_compareWith hQ ?_ ha hb
      intro s t hs ht
      split
      · exact failsOnly_ok _
      · refine (hresolve s hs).bindM fun u hu => ?_
        refine (hresolve t ht).bindM fun v hv => ?_
        exact ih ((s, t) :: assumed) (hQ.resolved hs hu) (hQ.resolved ht hv)

/-- Comparing two types fails with what resolving some type fails with that they reach. -/
theorem failsOnly_isSubtype (hQ : Hereditary types Q)
    (hresolve : ∀ t, Q t → FailsOnly P (t.resolve types)) (ha : Q a) (hb : Q b) :
    FailsOnly P (isSubtype types a b) :=
  failsOnly_subtypeWithin hQ hresolve _ _ ha hb

end Failures

/-! ### Related types are accepted -/

theorem Below.element {s t : Ty} (h : Below types (.array s) (.array t)) : Below types s t :=
  (Matches.array_iff (resolve_array _) (resolve_array _)).1
    (isSimulation_below types _ _ h)

theorem Below.fields {fs gs : List (String × Ty)} (h : Below types (.record fs) (.record gs)) :
    fs.length ≤ gs.length ∧ ∀ p ∈ fs.zip gs, p.1.1 = p.2.1 ∧ Below types p.1.2 p.2.2 :=
  (Matches.record_iff (resolve_record _) (resolve_record _)).1
    (isSimulation_below types _ _ h)

/-- Related types have the same shape, unless the lower one is `void`. -/
theorem Below.shape_eq (h : Below types a b) (hvoid : b ≠ .void) (ha : a.shape? ≠ none)
    (hb : b.shape? ≠ none) : a.shape? = b.shape? := by
  have hra : a.resolve types = .ok a := resolve_of_shape ha
  have hrb : b.resolve types = .ok b := resolve_of_shape hb
  cases isSimulation_below types a b h with
  | void hb' => exact absurd (Except.ok.inj (hrb.symm.trans hb')) hvoid
  | primitive _ ha' hb' =>
      rw [Except.ok.inj (hra.symm.trans ha'), Except.ok.inj (hrb.symm.trans hb')]
  | array ha' hb' _ =>
      rw [Except.ok.inj (hra.symm.trans ha'), Except.ok.inj (hrb.symm.trans hb'), shape?, shape?]
  | record ha' hb' _ _ =>
      rw [Except.ok.inj (hra.symm.trans ha'), Except.ok.inj (hrb.symm.trans hb'), shape?, shape?]

/-- Resolving both sides keeps them related. -/
theorem Below.resolved {s t : Ty} (h : Below types a b) (ha : a.resolve types = .ok s)
    (hb : b.resolve types = .ok t) : Below types s t := by
  rw [below_iff_forall_agreesTo]
  intro n
  cases n with
  | zero => trivial
  | succ n =>
      have hab : AgreesTo types (n + 1) a b := below_iff_forall_agreesTo.1 h (n + 1)
      exact Matches.congr (ha.trans (resolve_of_resolve ha).symm)
        (hb.trans (resolve_of_resolve hb).symm) hab

theorem compareWith_of_below
    (hnamed : ∀ s t, NamesResolve types s → NamesResolve types t → Below types s t →
      named s t = .ok true)
    (ha : NamesResolve types a) (hb : NamesResolve types b) (h : Below types a b) :
    compareWith named a b = .ok true := by
  have hnames := hereditary_namesResolve types
  induction a, b using comparison_induction with
  | void a => exact compareWith_void
  | name a b hvoid hname =>
      rw [compareWith_of_name hvoid hname]
      exact hnamed a b ha hb h
  | primitive p hp => exact compareWith_primitive hp
  | array s t ih =>
      rw [compareWith]
      exact ih (hnames.element ha) (hnames.element hb) h.element
  | record fs gs ih =>
      rw [compareWith_record_eq_true_iff]
      refine ⟨h.fields.1, fun p hp => ?_⟩
      obtain ⟨hs, ht⟩ := hnames.zip_fields ha hb hp
      obtain ⟨hname, hbelow⟩ := h.fields.2 p hp
      exact ⟨hname, ih p hp hs ht hbelow⟩
  | clash a b hvoid hsa hsb hne => exact absurd (h.shape_eq hvoid hsa hsb) hne

theorem subtypeWithin_of_below (budget : Nat) (assumed : List (Ty × Ty))
    (ha : NamesResolve types a) (hb : NamesResolve types b) (h : Below types a b) :
    subtypeWithin types budget assumed a b = .ok true := by
  have hnames := hereditary_namesResolve types
  induction budget generalizing assumed a b with
  | zero =>
      rw [subtypeWithin]
      exact compareWith_of_below (fun _ _ _ _ _ => rfl) ha hb h
  | succ budget ih =>
      rw [subtypeWithin]
      refine compareWith_of_below ?_ ha hb h
      intro s t hs ht hst
      split
      · rfl
      · obtain ⟨u, hu⟩ := hs.exists_resolve
        obtain ⟨v, hv⟩ := ht.exists_resolve
        have huv := ih ((s, t) :: assumed) (hnames.resolved hs hu) (hnames.resolved ht hv)
          (hst.resolved hu hv)
        simp [hu, hv, huv]

/-! ### What a comparison can meet -/

mutual

/-- All subterms, the type itself first. -/
def subterms : Ty → List Ty
  | .array e => .array e :: subterms e
  | .record fs => .record fs :: fieldSubterms fs
  | t => [t]

/-- The subterms of all field types. -/
def fieldSubterms : List (String × Ty) → List Ty
  | [] => []
  | (_, t) :: fs => subterms t ++ fieldSubterms fs

end

theorem mem_fieldSubterms {fs : List (String × Ty)} {t : Ty} :
    t ∈ fieldSubterms fs ↔ ∃ f ∈ fs, t ∈ subterms f.2 := by
  induction fs with
  | nil => simp [fieldSubterms]
  | cons f fs ih => simp [fieldSubterms, ih]

theorem length_fieldSubterms {fs : List (String × Ty)}
    (h : ∀ f ∈ fs, (subterms f.2).length = f.2.size) :
    (fieldSubterms fs).length = fieldsSize fs := by
  induction fs with
  | nil => rfl
  | cons f fs ih =>
      obtain ⟨hf, hfs⟩ := List.forall_mem_cons.1 h
      simp [fieldSubterms, fieldsSize, hf, ih hfs]

theorem length_subterms (t : Ty) : (subterms t).length = t.size := by
  induction t with
  | array e ih => simp [subterms, size, ih]
  | record fs ih => simp [subterms, size, length_fieldSubterms ih]
  | _ => simp [subterms, size]

theorem self_mem_subterms (t : Ty) : t ∈ subterms t := by
  cases t <;> simp [subterms]

theorem subterms_subset {t u : Ty} (h : t ∈ subterms u) : subterms t ⊆ subterms u := by
  induction u with
  | array e ih =>
      rcases List.mem_cons.1 (by simpa only [subterms] using h) with rfl | h
      · exact List.Subset.refl _
      · intro s hs
        rw [subterms]
        exact List.mem_cons_of_mem _ (ih h hs)
  | record fs ih =>
      rcases List.mem_cons.1 (by simpa only [subterms] using h) with rfl | h
      · exact List.Subset.refl _
      · obtain ⟨f, hf, ht⟩ := mem_fieldSubterms.1 h
        intro s hs
        rw [subterms]
        exact List.mem_cons_of_mem _ (mem_fieldSubterms.2 ⟨f, hf, ih f hf ht hs⟩)
  | _ =>
      simp only [subterms, List.mem_singleton] at h
      rw [h]
      exact List.Subset.refl _

/-- A collection of types that comparisons starting in it do not leave. -/
structure IsClosed (types : TypeTable) (terms : List Ty) : Prop where
  element : ∀ {e}, Ty.array e ∈ terms → e ∈ terms
  field : ∀ {fs f}, Ty.record fs ∈ terms → f ∈ fs → f.2 ∈ terms
  declared : ∀ {n d}, types.get? n = some d → d.ty ∈ terms

theorem IsClosed.resolved {terms : List Ty} (hterms : IsClosed types terms) {t u : Ty}
    (ht : t ∈ terms) (h : t.resolve types = .ok u) : u ∈ terms := by
  obtain ⟨k, chain⟩ := (resolve_eq_ok_iff.1 h).2
  clear h
  induction chain with
  | stop _ => exact ht
  | next hd _ ih => exact ih (hterms.declared hd)

/-- The subterms of two types and of all declared types. -/
def comparands (types : TypeTable) (sup sub : Ty) : List Ty :=
  subterms sup ++ subterms sub ++ types.entries.flatMap fun e => subterms e.2.ty

theorem length_comparands (types : TypeTable) (sup sub : Ty) :
    (comparands types sup sub).length = sup.size + sub.size + declaredSize types := by
  have hdeclared : (types.entries.flatMap fun e => subterms e.2.ty).length =
      declaredSize types := by
    unfold declaredSize
    induction types.entries with
    | nil => rfl
    | cons e entries ih => simp [length_subterms, ih]
  simp [comparands, length_subterms, hdeclared, Nat.add_assoc]

theorem mem_comparands {sup sub t : Ty} :
    t ∈ comparands types sup sub ↔
      ∃ root, (root = sup ∨ root = sub ∨ ∃ e ∈ types.entries, root = e.2.ty) ∧
        t ∈ subterms root := by
  simp only [comparands, List.mem_append, List.mem_flatMap]
  constructor
  · rintro ((h | h) | ⟨e, he, h⟩)
    · exact ⟨sup, .inl rfl, h⟩
    · exact ⟨sub, .inr (.inl rfl), h⟩
    · exact ⟨e.2.ty, .inr (.inr ⟨e, he, rfl⟩), h⟩
  · rintro ⟨root, rfl | rfl | ⟨e, he, rfl⟩, h⟩
    · exact .inl (.inl h)
    · exact .inl (.inr h)
    · exact .inr ⟨e, he, h⟩

theorem isClosed_comparands (types : TypeTable) (sup sub : Ty) :
    IsClosed types (comparands types sup sub) where
  element := by
    intro e he
    obtain ⟨root, hroot, he⟩ := mem_comparands.1 he
    refine mem_comparands.2 ⟨root, hroot, subterms_subset he ?_⟩
    simp [subterms, self_mem_subterms]
  field := by
    intro fs f hfs hf
    obtain ⟨root, hroot, hfs⟩ := mem_comparands.1 hfs
    refine mem_comparands.2 ⟨root, hroot, subterms_subset hfs ?_⟩
    rw [subterms]
    exact List.mem_cons_of_mem _ (mem_fieldSubterms.2 ⟨f, hf, self_mem_subterms f.2⟩)
  declared := by
    intro n d hd
    exact mem_comparands.2 ⟨d.ty, .inr (.inr ⟨_, Table.mem_of_get? hd, rfl⟩),
      self_mem_subterms d.ty⟩

/-- The assumed pairs are different pairs of `terms`, and the budget makes up for those that are
not assumed yet. -/
structure Room (terms : List Ty) (budget : Nat) (assumed : List (Ty × Ty)) : Prop where
  nodup : assumed.Nodup
  subset : assumed ⊆ terms ×ˢ terms
  enough : terms.length * terms.length ≤ budget + assumed.length

namespace Room

variable {terms : List Ty} {budget : Nat} {assumed : List (Ty × Ty)}

theorem start (types : TypeTable) (sup sub : Ty) :
    Room (comparands types sup sub) (unfoldings types sup sub) [] where
  nodup := List.nodup_nil
  subset := List.nil_subset _
  enough := by simp [unfoldings, length_comparands]

theorem assume {s t : Ty} (room : Room terms (budget + 1) assumed) (hs : s ∈ terms)
    (ht : t ∈ terms) (hnew : (s, t) ∉ assumed) : Room terms budget ((s, t) :: assumed) where
  nodup := List.nodup_cons.2 ⟨hnew, room.nodup⟩
  subset := List.cons_subset.2 ⟨List.mem_product.2 ⟨hs, ht⟩, room.subset⟩
  enough := by
    have henough := room.enough
    rw [List.length_cons]
    omega

/-- Once the budget is used up, every pair is assumed. -/
theorem mem_of_zero {s t : Ty} (room : Room terms 0 assumed) (hs : s ∈ terms)
    (ht : t ∈ terms) : (s, t) ∈ assumed := by
  by_contra hnew
  have hnodup : ((s, t) :: assumed).Nodup := List.nodup_cons.2 ⟨hnew, room.nodup⟩
  have hsubset : (s, t) :: assumed ⊆ terms ×ˢ terms :=
    List.cons_subset.2 ⟨List.mem_product.2 ⟨hs, ht⟩, room.subset⟩
  have hlength := hnodup.length_le_of_subset hsubset
  rw [List.length_product, List.length_cons] at hlength
  have henough := room.enough
  omega

end Room

/-! ### Accepted types agree to every depth -/

theorem agreesTo_of_compareWith {terms : List Ty} (hterms : IsClosed types terms) {n : Nat}
    (hnamed : ∀ s t, s ∈ terms → t ∈ terms → named s t = .ok true → AgreesTo types n s t)
    (ha : a ∈ terms) (hb : b ∈ terms) (h : compareWith named a b = .ok true) :
    AgreesTo types n a b ∧ (a.shape? ≠ none → b.shape? ≠ none → AgreesTo types (n + 1) a b) := by
  have deep : ∀ {a b}, AgreesTo types (n + 1) a b → AgreesTo types n a b ∧
      (a.shape? ≠ none → b.shape? ≠ none → AgreesTo types (n + 1) a b) :=
    fun h => ⟨h.pred, fun _ _ => h⟩
  induction a, b using comparison_induction with
  | void a => exact deep (.void resolve_void)
  | name a b hvoid hname =>
      rw [compareWith_of_name hvoid hname] at h
      refine ⟨hnamed a b ha hb h, fun hsa hsb => ?_⟩
      rcases hname with hname | hname
      · exact absurd hname hsa
      · exact absurd hname hsb
  | primitive p hp =>
      have hshape : p.resolve types = .ok p := resolve_of_shape (by cases p <;> simp_all [shape?])
      exact deep (.primitive hp hshape hshape)
  | array s t ih =>
      rw [compareWith] at h
      have hparts := (ih (hterms.element ha) (hterms.element hb) h).1
      exact deep (.array (resolve_array s) (resolve_array t) hparts)
  | record fs gs ih =>
      rw [compareWith_record_eq_true_iff] at h
      refine deep (.record (resolve_record fs) (resolve_record gs) h.1 ?_)
      intro p hp
      obtain ⟨hname, hcompare⟩ := h.2 p hp
      have hs := hterms.field ha (List.of_mem_zip hp).1
      have ht := hterms.field hb (List.of_mem_zip hp).2
      exact ⟨hname, (ih p hp hs ht hcompare).1⟩
  | clash a b hvoid hsa hsb hne =>
      rw [compareWith_clash hvoid hsa hsb hne] at h
      simp at h

theorem agreesTo_of_subtypeWithin {terms : List Ty} (hterms : IsClosed types terms)
    {budget : Nat} {assumed : List (Ty × Ty)} (room : Room terms budget assumed) {n : Nat}
    (hassumed : ∀ p ∈ assumed, AgreesTo types n p.1 p.2) (ha : a ∈ terms) (hb : b ∈ terms)
    (h : subtypeWithin types budget assumed a b = .ok true) :
    AgreesTo types n a b ∧ (a.shape? ≠ none → b.shape? ≠ none → AgreesTo types (n + 1) a b) := by
  induction budget generalizing assumed n a b with
  | zero =>
      rw [subtypeWithin] at h
      refine agreesTo_of_compareWith hterms ?_ ha hb h
      intro s t hs ht _
      exact hassumed (s, t) (room.mem_of_zero hs ht)
  | succ budget ih =>
      rw [subtypeWithin] at h
      refine agreesTo_of_compareWith hterms ?_ ha hb h
      intro s t hs ht hst
      split at hst
      case isTrue hmem => exact hassumed (s, t) hmem
      case isFalse hnew =>
        simp only [bindM_eq_ok_iff] at hst
        obtain ⟨u, hu, v, hv, hst⟩ := hst
        -- The pair is assumed one level less deep than it is shown to agree.
        have hdepth : ∀ m, m ≤ n → AgreesTo types m s t := by
          intro m
          induction m with
          | zero => exact fun _ => trivial
          | succ m ihm =>
              intro hm
              have hall : ∀ p ∈ (s, t) :: assumed, AgreesTo types m p.1 p.2 :=
                List.forall_mem_cons.2 ⟨ihm (by omega), fun p hp => (hassumed p hp).le (by omega)⟩
              have huv := (ih (room.assume hs ht hnew) hall (hterms.resolved hs hu)
                (hterms.resolved ht hv) hst).2 (shape_of_resolve hu) (shape_of_resolve hv)
              exact Matches.congr ((resolve_of_resolve hu).trans hu.symm)
                ((resolve_of_resolve hv).trans hv.symm) huv
        exact hdepth n (Nat.le_refl n)

/-! ### The test -/

theorem isSubtype_total (ha : NamesResolve types a) (hb : NamesResolve types b) :
    ∃ answer, isSubtype types a b = .ok answer := by
  apply FailsOnly.exists_ok
  refine failsOnly_isSubtype (hereditary_namesResolve types) (fun t ht f hf => ?_) ha hb
  obtain ⟨u, hu⟩ := ht.exists_resolve
  cases hu.symm.trans hf

theorem isSubtype_eq_true_iff (ha : NamesResolve types a) (hb : NamesResolve types b) :
    isSubtype types a b = .ok true ↔ Below types a b := by
  constructor
  · intro h
    rw [below_iff_forall_agreesTo]
    intro n
    refine (agreesTo_of_subtypeWithin (isClosed_comparands types a b) (Room.start types a b)
      (by simp) ?_ ?_ h).1
    · exact mem_comparands.2 ⟨a, .inl rfl, self_mem_subterms a⟩
    · exact mem_comparands.2 ⟨b, .inr (.inl rfl), self_mem_subterms b⟩
  · exact subtypeWithin_of_below _ _ ha hb

/-- Where all names resolve, the test answers; it accepts exactly the pairs of the largest
simulation and refuses exactly those that differ at some finite depth. -/
theorem isSubtype_decides_largest_simulation (ha : NamesResolve types a)
    (hb : NamesResolve types b) :
    IsGreatest {R | IsSimulation types R} (Below types) ∧
      ∃ answer, isSubtype types a b = .ok answer ∧ (answer = true ↔ Below types a b) ∧
        (answer = false ↔ ∃ depth, ¬ AgreesTo types depth a b) := by
  refine ⟨isGreatest_below types, ?_⟩
  obtain ⟨answer, hanswer⟩ := isSubtype_total ha hb
  have htrue : answer = true ↔ Below types a b := by
    rw [← isSubtype_eq_true_iff ha hb, hanswer, Except.ok.injEq]
  refine ⟨answer, hanswer, htrue, ?_⟩
  rw [← Bool.not_eq_true, htrue, below_iff_forall_agreesTo, not_forall]

/-- Streams of integers, declared once in one piece and once as two types that take turns. -/
def streamTypes : TypeTable where
  entries :=
    [("Stream", ⟨"Stream", .record [("head", .int), ("tail", .named "Stream")], {}⟩),
      ("Even", ⟨"Even", .record [("head", .int), ("tail", .named "Odd")], {}⟩),
      ("Odd", ⟨"Odd", .record [("head", .int), ("tail", .named "Even")], {}⟩)]
  nodup := by decide

/-- The two ways of declaring streams are told to be related, and they are. -/
theorem stream_below_even :
    isSubtype streamTypes (.named "Stream") (.named "Even") = .ok true ∧
      Below streamTypes (.named "Stream") (.named "Even") := by
  have hdecls : ∀ e ∈ streamTypes.entries, validate streamTypes e.2.ty = .ok () := by
    simp only [streamTypes, List.forall_mem_cons]
    exact ⟨rfl, rfl, rfl, by simp⟩
  have hanswer : isSubtype streamTypes (.named "Stream") (.named "Even") = .ok true := rfl
  obtain ⟨_, answer, hanswer', htrue, _⟩ := isSubtype_decides_largest_simulation
    (namesResolve_of_validate (t := .named "Stream") hdecls rfl)
    (namesResolve_of_validate (t := .named "Even") hdecls rfl)
  exact ⟨hanswer, htrue.1 (Except.ok.inj (hanswer'.symm.trans hanswer))⟩

end WhileStatics.Ty
