import WhileStatics.Proofs.Literals
import WhileStatics.Proofs.Scopes
import WhileStatics.Proofs.TypingRules

/-!
# Inference decides the typing rules

Each function of inference is read as the rule that it decides. Together they
give both directions: what inference yields is a derivation whose types stand in
the slots, and what has a derivation is inferred. The second direction needs
well-formed declarations, because the type of a record is validated as a whole
where the rule asks only for different field names.
-/

namespace WhileStatics

/-! ### Premises -/

theorem Ty.requireShape_eq_ok_iff {types : TypeTable} {shapes : List Shape} {t u : Ty} :
    t.requireShape types shapes = .ok u ↔
      t.resolve types = .ok u ∧ ∃ shape ∈ shapes, u.shape? = some shape := by
  simp only [Ty.requireShape, bindM_eq_ok_iff]
  constructor
  · rintro ⟨v, hv, h⟩
    split at h
    case h_1 shape hshape =>
      split at h
      · cases h
        exact ⟨hv, shape, ‹_›, hshape⟩
      · cases h
    case h_2 => cases h
  · rintro ⟨hu, shape, hmem, hshape⟩
    exact ⟨u, hu, by simp [hshape, hmem]⟩

theorem Typed.require_eq_ok_iff {ds : Declarations} {shapes : List Shape} {e : Typed} {u : Ty} :
    e.require ds shapes = .ok u ↔
      e.ty.resolve ds.types = .ok u ∧ ∃ shape ∈ shapes, u.shape? = some shape := by
  rw [Typed.require, atSpan_eq_ok_iff, Ty.requireShape_eq_ok_iff]

theorem Typed.exists_require_iff {ds : Declarations} {shape : Shape} {e : Typed} :
    (∃ u, e.require ds [shape] = .ok u) ↔ e.ty.IsA ds.types shape := by
  simp [Typed.require_eq_ok_iff, Ty.IsA]

theorem Typed.requireBelow_eq_ok_iff {ds : Declarations} {sup : Ty} {e : Typed} {done : Unit} :
    e.requireBelow ds sup = .ok done ↔ Ty.isSubtype ds.types sup e.ty = .ok true := by
  rw [Typed.requireBelow, atSpan_eq_ok_iff, Ty.requireSubtype, bindM_eq_ok_iff]
  simp

/-- Two operands of one shape, as most binary operators ask for them. -/
theorem Typed.requireBoth_eq_ok_iff {ds : Declarations} {shape : Shape} {l r : Typed} {t u : Ty} :
    (do
      let _ ← l.require ds [shape]
      let _ ← r.require ds [shape]
      return t : Except Failure Ty) = .ok u ↔
      l.ty.IsA ds.types shape ∧ r.ty.IsA ds.types shape ∧ t = u := by
  simp only [bindM_eq_ok_iff, pureM_eq_ok_iff, ← Typed.exists_require_iff]
  constructor
  · rintro ⟨s, hs, v, hv, rfl⟩
    exact ⟨⟨s, hs⟩, ⟨v, hv⟩, rfl⟩
  · rintro ⟨⟨s, hs⟩, ⟨v, hv⟩, rfl⟩
    exact ⟨s, hs, v, hv, rfl⟩

theorem BinaryOp.typeOf_eq_ok_iff {ds : Declarations} {span : Span} {l r : Typed}
    {op : BinaryOp} {u : Ty} :
    op.typeOf ds span l r = .ok u ↔ op.Rule ds.types l.ty r.ty u := by
  cases op with
  | and | or =>
      rw [BinaryOp.typeOf, Typed.requireBoth_eq_ok_iff]
      constructor
      · rintro ⟨hl, hr, rfl⟩
        exact .logical (by simp) hl hr
      · intro h
        cases h with
        | logical _ hl hr => exact ⟨hl, hr, rfl⟩
        | _ hop => simp at hop
  | add | sub | mul | div | rem =>
      rw [BinaryOp.typeOf, Typed.requireBoth_eq_ok_iff]
      constructor
      · rintro ⟨hl, hr, rfl⟩
        exact .arithmetic (by simp) hl hr
      · intro h
        cases h with
        | arithmetic _ hl hr => exact ⟨hl, hr, rfl⟩
        | _ hop => simp at hop
  | lt | ltEq | gt | gtEq =>
      rw [BinaryOp.typeOf, Typed.requireBoth_eq_ok_iff]
      constructor
      · rintro ⟨hl, hr, rfl⟩
        exact .ordering (by simp) hl hr
      · intro h
        cases h with
        | ordering _ hl hr => exact ⟨hl, hr, rfl⟩
        | _ hop => simp at hop
  | eq | notEq =>
      simp only [BinaryOp.typeOf, bindM_eq_ok_iff, atSpan_eq_ok_iff]
      constructor
      · rintro ⟨answer, hanswer, h⟩
        cases answer with
        | true =>
            obtain rfl := pureM_eq_ok_iff.1 h
            exact .equality (by simp) hanswer
        | false => cases h
      · intro h
        cases h with
        | equality _ h => exact ⟨true, h, rfl⟩
        | _ hop => simp at hop

theorem UnaryOp.typeOf_eq_ok_iff {ds : Declarations} {x : Typed} {op : UnaryOp} {u : Ty} :
    op.typeOf ds x = .ok u ↔ op.Rule ds.types x.ty u := by
  cases op with
  | not =>
      simp only [UnaryOp.typeOf, bindM_eq_ok_iff, pureM_eq_ok_iff]
      constructor
      · rintro ⟨t, ht, rfl⟩
        exact .not (Typed.exists_require_iff.1 ⟨t, ht⟩)
      · intro h
        cases h with
        | not h =>
            obtain ⟨t, ht⟩ := Typed.exists_require_iff.2 h
            exact ⟨t, ht, rfl⟩
  | neg =>
      simp only [UnaryOp.typeOf, bindM_eq_ok_iff, pureM_eq_ok_iff]
      constructor
      · rintro ⟨t, ht, rfl⟩
        exact .neg (Typed.exists_require_iff.1 ⟨t, ht⟩)
      · intro h
        cases h with
        | neg h =>
            obtain ⟨t, ht⟩ := Typed.exists_require_iff.2 h
            exact ⟨t, ht, rfl⟩
  | lengthOf =>
      simp only [UnaryOp.typeOf, bindM_eq_ok_iff, pureM_eq_ok_iff, Typed.require_eq_ok_iff,
        List.mem_cons, List.not_mem_nil, or_false, exists_eq_or_imp, exists_eq_left]
      constructor
      · rintro ⟨t, ⟨ht, h | h⟩, rfl⟩
        · exact .lengthOfArray ⟨t, ht, h⟩
        · exact .lengthOfString ⟨t, ht, h⟩
      · intro h
        cases h with
        | lengthOfArray h =>
            obtain ⟨t, ht, h⟩ := h
            exact ⟨t, ⟨ht, .inl h⟩, rfl⟩
        | lengthOfString h =>
            obtain ⟨t, ht, h⟩ := h
            exact ⟨t, ⟨ht, .inr h⟩, rfl⟩

theorem Ty.shape?_eq_array_iff {t : Ty} : t.shape? = some .array ↔ ∃ e, t = .array e := by
  cases t <;> simp [Ty.shape?]

theorem Ty.shape?_eq_string_iff {t : Ty} : t.shape? = some .string ↔ t = .string := by
  cases t <;> simp [Ty.shape?]

theorem Ty.shape?_eq_record_iff {t : Ty} : t.shape? = some .record ↔ ∃ fs, t = .record fs := by
  cases t <;> simp [Ty.shape?]

theorem Typed.elementType_eq_ok_iff {ds : Declarations} {s : Typed} {u : Ty} :
    s.elementType ds = .ok u ↔
      s.ty.resolve ds.types = .ok (.array u) ∨ s.ty.IsA ds.types .string ∧ u = .char := by
  simp only [Typed.elementType, bindM_eq_ok_iff, Typed.require_eq_ok_iff,
    List.mem_cons, List.not_mem_nil, or_false, exists_eq_or_imp, exists_eq_left,
    Ty.shape?_eq_array_iff, Ty.shape?_eq_string_iff, Ty.IsA]
  constructor
  · rintro ⟨t, ⟨ht, ⟨e, rfl⟩ | rfl⟩, h⟩
    · obtain rfl := pureM_eq_ok_iff.1 h
      exact .inl ht
    · exact .inr ⟨⟨.string, ht, rfl⟩, (pureM_eq_ok_iff.1 h).symm⟩
  · rintro (ht | ⟨⟨t, ht, rfl⟩, rfl⟩)
    · exact ⟨.array u, ⟨ht, .inl ⟨u, rfl⟩⟩, rfl⟩
    · exact ⟨.string, ⟨ht, .inr rfl⟩, rfl⟩

theorem Typed.fieldType_eq_ok_iff {ds : Declarations} {span : Span} {s : Typed} {f : String}
    {u : Ty} :
    s.fieldType ds span f = .ok u ↔
      ∃ fs, s.ty.resolve ds.types = .ok (.record fs) ∧ fs.lookup f = some u := by
  simp only [Typed.fieldType, bindM_eq_ok_iff, Typed.require_eq_ok_iff, List.mem_singleton,
    exists_eq_left, Ty.shape?_eq_record_iff]
  constructor
  · rintro ⟨t, ⟨ht, fs, rfl⟩, h⟩
    refine ⟨fs, ht, ?_⟩
    simp only [Ty.field?] at h
    split at h
    case h_1 v hv =>
      obtain rfl := pureM_eq_ok_iff.1 h
      exact hv
    case h_2 => cases h
  · rintro ⟨fs, ht, hf⟩
    exact ⟨.record fs, ⟨ht, fs, rfl⟩, by simp [Ty.field?, hf]⟩

theorem Declarations.callee_eq_ok_iff {ds : Declarations} {name : String} {count : Nat}
    {m : Method} :
    ds.callee name count = .ok m ↔ ds.methods.get? name = some m ∧ m.params.length = count := by
  unfold Declarations.callee
  split
  case h_1 m' hm' =>
    by_cases hcount : m'.params.length = count
    · simp only [if_pos hcount, Except.ok.injEq, hm', Option.some.injEq]
      exact ⟨fun h => ⟨h, h ▸ hcount⟩, fun h => h.1⟩
    · simp only [if_neg hcount, hm', Option.some.injEq]
      exact ⟨fun h => (nomatch h), fun h => absurd (h.1 ▸ h.2) hcount⟩
  case h_2 hm' =>
    simp only [hm']
    split <;> simp

/-! ### Lists of expressions -/

namespace Declarations

variable {ds : Declarations} {scope : Scope} {Γ : Context}

theorem inferList_eq_ok_iff {es : List Expr} {rs : List Typed} :
    ds.inferList scope es = .ok rs ↔
      List.Forall₂ (fun e r => ds.infer scope e = .ok r) es rs := by
  induction es generalizing rs with
  | nil => simp [inferList, eq_comm]
  | cons e es ih =>
      simp only [inferList, bindM_eq_ok_iff, pureM_eq_ok_iff, List.forall₂_cons_left_iff, ih]
      constructor
      · rintro ⟨r, hr, rs', hrs, rfl⟩
        exact ⟨r, rs', hr, hrs, rfl⟩
      · rintro ⟨r, rs', hr, hrs, rfl⟩
        exact ⟨r, hr, rs', hrs, rfl⟩

theorem inferFields_eq_ok_iff {fs : List (String × Expr)} {rs : List (String × Typed)} :
    ds.inferFields scope fs = .ok rs ↔
      List.Forall₂ (fun f r => f.1 = r.1 ∧ ds.infer scope f.2 = .ok r.2) fs rs := by
  induction fs generalizing rs with
  | nil => simp [inferFields, eq_comm]
  | cons f fs ih =>
      obtain ⟨n, e⟩ := f
      simp only [inferFields, bindM_eq_ok_iff, pureM_eq_ok_iff, List.forall₂_cons_left_iff, ih]
      constructor
      · rintro ⟨r, hr, rs', hrs, rfl⟩
        exact ⟨(n, r), rs', ⟨rfl, hr⟩, hrs, rfl⟩
      · rintro ⟨⟨_, r⟩, rs', ⟨rfl, hr⟩, hrs, rfl⟩
        exact ⟨r, hr, rs', hrs, rfl⟩

theorem inferArgs_eq_ok_iff {ps : List Param} {as as' : List Expr}
    (hlength : ps.length = as.length) :
    ds.inferArgs scope ps as = .ok as' ↔
      ∃ rs, List.Forall₂ (fun a r => ds.infer scope a = .ok r) as rs ∧
        List.Forall₂ (fun p r => Ty.isSubtype ds.types p.ty r.ty = .ok true) ps rs ∧
        as' = rs.map Typed.expr := by
  induction as generalizing ps as' with
  | nil =>
      obtain rfl := List.length_eq_zero_iff.1 hlength
      simp [inferArgs, eq_comm]
  | cons a as ih =>
      cases ps with
      | nil => simp at hlength
      | cons p ps =>
          have hlength' : ps.length = as.length := by simpa using hlength
          simp only [inferArgs, bindM_eq_ok_iff, pureM_eq_ok_iff, ih hlength',
            Typed.requireBelow_eq_ok_iff, List.forall₂_cons_left_iff]
          constructor
          · rintro ⟨r, hr, _, hp, _, ⟨rs, hrs, hps, rfl⟩, rfl⟩
            exact ⟨r :: rs, ⟨r, rs, hr, hrs, rfl⟩, ⟨r, rs, hp, hps, rfl⟩, rfl⟩
          · rintro ⟨_, ⟨r, rs, hr, hrs, rfl⟩, ⟨_, _, hp, hps, heq⟩, rfl⟩
            obtain ⟨rfl, rfl⟩ := List.cons.inj heq
            exact ⟨r, hr, (), hp, _, ⟨rs, hrs, hps, rfl⟩, rfl⟩

end Declarations

/-! ### Slots and bodies do not count -/

variable {ds : Declarations} {scope : Scope} {Γ : Context}

theorem forall₂_transport {α α' β : Type} {R : α → β → Prop} {S : α' → β → Prop} {as : List α}
    {as' : List α'} {bs : List β} (h : List.Forall₂ R as bs)
    (hs : List.Forall₂ (fun a a' => ∀ b, R a b → S a' b) as as') :
    List.Forall₂ S as' bs := by
  induction h generalizing as' with
  | nil =>
      cases hs
      exact .nil
  | cons hab _ ih =>
      cases hs with
      | cons ha has => exact .cons (ha _ hab) (ih has)

/-- The tables hold the same types, and methods of the same signatures under the same names. -/
structure Declarations.SameSignatures (ds ds' : Declarations) : Prop where
  types : ds'.types = ds.types
  methods : ∀ n m, ds.methods.get? n = some m →
    ∃ m', ds'.methods.get? n = some m' ∧ m'.params = m.params ∧ m'.ret = m.ret

theorem Declarations.SameSignatures.refl (ds : Declarations) : ds.SameSignatures ds :=
  ⟨rfl, fun _ m hm => ⟨m, hm, rfl, rfl⟩⟩

/-- Expressions that differ only in their slots have the same type, and the bodies of methods play
no part in it. -/
theorem HasType.transport {ds' : Declarations} (hds : ds.SameSignatures ds') {e e' : Expr} {t : Ty}
    (h : HasType ds Γ e t) (he : e'.erase = e.erase) : HasType ds' Γ e' t := by
  obtain ⟨path, methods, types, macros⟩ := ds
  obtain ⟨path', methods', types', macros'⟩ := ds'
  obtain rfl : types' = types := hds.types
  induction e, e', he using Expr.erase_induction generalizing t with
  | binary _ _ _ _ _ _ _ _ _ ihl ihr =>
      cases h with
      | binary hl hr h => exact .binary (ihl.2 hl) (ihr.2 hr) h
  | unary _ _ _ _ _ _ _ ih =>
      cases h with
      | unary hx h => exact .unary (ih.2 hx) h
  | const =>
      cases h with
      | const h => exact .const h
  | var =>
      cases h with
      | var h => exact .var h
  | index _ _ _ _ _ _ _ _ ihs ihp =>
      cases h with
      | element hs hp ha ht => exact .element (ihs.2 hs) (ihp.2 hp) ha ht
      | character hs hp ha ht => exact .character (ihs.2 hs) (ihp.2 hp) ha ht
  | call _ _ _ _ _ _ _ ih =>
      cases h with
      | call hm has hts =>
          obtain ⟨m', hm', hparams, hret⟩ := hds.methods _ _ hm
          rw [← hret]
          rw [← hparams] at hts
          exact .call hm' (forall₂_transport has (ih.imp fun _ _ h t => h.2)) hts
  | generate _ _ _ _ _ _ _ _ ihv ihc =>
      cases h with
      | generate hv hc hu => exact .generate (ihv.2 hv) (ihc.2 hc) hu
  | array _ _ _ _ _ _ ih =>
      cases h with
      | array hes ht => exact .array (forall₂_transport hes (ih.imp fun _ _ h t => h.2)) ht
  | access _ _ _ _ _ _ _ ih =>
      cases h with
      | access hs ha hf => exact .access (ih.2 hs) ha hf
  | record _ _ fs fs' _ _ hnames ih =>
      cases h with
      | record hfs hnodup =>
          rw [← hnames] at hnodup ⊢
          exact .record (forall₂_transport hfs (ih.imp fun _ _ h t => h.2)) hnodup

theorem HasType.of_erase_eq {e e' : Expr} {t : Ty} (h : HasType ds Γ e t)
    (he : e'.erase = e.erase) : HasType ds Γ e' t :=
  h.transport (.refl ds) he

/-! ### What inference yields is typed and annotated -/

/-- The typed expression is the given one with its types filled in. -/
structure IsElaboration (ds : Declarations) (Γ : Context) (e : Expr) (r : Typed) : Prop where
  typed : HasType ds Γ e r.ty
  erased : r.expr.erase = e.erase
  slot : r.expr.ty = some r.ty
  parts : ∀ c ∈ r.expr.children, c.Annotated ds Γ

theorem IsElaboration.annotated {e : Expr} {r : Typed} (h : IsElaboration ds Γ e r) :
    r.expr.Annotated ds Γ :=
  Expr.forall_isNode_iff.2 ⟨⟨r.ty, h.slot, h.typed.of_erase_eq h.erased⟩, h.parts⟩

section Lists

variable {es : List Expr} {rs : List Typed}

theorem hasType_of_elaborations (h : List.Forall₂ (IsElaboration ds Γ) es rs) :
    List.Forall₂ (HasType ds Γ) es (rs.map Typed.ty) :=
  List.forall₂_map_right_iff.2 (h.imp fun _ _ h => h.typed)

theorem eraseList_of_elaborations (h : List.Forall₂ (IsElaboration ds Γ) es rs) :
    Expr.eraseList (rs.map Typed.expr) = Expr.eraseList es := by
  induction h with
  | nil => rfl
  | cons he _ ih => rw [List.map_cons, Expr.eraseList, Expr.eraseList, he.erased, ih]

theorem annotated_of_elaborations (h : List.Forall₂ (IsElaboration ds Γ) es rs) :
    ∀ c ∈ rs.map Typed.expr, c.Annotated ds Γ := by
  induction h with
  | nil => simp
  | cons he _ ih =>
      rw [List.map_cons]
      exact List.forall_mem_cons.2 ⟨he.annotated, ih⟩

end Lists

/-- The names and the values of inferred fields, apart. -/
theorem forall₂_fields {fs : List (String × Expr)} {rs : List (String × Typed)}
    (h : List.Forall₂ (fun f r => f.1 = r.1 ∧ ds.infer scope f.2 = .ok r.2) fs rs) :
    rs.map Prod.fst = fs.map Prod.fst ∧
      List.Forall₂ (fun e r => ds.infer scope e = .ok r) (fs.map Prod.snd) (rs.map Prod.snd) := by
  induction h with
  | nil => exact ⟨rfl, .nil⟩
  | cons hf _ ih => exact ⟨by simp [hf.1, ih.1], .cons hf.2 ih.2⟩

theorem infer_sound {e : Expr} {r : Typed} (h : ds.infer scope e = .ok r) :
    IsElaboration ds scope.context e r := by
  induction e generalizing r with
  | binary i op l r ihl ihr =>
      simp only [Declarations.infer, bindM_eq_ok_iff, pureM_eq_ok_iff,
        BinaryOp.typeOf_eq_ok_iff] at h
      obtain ⟨l', hl, r', hr, t, ht, rfl⟩ := h
      have hl' := ihl hl
      have hr' := ihr hr
      exact {
        typed := .binary hl'.typed hr'.typed ht
        erased := by simp only [Expr.erase, hl'.erased, hr'.erased]; rfl
        slot := rfl
        parts := by simp [Expr.children, hl'.annotated, hr'.annotated] }
  | unary i op x ih =>
      simp only [Declarations.infer, bindM_eq_ok_iff, pureM_eq_ok_iff,
        UnaryOp.typeOf_eq_ok_iff] at h
      obtain ⟨x', hx, t, ht, rfl⟩ := h
      have hx' := ih hx
      exact {
        typed := .unary hx'.typed ht
        erased := by simp only [Expr.erase, hx'.erased]; rfl
        slot := rfl
        parts := by simp [Expr.children, hx'.annotated] }
  | const i v =>
      simp only [Declarations.infer, bindM_eq_ok_iff, pureM_eq_ok_iff, atSpan_eq_ok_iff] at h
      obtain ⟨t, ht, rfl⟩ := h
      exact ⟨.const ht, rfl, rfl, by simp [Expr.children]⟩
  | var i n =>
      simp only [Declarations.infer] at h
      split at h
      case h_1 t ht =>
        cases h
        rw [Scope.lookup_eq_lookup_context] at ht
        exact ⟨.var ht, rfl, rfl, by simp [Expr.children]⟩
      case h_2 => cases h
  | index i s p ihs ihp =>
      simp only [Declarations.infer, bindM_eq_ok_iff, pureM_eq_ok_iff] at h
      obtain ⟨s', hs, p', hp, u, hu, t, ht, rfl⟩ := h
      have hs' := ihs hs
      have hp' := ihp hp
      have hint := Typed.exists_require_iff.1 ⟨u, hu⟩
      refine ⟨?_, ?_, rfl, ?_⟩
      · rcases Typed.elementType_eq_ok_iff.1 ht with harray | ⟨hstring, rfl⟩
        · exact .element hs'.typed hp'.typed harray hint
        · exact .character hs'.typed hp'.typed hstring hint
      · simp only [Expr.erase, hs'.erased, hp'.erased]
        rfl
      · simp [Expr.children, hs'.annotated, hp'.annotated]
  | call i n as ih =>
      simp only [Declarations.infer, bindM_eq_ok_iff, pureM_eq_ok_iff, atSpan_eq_ok_iff,
        Declarations.callee_eq_ok_iff] at h
      obtain ⟨m, ⟨hm, hlength⟩, as', has, rfl⟩ := h
      obtain ⟨rs, hrs, hps, rfl⟩ := (Declarations.inferArgs_eq_ok_iff hlength).1 has
      have hall := forall₂_imp_of_mem hrs fun a ha r => ih a ha
      exact {
        typed := .call hm (hasType_of_elaborations hall) (List.forall₂_map_right_iff.2 hps)
        erased := by simp only [Expr.erase, eraseList_of_elaborations hall]; rfl
        slot := rfl
        parts := annotated_of_elaborations hall }
  | generate i v c ihv ihc =>
      simp only [Declarations.infer, bindM_eq_ok_iff, pureM_eq_ok_iff] at h
      obtain ⟨v', hv, c', hc, u, hu, rfl⟩ := h
      have hv' := ihv hv
      have hc' := ihc hc
      exact {
        typed := .generate hv'.typed hc'.typed (Typed.exists_require_iff.1 ⟨u, hu⟩)
        erased := by simp only [Expr.erase, hv'.erased, hc'.erased]; rfl
        slot := rfl
        parts := by simp [Expr.children, hv'.annotated, hc'.annotated] }
  | array i es ih =>
      simp only [Declarations.infer, bindM_eq_ok_iff, pureM_eq_ok_iff, atSpan_eq_ok_iff,
        Declarations.inferList_eq_ok_iff] at h
      obtain ⟨rs, hrs, t, ht, rfl⟩ := h
      have hall := forall₂_imp_of_mem hrs fun e he r => ih e he
      exact {
        typed := .array (hasType_of_elaborations hall) ht
        erased := by simp only [Expr.erase, eraseList_of_elaborations hall]; rfl
        slot := rfl
        parts := annotated_of_elaborations hall }
  | access i s f ih =>
      simp only [Declarations.infer, bindM_eq_ok_iff, pureM_eq_ok_iff,
        Typed.fieldType_eq_ok_iff] at h
      obtain ⟨s', hs, t, ⟨fs, ha, hf⟩, rfl⟩ := h
      have hs' := ih hs
      exact {
        typed := .access hs'.typed ha hf
        erased := by simp only [Expr.erase, hs'.erased]; rfl
        slot := rfl
        parts := by simp [Expr.children, hs'.annotated] }
  | record i fs ih =>
      simp only [Declarations.infer, bindM_eq_ok_iff, pureM_eq_ok_iff, atSpan_eq_ok_iff,
        Declarations.inferFields_eq_ok_iff] at h
      obtain ⟨rs, hrs, ⟨⟩, hvalid, rfl⟩ := h
      obtain ⟨hnames, hvalues⟩ := forall₂_fields hrs
      have hall := forall₂_imp_of_mem hvalues fun e he r h => by
        obtain ⟨f, hf, rfl⟩ := List.mem_map.1 he
        exact ih f hf h
      have htypes : rs.map (fun f => (f.1, f.2.ty)) =
          (fs.map Prod.fst).zip ((rs.map Prod.snd).map Typed.ty) := by
        rw [← hnames, List.map_map, List.zip_map']
        rfl
      have hexprs : (rs.map fun f => (f.1, f.2.expr)).map Prod.snd =
          (rs.map Prod.snd).map Typed.expr := by
        simp only [List.map_map, Function.comp_def]
      refine ⟨?_, ?_, rfl, ?_⟩
      · cases Ty.validate_eq_ok_iff.1 hvalid with
        | record hnodup _ =>
            rw [htypes]
            refine .record (hasType_of_elaborations hall) ?_
            rw [← hnames]
            simpa only [List.map_map, Function.comp_def] using hnodup
      · have hfields := Expr.eraseFields_eq_iff.2
          ⟨by simpa only [List.map_map, Function.comp_def] using hnames,
            hexprs ▸ eraseList_of_elaborations hall⟩
        simp only [Expr.erase, hfields]
        rfl
      · rw [Expr.children, hexprs]
        exact annotated_of_elaborations hall

/-! ### Classes of types that derivations stay in -/

section Classes

variable {Q : Ty → Prop}

theorem BinaryOp.Rule.constructive (hQ : Ty.Constructive Q) {types : TypeTable} {op : BinaryOp}
    {s t u : Ty} (h : op.Rule types s t u) : Q u := by
  cases h <;> exact hQ.primitive _ (by simp)

theorem UnaryOp.Rule.constructive (hQ : Ty.Constructive Q) {types : TypeTable} {op : UnaryOp}
    {t u : Ty} (h : op.Rule types t u) : Q u := by
  cases h <;> exact hQ.primitive _ (by simp)

/-- The types that the rules assign are reached by the types of variables and by return types, or
are built of such types. -/
theorem HasType.constructive (hQ : Ty.Constructive Q) (hreach : Ty.Hereditary ds.types Q)
    (hreturns : ∀ n m, ds.methods.get? n = some m → Q m.ret) (hΓ : ∀ b ∈ Γ, Q b.2) {e : Expr}
    {t : Ty} (h : HasType ds Γ e t) : Q t := by
  induction e generalizing t with
  | binary _ _ _ _ _ _ =>
      cases h with
      | binary _ _ h => exact h.constructive hQ
  | unary _ _ _ _ =>
      cases h with
      | unary _ h => exact h.constructive hQ
  | const _ _ =>
      cases h with
      | const h => exact Value.constructive_typeOf hQ h
  | var _ _ =>
      cases h with
      | var h => exact hΓ _ (mem_of_lookup h)
  | index _ _ _ ihs _ =>
      cases h with
      | element hs _ ha _ => exact hreach.element (hreach.resolved (ihs hs) ha)
      | character => exact hQ.primitive _ (by simp)
  | call _ _ _ _ =>
      cases h with
      | call hm _ _ => exact hreturns _ _ hm
  | generate _ _ _ ihv _ =>
      cases h with
      | generate hv _ _ => exact hQ.array (ihv hv)
  | array _ _ ih =>
      cases h with
      | array hes ht =>
          have hitems := forall_mem_of_forall₂ hes fun e he t => ih e he
          exact hQ.array (hQ.leastUpperBound hitems ht)
  | access _ _ _ ih =>
      cases h with
      | access hs ha hf => exact hreach.field (hreach.resolved (ih hs) ha) (mem_of_lookup hf)
  | record _ fs ih =>
      cases h with
      | @record _ _ ts hfs hnodup =>
          have hvalues : ∀ t ∈ ts, Q t := by
            refine forall_mem_of_forall₂ hfs fun e he t ht => ?_
            obtain ⟨f, hf, rfl⟩ := List.mem_map.1 he
            exact ih f hf ht
          refine hQ.record ?_ fun f hf => hvalues f.2 (List.of_mem_zip hf).2
          rw [List.map_fst_zip (by simpa using Nat.le_of_eq hfs.length_eq)]
          exact hnodup

end Classes

/-- The declared types and the return types of the methods in the tables are well formed. -/
structure Declarations.WellFormed (ds : Declarations) : Prop where
  types : ∀ n d, ds.types.get? n = some d → d.ty.WellFormed ds.types
  returns : ∀ n m, ds.methods.get? n = some m → m.ret.WellFormed ds.types

/-- The types of all variables in scope are well formed. -/
def Context.WellFormed (types : TypeTable) (Γ : Context) : Prop :=
  ∀ b ∈ Γ, b.2.WellFormed types

/-- Under well-formed declarations every type that the rules assign is well formed. -/
theorem HasType.wellFormed (hds : ds.WellFormed) (hΓ : Context.WellFormed ds.types Γ) {e : Expr}
    {t : Ty} (h : HasType ds Γ e t) : t.WellFormed ds.types :=
  h.constructive (Ty.constructive_wellFormed ds.types) (Ty.hereditary_wellFormed hds.types)
    hds.returns hΓ

/-! ### What has a derivation is inferred -/

theorem exists_infer_list {es : List Expr} {ts : List Ty}
    (h : List.Forall₂ (HasType ds Γ) es ts)
    (ih : ∀ e ∈ es, ∀ t, HasType ds Γ e t → ∃ e', ds.infer scope e = .ok ⟨e', t⟩) :
    ∃ rs, List.Forall₂ (fun e r => ds.infer scope e = .ok r) es rs ∧ rs.map Typed.ty = ts := by
  induction h with
  | nil => exact ⟨[], .nil, rfl⟩
  | cons ht _ ihts =>
      obtain ⟨e', he'⟩ := ih _ (by simp) _ ht
      obtain ⟨rs, hrs, rfl⟩ := ihts fun e he => ih e (by simp [he])
      exact ⟨⟨e', _⟩ :: rs, .cons he' hrs, rfl⟩

/-- The names put back to the inferred values of fields. -/
theorem forall₂_zip_fields {fs : List (String × Expr)} {rs : List Typed}
    (h : List.Forall₂ (fun e r => ds.infer scope e = .ok r) (fs.map Prod.snd) rs) :
    List.Forall₂ (fun f r => f.1 = r.1 ∧ ds.infer scope f.2 = .ok r.2) fs
      ((fs.map Prod.fst).zip rs) := by
  induction fs generalizing rs with
  | nil => exact .nil
  | cons f fs ih =>
      cases h with
      | cons hf hfs => exact .cons ⟨rfl, hf⟩ (ih hfs)

/-- What has a type in a scope of well-formed types is inferred to have it. -/
theorem infer_complete (hds : ds.WellFormed) (hΓ : Context.WellFormed ds.types scope.context)
    {e : Expr} {t : Ty} (h : HasType ds scope.context e t) :
    ∃ e', ds.infer scope e = .ok ⟨e', t⟩ := by
  induction e generalizing t with
  | binary i op l r ihl ihr =>
      cases h with
      | binary hl hr h =>
          obtain ⟨l', hl'⟩ := ihl hl
          obtain ⟨r', hr'⟩ := ihr hr
          have ht : op.typeOf ds i.span ⟨l', _⟩ ⟨r', _⟩ = .ok t :=
            BinaryOp.typeOf_eq_ok_iff.2 h
          exact ⟨_, by simp only [Declarations.infer, hl', hr', ht, ok_bindM]; rfl⟩
  | unary i op x ih =>
      cases h with
      | unary hx h =>
          obtain ⟨x', hx'⟩ := ih hx
          have ht : op.typeOf ds ⟨x', _⟩ = .ok t := UnaryOp.typeOf_eq_ok_iff.2 h
          exact ⟨_, by simp only [Declarations.infer, hx', ht, ok_bindM]; rfl⟩
  | const i v =>
      cases h with
      | const h =>
          have ht : atSpan i.span (v.typeOf ds.types) ds.path = .ok t := atSpan_eq_ok_iff.2 h
          exact ⟨_, by simp only [Declarations.infer, ht, ok_bindM]; rfl⟩
  | var i n =>
      cases h with
      | var h =>
          rw [← Scope.lookup_eq_lookup_context] at h
          exact ⟨.var (i.withTy t) n, by simp only [Declarations.infer, h]⟩
  | index i s p ihs ihp =>
      cases h with
      | element hs hp ha ht =>
          obtain ⟨s', hs'⟩ := ihs hs
          obtain ⟨p', hp'⟩ := ihp hp
          obtain ⟨u, hu⟩ := (Typed.exists_require_iff (e := ⟨p', _⟩)).2 ht
          have helement : Typed.elementType ds ⟨s', _⟩ = .ok t :=
            Typed.elementType_eq_ok_iff.2 (.inl ha)
          exact ⟨_, by simp only [Declarations.infer, hs', hp', hu, helement, ok_bindM]; rfl⟩
      | character hs hp ha ht =>
          obtain ⟨s', hs'⟩ := ihs hs
          obtain ⟨p', hp'⟩ := ihp hp
          obtain ⟨u, hu⟩ := (Typed.exists_require_iff (e := ⟨p', _⟩)).2 ht
          have helement : Typed.elementType ds ⟨s', _⟩ = .ok .char :=
            Typed.elementType_eq_ok_iff.2 (.inr ⟨ha, rfl⟩)
          exact ⟨_, by simp only [Declarations.infer, hs', hp', hu, helement, ok_bindM]; rfl⟩
  | call i n as ih =>
      cases h with
      | @call _ _ m _ _ hm has hts =>
          obtain ⟨rs, hrs, rfl⟩ := exists_infer_list has fun a ha t h => ih a ha h
          have hlength : m.params.length = as.length := by
            rw [hts.length_eq, has.length_eq]
          have hcallee := Declarations.callee_eq_ok_iff.2 ⟨hm, hlength⟩
          have hargs := (Declarations.inferArgs_eq_ok_iff hlength).2
            ⟨rs, hrs, List.forall₂_map_right_iff.1 hts, rfl⟩
          exact ⟨_, by simp only [Declarations.infer, hcallee, atSpan_ok, hargs, ok_bindM]; rfl⟩
  | generate i v c ihv ihc =>
      cases h with
      | generate hv hc hu =>
          obtain ⟨v', hv'⟩ := ihv hv
          obtain ⟨c', hc'⟩ := ihc hc
          obtain ⟨u, hu⟩ := (Typed.exists_require_iff (e := ⟨c', _⟩)).2 hu
          exact ⟨_, by simp only [Declarations.infer, hv', hc', hu, ok_bindM]; rfl⟩
  | array i es ih =>
      cases h with
      | array hes ht =>
          obtain ⟨rs, hrs, rfl⟩ := exists_infer_list hes fun e he t h => ih e he h
          have hlist := Declarations.inferList_eq_ok_iff.2 hrs
          exact ⟨_, by simp only [Declarations.infer, hlist, ht, atSpan_ok, ok_bindM]; rfl⟩
  | access i s f ih =>
      cases h with
      | access hs ha hf =>
          obtain ⟨s', hs'⟩ := ih hs
          have ht : Typed.fieldType ds i.span ⟨s', _⟩ f = .ok t :=
            Typed.fieldType_eq_ok_iff.2 ⟨_, ha, hf⟩
          exact ⟨_, by simp only [Declarations.infer, hs', ht, ok_bindM]; rfl⟩
  | record i fs ih =>
      have hvalid := Ty.validate_eq_ok_iff.2 (h.wellFormed hds hΓ)
      cases h with
      | record hfs _ =>
          obtain ⟨rs, hrs, rfl⟩ := exists_infer_list hfs fun e he t h => by
            obtain ⟨f, hf, rfl⟩ := List.mem_map.1 he
            exact ih f hf h
          have hfields := Declarations.inferFields_eq_ok_iff.2 (forall₂_zip_fields hrs)
          have htypes : ((fs.map Prod.fst).zip rs).map (fun f => (f.1, f.2.ty)) =
              (fs.map Prod.fst).zip (rs.map Typed.ty) := by
            rw [List.zip_map_right]
            rfl
          exact ⟨_, by
            simp only [Declarations.infer, hfields, htypes, hvalid, atSpan_ok, ok_bindM]; rfl⟩

end WhileStatics
