import WhileStatics.Proofs.Inference
import WhileStatics.Proofs.Pointwise

/-!
# Annotated expressions

An annotation of an expression differs from it only in its slots, each of which
holds the type that the rules assign to its node. Where the declarations are
well formed an expression has at most one annotation, and inference finds it:
each of its functions yields a result exactly when the premise that it stands
for holds, and the result is the annotation.
-/

namespace WhileStatics

variable {ds : Declarations} {scope : Scope} {Γ : Context} {e e' : Expr}

/-- `e'` is the expression `e` with the types of all nodes filled in. -/
def Expr.IsAnnotationOf (ds : Declarations) (Γ : Context) (e' e : Expr) : Prop :=
  e'.erase = e.erase ∧ e'.Annotated ds Γ

theorem IsElaboration.isAnnotationOf {r : Typed} (h : IsElaboration ds Γ e r) :
    r.expr.IsAnnotationOf ds Γ e :=
  ⟨h.erased, h.annotated⟩

/-! ### Types and annotations are unique -/

theorem Scope.exists_context_eq (Γ : Context) : ∃ scope : Scope, scope.context = Γ :=
  ⟨⟨Γ, []⟩, by simp [Scope.context, Scope.frames]⟩

/-- Inference is a function that finds whatever type an expression has. -/
theorem HasType.unique (hds : ds.WellFormed) (hΓ : Context.WellFormed ds.types Γ) {t u : Ty}
    (ht : HasType ds Γ e t) (hu : HasType ds Γ e u) : t = u := by
  obtain ⟨scope, rfl⟩ := Scope.exists_context_eq Γ
  obtain ⟨e₁, h₁⟩ := infer_complete hds hΓ ht
  obtain ⟨e₂, h₂⟩ := infer_complete hds hΓ hu
  rw [h₁] at h₂
  exact (Typed.mk.inj (Except.ok.inj h₂)).2

theorem Expr.annotated_iff :
    e.Annotated ds Γ ↔
      (∃ t, e.ty = some t ∧ HasType ds Γ e t) ∧ ∀ c ∈ e.children, c.Annotated ds Γ :=
  Expr.forall_isNode_iff

theorem Expr.Annotated.child {c : Expr} (h : e.Annotated ds Γ) (hc : c ∈ e.children) :
    c.Annotated ds Γ :=
  fun n hn => h n (.child hc hn)

theorem Expr.info_erase (e : Expr) : e.erase.info = e.info.erase := by
  cases e <;> rfl

theorem eq_of_forall₂ {α : Type} {p : α → Prop} {as bs : List α}
    (h : List.Forall₂ (fun a b => p a → p b → b = a) as bs) (has : ∀ a ∈ as, p a)
    (hbs : ∀ b ∈ bs, p b) : bs = as := by
  induction h with
  | nil => rfl
  | cons hab _ ih =>
      rw [List.forall_mem_cons] at has hbs
      rw [hab has.1 hbs.1, ih has.2 hbs.2]

section Unique

variable (hds : ds.WellFormed) (hΓ : Context.WellFormed ds.types Γ)

include hds hΓ

theorem Expr.Annotated.info_eq (he : e.Annotated ds Γ) (he' : e'.Annotated ds Γ)
    (h : e'.erase = e.erase) : e'.info = e.info := by
  obtain ⟨t, hslot, ht⟩ := (annotated_iff.1 he).1
  obtain ⟨t', hslot', ht'⟩ := (annotated_iff.1 he').1
  have hspan : e'.info.erase = e.info.erase := by rw [← info_erase, h, info_erase]
  have hty : e'.info.ty = e.info.ty := by
    rw [← ty, ← ty, hslot, hslot', ht'.unique hds hΓ (ht.of_erase_eq h)]
  cases hi : e.info with
  | mk span ty =>
      cases hi' : e'.info with
      | mk span' ty' => simp_all [Info.erase]

/-- Annotated expressions that differ only in their slots are the same. -/
theorem Expr.Annotated.unique (he : e.Annotated ds Γ) (he' : e'.Annotated ds Γ)
    (h : e'.erase = e.erase) : e' = e := by
  induction e, e', h using Expr.erase_induction with
  | binary i i' op l l' r r' h _ ihl ihr =>
      obtain rfl : i' = i := he.info_eq hds hΓ he' h
      rw [ihl.2 (he.child (by simp [children])) (he'.child (by simp [children])),
        ihr.2 (he.child (by simp [children])) (he'.child (by simp [children]))]
  | unary i i' op x x' h _ ih =>
      obtain rfl : i' = i := he.info_eq hds hΓ he' h
      rw [ih.2 (he.child (by simp [children])) (he'.child (by simp [children]))]
  | const i i' v h _ =>
      obtain rfl : i' = i := he.info_eq hds hΓ he' h
      rfl
  | var i i' n h _ =>
      obtain rfl : i' = i := he.info_eq hds hΓ he' h
      rfl
  | index i i' s s' p p' h _ ihs ihp =>
      obtain rfl : i' = i := he.info_eq hds hΓ he' h
      rw [ihs.2 (he.child (by simp [children])) (he'.child (by simp [children])),
        ihp.2 (he.child (by simp [children])) (he'.child (by simp [children]))]
  | call i i' n as as' h _ ih =>
      obtain rfl : i' = i := he.info_eq hds hΓ he' h
      rw [eq_of_forall₂ (ih.imp fun _ _ h => h.2) (fun _ => he.child) (fun _ => he'.child)]
  | generate i i' v v' c c' h _ ihv ihc =>
      obtain rfl : i' = i := he.info_eq hds hΓ he' h
      rw [ihv.2 (he.child (by simp [children])) (he'.child (by simp [children])),
        ihc.2 (he.child (by simp [children])) (he'.child (by simp [children]))]
  | array i i' es es' h _ ih =>
      obtain rfl : i' = i := he.info_eq hds hΓ he' h
      rw [eq_of_forall₂ (ih.imp fun _ _ h => h.2) (fun _ => he.child) (fun _ => he'.child)]
  | access i i' s s' f h _ ih =>
      obtain rfl : i' = i := he.info_eq hds hΓ he' h
      rw [ih.2 (he.child (by simp [children])) (he'.child (by simp [children]))]
  | record i i' fs fs' h _ hnames ih =>
      obtain rfl : i' = i := he.info_eq hds hΓ he' h
      have hvalues :=
        eq_of_forall₂ (ih.imp fun _ _ h => h.2) (fun _ => he.child) (fun _ => he'.child)
      rw [(List.zip_of_prod hnames hvalues).trans (List.zip_of_prod rfl rfl).symm]

end Unique

/-! ### What inference yields -/

section Inference

variable (hds : ds.WellFormed) (hΓ : Context.WellFormed ds.types scope.context)

include hds hΓ

/-- Inference yields the type of an expression and its annotation. -/
theorem infer_eq_ok_iff {r : Typed} :
    ds.infer scope e = .ok r ↔
      HasType ds scope.context e r.ty ∧ r.expr.IsAnnotationOf ds scope.context e := by
  constructor
  · intro h
    have hr := infer_sound h
    exact ⟨hr.typed, hr.isAnnotationOf⟩
  · rintro ⟨ht, hfilled⟩
    obtain ⟨e', he'⟩ := infer_complete hds hΓ ht
    have hr := infer_sound he'
    have herase : r.expr.erase = e'.erase := by rw [hfilled.1, hr.erased]
    have heq : r.expr = e' := hr.annotated.unique hds hΓ hfilled.2 herase
    rw [he', ← heq]

theorem inferCondition_eq_ok_iff :
    ds.inferCondition scope e = .ok e' ↔
      IsCondition ds scope.context e ∧ e'.IsAnnotationOf ds scope.context e := by
  simp only [Declarations.inferCondition, bindM_eq_ok_iff, pureM_eq_ok_iff,
    infer_eq_ok_iff hds hΓ]
  constructor
  · rintro ⟨r, ⟨ht, hr⟩, u, hu, rfl⟩
    exact ⟨⟨r.ty, ht, Typed.exists_require_iff.1 ⟨u, hu⟩⟩, hr⟩
  · rintro ⟨⟨t, ht, hbool⟩, he'⟩
    obtain ⟨u, hu⟩ := (Typed.exists_require_iff (e := ⟨e', t⟩)).2 hbool
    exact ⟨⟨e', t⟩, ⟨ht, he'⟩, u, hu, rfl⟩

theorem inferBelow_eq_ok_iff {sup : Ty} :
    ds.inferBelow scope sup e = .ok e' ↔
      Fits ds scope.context sup e ∧ e'.IsAnnotationOf ds scope.context e := by
  simp only [Declarations.inferBelow, bindM_eq_ok_iff, pureM_eq_ok_iff, infer_eq_ok_iff hds hΓ,
    Typed.requireBelow_eq_ok_iff]
  constructor
  · rintro ⟨r, ⟨ht, hr⟩, _, hsub, rfl⟩
    exact ⟨⟨r.ty, ht, hsub⟩, hr⟩
  · rintro ⟨⟨t, ht, hsub⟩, he'⟩
    exact ⟨⟨e', t⟩, ⟨ht, he'⟩, (), hsub, rfl⟩

theorem inferOptionBelow_eq_ok_iff {sup : Ty} {o o' : Option Expr} :
    ds.inferOptionBelow scope sup o = .ok o' ↔
      (∀ e ∈ o, Fits ds scope.context sup e) ∧
        Option.Rel (fun e e' => e'.IsAnnotationOf ds scope.context e) o o' := by
  cases o with
  | none => cases o' <;> simp [Declarations.inferOptionBelow]
  | some e =>
      simp only [Declarations.inferOptionBelow, bindM_eq_ok_iff, pureM_eq_ok_iff,
        inferBelow_eq_ok_iff hds hΓ]
      cases o' <;> simp

/-- As many arguments as parameters are inferred when each fits its parameter. -/
theorem inferArgs_eq_ok_iff_fits {ps : List Param} {as as' : List Expr}
    (hlength : ps.length = as.length) :
    ds.inferArgs scope ps as = .ok as' ↔
      List.Forall₂ (fun p a => Fits ds scope.context p.ty a) ps as ∧
        List.Forall₂ (fun a a' => a'.IsAnnotationOf ds scope.context a) as as' := by
  induction as generalizing ps as' with
  | nil =>
      obtain rfl := List.length_eq_zero_iff.1 hlength
      simp [Declarations.inferArgs, eq_comm]
  | cons a as ih =>
      cases ps with
      | nil => simp at hlength
      | cons p ps =>
          have hlength' : ps.length = as.length := by simpa using hlength
          have hbelow : ds.inferArgs scope (p :: ps) (a :: as) = (do
              let a' ← ds.inferBelow scope p.ty a
              let as' ← ds.inferArgs scope ps as
              return a' :: as') := by
            simp only [Declarations.inferArgs, Declarations.inferBelow, bind_assoc, pure_bind]
          rw [hbelow, List.forall₂_cons, List.forall₂_cons_left_iff]
          simp only [bindM_eq_ok_iff, pureM_eq_ok_iff, inferBelow_eq_ok_iff hds hΓ, ih hlength']
          constructor
          · rintro ⟨a', ⟨hfits, ha'⟩, as', ⟨hall, has'⟩, rfl⟩
            exact ⟨⟨hfits, hall⟩, a', as', ha', has', rfl⟩
          · rintro ⟨⟨hfits, hall⟩, a', as', ha', has', rfl⟩
            exact ⟨a', ⟨hfits, ha'⟩, as', ⟨hall, has'⟩, rfl⟩

theorem inferCall_eq_ok_iff {span : Span} {n : String} {as as' : List Expr} :
    ds.inferCall scope span n as = .ok as' ↔
      CallFits ds scope.context n as ∧
        List.Forall₂ (fun a a' => a'.IsAnnotationOf ds scope.context a) as as' := by
  simp only [Declarations.inferCall, bindM_eq_ok_iff, atSpan_eq_ok_iff,
    Declarations.callee_eq_ok_iff]
  constructor
  · rintro ⟨m, ⟨hm, hlength⟩, has⟩
    obtain ⟨hfits, has'⟩ := (inferArgs_eq_ok_iff_fits hds hΓ hlength).1 has
    exact ⟨⟨m, hm, hfits⟩, has'⟩
  · rintro ⟨⟨m, hm, hfits⟩, has'⟩
    have hlength := hfits.length_eq
    exact ⟨m, ⟨hm, hlength⟩, (inferArgs_eq_ok_iff_fits hds hΓ hlength).2 ⟨hfits, has'⟩⟩

end Inference

/-! ### What is typed has an annotation -/

section Existence

variable (hds : ds.WellFormed) (hΓ : Context.WellFormed ds.types Γ)

include hds hΓ

theorem HasType.exists_annotated {t : Ty} (h : HasType ds Γ e t) :
    ∃ e', Expr.IsAnnotationOf ds Γ e' e := by
  obtain ⟨scope, rfl⟩ := Scope.exists_context_eq Γ
  obtain ⟨e', he'⟩ := infer_complete hds hΓ h
  exact ⟨e', (infer_sound he').isAnnotationOf⟩

theorem IsCondition.exists_annotated (h : IsCondition ds Γ e) :
    ∃ e', Expr.IsAnnotationOf ds Γ e' e := by
  obtain ⟨t, ht, _⟩ := h
  exact ht.exists_annotated hds hΓ

theorem Fits.exists_annotated {sup : Ty} (h : Fits ds Γ sup e) :
    ∃ e', Expr.IsAnnotationOf ds Γ e' e := by
  obtain ⟨t, ht, _⟩ := h
  exact ht.exists_annotated hds hΓ

theorem exists_annotated_option {sup : Ty} {o : Option Expr} (h : ∀ e ∈ o, Fits ds Γ sup e) :
    ∃ o' : Option Expr, Option.Rel (fun e e' => e'.IsAnnotationOf ds Γ e) o o' := by
  cases o with
  | none => exact ⟨none, .none⟩
  | some e =>
      obtain ⟨e', he'⟩ := (h e rfl).exists_annotated hds hΓ
      exact ⟨some e', .some he'⟩

theorem CallFits.exists_annotated {n : String} {as : List Expr} (h : CallFits ds Γ n as) :
    ∃ as' : List Expr, List.Forall₂ (fun a a' => a'.IsAnnotationOf ds Γ a) as as' := by
  obtain ⟨m, _, hfits⟩ := h
  generalize m.params = ps at hfits
  induction hfits with
  | nil => exact ⟨[], .nil⟩
  | cons ha _ ih =>
      obtain ⟨a', ha'⟩ := ha.exists_annotated hds hΓ
      obtain ⟨as', has'⟩ := ih
      exact ⟨a' :: as', .cons ha' has'⟩

end Existence

end WhileStatics
