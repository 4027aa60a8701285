import WhileStatics.Proofs.Annotation
import WhileStatics.Proofs.NestedBlocks

/-!
# Checking decides the typing rules

Checking a statement yields a result exactly when the statement is well typed in
the context of the scope, and the result is then its annotation. Nested blocks
leave the scope as it was, and a declaration that passes adds its variable, so
the scope that checking carries along always holds the context of the rules.
-/

namespace WhileStatics

variable {ds : Declarations} {ret : Ty} {scope : Scope} {Γ : Context}

/-! ### Declarations of variables -/

/-- The change that fills in the types of all nodes. -/
def Change.annotating (ds : Declarations) : Change := fun _ Γ e e' => e'.IsAnnotationOf ds Γ e

/-- What is asked of a declaration before its variable is put into scope. -/
theorem checkVarDecl_ask_eq_ok_iff {d : VarDecl} {init : Option Expr} :
    (do
      atSpan d.span (d.ty.validate ds.types) ds.path
      if scope.contains d.name then .error ⟨.duplicateVariable d.name, d.span, ds.path⟩
      else ds.inferOptionBelow scope d.ty d.init : Except Failure (Option Expr)) = .ok init ↔
      d.ty.WellFormed ds.types ∧ scope.context.lookup d.name = none ∧
        ds.inferOptionBelow scope d.ty d.init = .ok init := by
  rw [bindM_eq_ok_iff, ← Scope.contains_eq_false_iff, ← Ty.validate_eq_ok_iff]
  simp only [atSpan_eq_ok_iff]
  constructor
  · rintro ⟨⟨⟩, hvalid, h⟩
    by_cases hbound : scope.contains d.name = true
    · simp [hbound] at h
    · exact ⟨hvalid, by simpa using hbound, by simpa [hbound] using h⟩
  · rintro ⟨hvalid, hfree, h⟩
    exact ⟨(), hvalid, by simpa [hfree] using h⟩

/-- A declaration that passes puts its variable into scope. -/
theorem context_scopeAfter_checkVarDecl {d d' : VarDecl}
    (h : (ds.checkVarDecl d).result scope = .ok d') :
    ((ds.checkVarDecl d).scopeAfter scope).context = d.extend scope.context := by
  rw [Declarations.checkVarDecl, Walk.result_bind, bind_eq_ok_iff, Walk.result_ask] at h
  obtain ⟨init, hask, _⟩ := h
  have hfree := (checkVarDecl_ask_eq_ok_iff.1 hask).2.1
  rw [Declarations.checkVarDecl, Walk.scopeAfter_bind, Walk.result_ask, hask]
  exact Scope.context_declare d.ty hfree

theorem context_scopeAfter_checkStmt {s s' : Stmt}
    (h : (ds.checkStmt ret s).result scope = .ok s') :
    ((ds.checkStmt ret s).scopeAfter scope).context = s.extend scope.context := by
  have hrestores := (ds.restoresScope_checkStmt ret s).succeeded scope s' h
  cases s with
  | decl d =>
      rw [Declarations.checkStmt, Walk.result_bind, bind_eq_ok_iff] at h
      obtain ⟨d', hd', _⟩ := h
      rw [Declarations.checkStmt, Walk.scopeAfter_bind, hd']
      exact context_scopeAfter_checkVarDecl hd'
  | _ => exact congrArg Scope.context hrestores

/-- A declaration that passes leaves a context of well-formed types. -/
theorem DeclFits.wellFormed_extend {d : VarDecl} (hd : DeclFits ds Γ d)
    (hΓ : Context.WellFormed ds.types Γ) : Context.WellFormed ds.types (d.extend Γ) :=
  List.forall_mem_cons.2 ⟨hd.wellFormed, hΓ⟩

theorem StmtTyped.wellFormed_extend {s : Stmt} (hs : StmtTyped ds ret Γ s)
    (hΓ : Context.WellFormed ds.types Γ) : Context.WellFormed ds.types (s.extend Γ) := by
  cases hs with
  | decl hd => exact hd.wellFormed_extend hΓ
  | _ => exact hΓ

theorem Context.WellFormed.push {types : TypeTable} (hΓ : Context.WellFormed types scope.context) :
    Context.WellFormed types scope.push.context :=
  hΓ

theorem checkVarDecl_eq_ok_iff (hds : ds.WellFormed)
    (hΓ : Context.WellFormed ds.types scope.context) {d d' : VarDecl} :
    (ds.checkVarDecl d).result scope = .ok d' ↔
      DeclFits ds scope.context d ∧ d.Pointwise (.annotating ds) scope.context d' := by
  simp only [Declarations.checkVarDecl, Walk.result_bind, bind_eq_ok_iff, Walk.result_ask,
    Walk.result_declare, Walk.result_pure, Except.ok.injEq, true_and, exists_const,
    checkVarDecl_ask_eq_ok_iff, inferOptionBelow_eq_ok_iff hds hΓ]
  constructor
  · rintro ⟨init, ⟨hty, hfree, hfits, hinit⟩, rfl⟩
    exact ⟨⟨hty, hfree, hfits⟩, init, hinit, rfl⟩
  · rintro ⟨⟨hty, hfree, hfits⟩, init, hinit, rfl⟩
    exact ⟨init, ⟨hty, hfree, hfits, hinit⟩, rfl⟩

theorem checkAssign_eq_ok_iff (hds : ds.WellFormed)
    (hΓ : Context.WellFormed ds.types scope.context)
    {target value target' value' : Expr} :
    ds.checkAssign scope target value = .ok (target', value') ↔
      target.isLvalue = true ∧
        (∃ t, HasType ds scope.context target t ∧ Fits ds scope.context t value) ∧
        target'.IsAnnotationOf ds scope.context target ∧
        value'.IsAnnotationOf ds scope.context value := by
  by_cases hlvalue : target.isLvalue = true
  · simp only [Declarations.checkAssign, hlvalue, if_true, bindM_eq_ok_iff, pureM_eq_ok_iff,
      infer_eq_ok_iff hds hΓ, inferBelow_eq_ok_iff hds hΓ, Prod.mk.injEq, true_and]
    constructor
    · rintro ⟨r, ⟨ht, htarget⟩, v, ⟨hfits, hvalue⟩, rfl, rfl⟩
      exact ⟨⟨r.ty, ht, hfits⟩, htarget, hvalue⟩
    · rintro ⟨⟨t, ht, hfits⟩, htarget, hvalue⟩
      exact ⟨⟨target', t⟩, ⟨ht, htarget⟩, value', ⟨hfits, hvalue⟩, rfl, rfl⟩
  · simp [Declarations.checkAssign, hlvalue]

/-! ### Statements -/

mutual

/-- Checking accepts exactly the well-typed statements and annotates them. -/
theorem checkStmt_eq_ok_iff (hds : ds.WellFormed) {scope : Scope}
    (hΓ : Context.WellFormed ds.types scope.context) :
    (s s' : Stmt) → ((ds.checkStmt ret s).result scope = .ok s' ↔
      StmtTyped ds ret scope.context s ∧ s.Pointwise (.annotating ds) scope.context s')
  | .assertion span c, s' => by
      simp only [Declarations.checkStmt, Walk.result_bind, bind_eq_ok_iff, Walk.result_ask,
        Walk.result_pure, Except.ok.injEq, inferCondition_eq_ok_iff hds hΓ]
      constructor
      · rintro ⟨c', ⟨hc, hc'⟩, rfl⟩
        exact ⟨.assertion hc, c', hc', rfl⟩
      · rintro ⟨hs, c', hc', rfl⟩
        cases hs with
        | assertion hc => exact ⟨c', ⟨hc, hc'⟩, rfl⟩
  | .print span e, s' => by
      simp only [Declarations.checkStmt, Walk.result_bind, bind_eq_ok_iff, Walk.result_ask,
        Walk.result_pure, Except.ok.injEq, infer_eq_ok_iff hds hΓ]
      constructor
      · rintro ⟨r, ⟨he, hr⟩, rfl⟩
        exact ⟨.print he, r.expr, hr, rfl⟩
      · rintro ⟨hs, e', he', rfl⟩
        cases hs with
        | print he => exact ⟨⟨e', _⟩, ⟨he, he'⟩, rfl⟩
  | .assign span t e, s' => by
      simp only [Declarations.checkStmt, Walk.result_bind, bind_eq_ok_iff, Walk.result_ask,
        Walk.result_pure, Except.ok.injEq, Prod.exists, checkAssign_eq_ok_iff hds hΓ]
      constructor
      · rintro ⟨t', e', ⟨hlvalue, ⟨u, hu, hfits⟩, ht', he'⟩, rfl⟩
        exact ⟨.assign hlvalue hu hfits, t', e', ht', he', rfl⟩
      · rintro ⟨hs, t', e', ht', he', rfl⟩
        cases hs with
        | assign hlvalue hu hfits => exact ⟨t', e', ⟨hlvalue, ⟨_, hu, hfits⟩, ht', he'⟩, rfl⟩
  | .ret span e, s' => by
      simp only [Declarations.checkStmt, Walk.result_bind, bind_eq_ok_iff, Walk.result_ask,
        Walk.result_pure, Except.ok.injEq, inferOptionBelow_eq_ok_iff hds hΓ]
      constructor
      · rintro ⟨e', ⟨he, he'⟩, rfl⟩
        exact ⟨.ret he, e', he', rfl⟩
      · rintro ⟨hs, e', he', rfl⟩
        cases hs with
        | ret he => exact ⟨e', ⟨he, he'⟩, rfl⟩
  | .jump span j, s' => by
      simp only [Declarations.checkStmt, Walk.result_pure, Except.ok.injEq]
      exact ⟨fun h => ⟨.jump, h.symm⟩, fun h => Eq.symm h.2⟩
  | .decl d, s' => by
      simp only [Declarations.checkStmt, Walk.result_bind, bind_eq_ok_iff, Walk.result_pure,
        Except.ok.injEq, checkVarDecl_eq_ok_iff hds hΓ]
      constructor
      · rintro ⟨d', ⟨hd, hd'⟩, rfl⟩
        exact ⟨.decl hd, d', hd', rfl⟩
      · rintro ⟨hs, d', hd', rfl⟩
        cases hs with
        | decl hd => exact ⟨d', ⟨hd, hd'⟩, rfl⟩
  | .branch span c yes no, s' => by
      have hscope := Walk.keepsScope_inBlock (ds.keepsOuter_checkBlock ret yes) scope
      simp only [Declarations.checkStmt, Walk.result_bind, bind_eq_ok_iff, Walk.result_ask,
        Walk.scopeAfter_ask, Walk.result_inBlock, hscope, Walk.result_pure, Except.ok.injEq,
        inferCondition_eq_ok_iff hds hΓ, checkBlock_eq_ok_iff hds hΓ.push yes,
        checkBlock_eq_ok_iff hds hΓ.push no, Scope.context_push]
      constructor
      · rintro ⟨c', ⟨hc, hc'⟩, yes', ⟨hyes, hyes'⟩, no', ⟨hno, hno'⟩, rfl⟩
        exact ⟨.branch hc hyes hno, c', yes', no', hc', hyes', hno', rfl⟩
      · rintro ⟨hs, c', yes', no', hc', hyes', hno', rfl⟩
        cases hs with
        | branch hc hyes hno =>
            exact ⟨c', ⟨hc, hc'⟩, yes', ⟨hyes, hyes'⟩, no', ⟨hno, hno'⟩, rfl⟩
  | .forLoop span d c step body, s' => by
      simp only [Declarations.checkStmt, Walk.result_inBlock, Walk.result_bind, bind_eq_ok_iff,
        Walk.result_ask, Walk.scopeAfter_ask, Walk.result_pure, Except.ok.injEq]
      constructor
      · rintro ⟨d', hd, c', hc, step', hstep, body', hbody, rfl⟩
        -- The header and the body are checked in the scope that the declaration leaves.
        have hheader := context_scopeAfter_checkVarDecl hd
        obtain ⟨hfits, hd'⟩ := (checkVarDecl_eq_ok_iff hds hΓ.push).1 hd
        have hΓ₁ := hheader ▸ hfits.wellFormed_extend hΓ
        obtain ⟨hcond, hc'⟩ := (inferCondition_eq_ok_iff hds hΓ₁).1 hc
        obtain ⟨htyped, hstep'⟩ := (checkStmt_eq_ok_iff hds hΓ₁ step step').1 hstep
        have hafter := context_scopeAfter_checkStmt hstep
        have hΓ₂ := hafter ▸ htyped.wellFormed_extend hΓ₁
        obtain ⟨hblock, hbody'⟩ := (checkBlock_eq_ok_iff hds hΓ₂.push body body').1 hbody
        rw [Scope.context_push, hafter] at hblock hbody'
        rw [hheader, Scope.context_push] at hcond hc' htyped hstep' hblock hbody'
        exact ⟨.forLoop hfits hcond htyped hblock, d', c', step', body', hd', hc', hstep', hbody',
          rfl⟩
      · rintro ⟨hs, d', c', step', body', hd', hc', hstep', hbody', rfl⟩
        cases hs with
        | forLoop hfits hcond htyped hblock =>
            have hd := (checkVarDecl_eq_ok_iff hds hΓ.push).2 ⟨hfits, hd'⟩
            have hheader := context_scopeAfter_checkVarDecl hd
            have hΓ₁ := hheader ▸ hfits.wellFormed_extend hΓ
            rw [← Scope.context_push scope, ← hheader] at hcond hc' htyped hstep' hblock hbody'
            have hc := (inferCondition_eq_ok_iff hds hΓ₁).2 ⟨hcond, hc'⟩
            have hstep := (checkStmt_eq_ok_iff hds hΓ₁ step step').2 ⟨htyped, hstep'⟩
            have hafter := context_scopeAfter_checkStmt hstep
            have hΓ₂ := hafter ▸ htyped.wellFormed_extend hΓ₁
            rw [← hafter] at hblock hbody'
            have hbody := (checkBlock_eq_ok_iff hds hΓ₂.push body body').2 ⟨hblock, hbody'⟩
            exact ⟨d', hd, c', hc, step', hstep, body', hbody, rfl⟩
  | .loop span test c body, s' => by
      simp only [Declarations.checkStmt, Walk.result_bind, bind_eq_ok_iff, Walk.result_ask,
        Walk.scopeAfter_ask, Walk.result_inBlock, Walk.result_pure, Except.ok.injEq,
        inferCondition_eq_ok_iff hds hΓ, checkBlock_eq_ok_iff hds hΓ.push body,
        Scope.context_push]
      constructor
      · rintro ⟨c', ⟨hc, hc'⟩, body', ⟨hbody, hbody'⟩, rfl⟩
        exact ⟨.loop hc hbody, c', body', hc', hbody', rfl⟩
      · rintro ⟨hs, c', body', hc', hbody', rfl⟩
        cases hs with
        | loop hc hbody => exact ⟨c', ⟨hc, hc'⟩, body', ⟨hbody, hbody'⟩, rfl⟩
  | .switch span e cs, s' => by
      simp only [Declarations.checkStmt, Walk.result_bind, bind_eq_ok_iff, Walk.result_ask,
        Walk.scopeAfter_ask, Walk.result_pure, Except.ok.injEq, infer_eq_ok_iff hds hΓ,
        checkCases_eq_ok_iff hds hΓ cs]
      constructor
      · rintro ⟨r, ⟨he, hr⟩, cs', ⟨hcs, hcs'⟩, rfl⟩
        exact ⟨.switch he hcs, r.expr, cs', hr, hcs', rfl⟩
      · rintro ⟨hs, e', cs', he', hcs', rfl⟩
        cases hs with
        | switch he hcs => exact ⟨⟨e', _⟩, ⟨he, he'⟩, cs', ⟨hcs, hcs'⟩, rfl⟩
  | .call span n as, s' => by
      simp only [Declarations.checkStmt, Walk.result_bind, bind_eq_ok_iff, Walk.result_ask,
        Walk.result_pure, Except.ok.injEq, inferCall_eq_ok_iff hds hΓ]
      constructor
      · rintro ⟨as', ⟨has, has'⟩, rfl⟩
        exact ⟨.call has, as', has', rfl⟩
      · rintro ⟨hs, as', has', rfl⟩
        cases hs with
        | call has => exact ⟨as', ⟨has, has'⟩, rfl⟩

theorem checkBlock_eq_ok_iff (hds : ds.WellFormed) {scope : Scope}
    (hΓ : Context.WellFormed ds.types scope.context) :
    (ss ss' : List Stmt) → ((ds.checkBlock ret ss).result scope = .ok ss' ↔
      BlockTyped ds ret scope.context ss ∧
        Stmt.BlockPointwise (.annotating ds) scope.context ss ss')
  | [], ss' => by
      simp only [Declarations.checkBlock, Walk.result_pure, Except.ok.injEq]
      exact ⟨fun h => ⟨.nil, h.symm⟩, fun h => Eq.symm h.2⟩
  | s :: ss, ss' => by
      simp only [Declarations.checkBlock, Walk.result_bind, bind_eq_ok_iff, Walk.result_pure,
        Except.ok.injEq]
      constructor
      · rintro ⟨s', hs, ss', hss, rfl⟩
        have hcontext := context_scopeAfter_checkStmt hs
        obtain ⟨htyped, hs'⟩ := (checkStmt_eq_ok_iff hds hΓ s s').1 hs
        have hΓ' := hcontext ▸ htyped.wellFormed_extend hΓ
        have hrest := (checkBlock_eq_ok_iff hds hΓ' ss ss').1 hss
        rw [hcontext] at hrest
        exact ⟨.cons htyped hrest.1, s', ss', hs', hrest.2, rfl⟩
      · rintro ⟨hblock, s', ss', hs', hss', rfl⟩
        cases hblock with
        | cons htyped hrest =>
            have hs := (checkStmt_eq_ok_iff hds hΓ s s').2 ⟨htyped, hs'⟩
            have hcontext := context_scopeAfter_checkStmt hs
            have hΓ' := hcontext ▸ htyped.wellFormed_extend hΓ
            rw [← hcontext] at hrest hss'
            exact ⟨s', hs, ss', (checkBlock_eq_ok_iff hds hΓ' ss ss').2 ⟨hrest, hss'⟩, rfl⟩

theorem checkCases_eq_ok_iff (hds : ds.WellFormed) {scope : Scope} {on : Ty}
    (hΓ : Context.WellFormed ds.types scope.context) :
    (cs cs' : List Case) → ((ds.checkCases ret on cs).result scope = .ok cs' ↔
      CasesTyped ds ret on scope.context cs ∧
        Stmt.CasesPointwise (.annotating ds) scope.context cs cs')
  | [], cs' => by
      simp only [Declarations.checkCases, Walk.result_pure, Except.ok.injEq]
      exact ⟨fun h => ⟨.nil, h.symm⟩, fun h => Eq.symm h.2⟩
  | .mk span g body :: cs, cs' => by
      have hscope := Walk.keepsScope_inBlock (ds.keepsOuter_checkBlock ret body) scope
      simp only [Declarations.checkCases, Walk.result_bind, bind_eq_ok_iff, Walk.result_ask,
        Walk.scopeAfter_ask, Walk.result_inBlock, hscope, Walk.result_pure, Except.ok.injEq,
        inferOptionBelow_eq_ok_iff hds hΓ, checkBlock_eq_ok_iff hds hΓ.push body,
        checkCases_eq_ok_iff hds hΓ cs, Scope.context_push]
      constructor
      · rintro ⟨g', ⟨hg, hg'⟩, body', ⟨hbody, hbody'⟩, cs', ⟨hcs, hcs'⟩, rfl⟩
        exact ⟨.cons hg hbody hcs, g', body', cs', hg', hbody', hcs', rfl⟩
      · rintro ⟨hall, g', body', cs', hg', hbody', hcs', rfl⟩
        cases hall with
        | cons hg hbody hcs =>
            exact ⟨g', ⟨hg, hg'⟩, body', ⟨hbody, hbody'⟩, cs', ⟨hcs, hcs'⟩, rfl⟩

end

/-! ### Well-typed statements have annotations -/

theorem DeclFits.exists_annotated (hds : ds.WellFormed) (hΓ : Context.WellFormed ds.types Γ)
    {d : VarDecl} (hd : DeclFits ds Γ d) : ∃ d', d.Pointwise (.annotating ds) Γ d' := by
  obtain ⟨init, hinit⟩ := exists_annotated_option hds hΓ hd.init
  exact ⟨_, init, hinit, rfl⟩

mutual

theorem StmtTyped.exists_annotated (hds : ds.WellFormed) {Γ : Context}
    (hΓ : Context.WellFormed ds.types Γ) :
    {s : Stmt} → StmtTyped ds ret Γ s → ∃ s', s.Pointwise (.annotating ds) Γ s'
  | _, .assertion hc => by
      obtain ⟨c', hc'⟩ := hc.exists_annotated hds hΓ
      exact ⟨_, c', hc', rfl⟩
  | _, .print he => by
      obtain ⟨e', he'⟩ := he.exists_annotated hds hΓ
      exact ⟨_, e', he', rfl⟩
  | _, .assign _ ht hv => by
      obtain ⟨t', ht'⟩ := ht.exists_annotated hds hΓ
      obtain ⟨v', hv'⟩ := hv.exists_annotated hds hΓ
      exact ⟨_, t', v', ht', hv', rfl⟩
  | _, .ret he => by
      obtain ⟨e', he'⟩ := exists_annotated_option hds hΓ he
      exact ⟨_, e', he', rfl⟩
  | _, .jump => ⟨_, rfl⟩
  | _, .decl hd => by
      obtain ⟨d', hd'⟩ := hd.exists_annotated hds hΓ
      exact ⟨_, d', hd', rfl⟩
  | _, .branch hc hyes hno => by
      obtain ⟨c', hc'⟩ := hc.exists_annotated hds hΓ
      obtain ⟨yes', hyes'⟩ := hyes.exists_annotated hds hΓ
      obtain ⟨no', hno'⟩ := hno.exists_annotated hds hΓ
      exact ⟨_, c', yes', no', hc', hyes', hno', rfl⟩
  | _, .forLoop hd hc hstep hbody => by
      have hΓ₁ := hd.wellFormed_extend hΓ
      have hΓ₂ := hstep.wellFormed_extend hΓ₁
      obtain ⟨d', hd'⟩ := hd.exists_annotated hds hΓ
      obtain ⟨c', hc'⟩ := hc.exists_annotated hds hΓ₁
      obtain ⟨step', hstep'⟩ := hstep.exists_annotated hds hΓ₁
      obtain ⟨body', hbody'⟩ := hbody.exists_annotated hds hΓ₂
      exact ⟨_, d', c', step', body', hd', hc', hstep', hbody', rfl⟩
  | _, .loop hc hbody => by
      obtain ⟨c', hc'⟩ := hc.exists_annotated hds hΓ
      obtain ⟨body', hbody'⟩ := hbody.exists_annotated hds hΓ
      exact ⟨_, c', body', hc', hbody', rfl⟩
  | _, .switch he hcs => by
      obtain ⟨e', he'⟩ := he.exists_annotated hds hΓ
      obtain ⟨cs', hcs'⟩ := hcs.exists_annotated hds hΓ
      exact ⟨_, e', cs', he', hcs', rfl⟩
  | _, .call h => by
      obtain ⟨as', has'⟩ := h.exists_annotated hds hΓ
      exact ⟨_, as', has', rfl⟩

theorem BlockTyped.exists_annotated (hds : ds.WellFormed) {Γ : Context}
    (hΓ : Context.WellFormed ds.types Γ) :
    {ss : List Stmt} → BlockTyped ds ret Γ ss →
      ∃ ss', Stmt.BlockPointwise (.annotating ds) Γ ss ss'
  | _, .nil => ⟨_, rfl⟩
  | _, .cons hs hss => by
      obtain ⟨s', hs'⟩ := hs.exists_annotated hds hΓ
      obtain ⟨ss', hss'⟩ := hss.exists_annotated hds (hs.wellFormed_extend hΓ)
      exact ⟨_, s', ss', hs', hss', rfl⟩

theorem CasesTyped.exists_annotated (hds : ds.WellFormed) {on : Ty} {Γ : Context}
    (hΓ : Context.WellFormed ds.types Γ) :
    {cs : List Case} → CasesTyped ds ret on Γ cs →
      ∃ cs', Stmt.CasesPointwise (.annotating ds) Γ cs cs'
  | _, .nil => ⟨_, rfl⟩
  | _, .cons hg hbody hcs => by
      obtain ⟨g', hg'⟩ := exists_annotated_option hds hΓ hg
      obtain ⟨body', hbody'⟩ := hbody.exists_annotated hds hΓ
      obtain ⟨cs', hcs'⟩ := hcs.exists_annotated hds hΓ
      exact ⟨_, g', body', cs', hg', hbody', hcs', rfl⟩

end

end WhileStatics
