import WhileStatics.Proofs.ExpandedPrograms
import WhileStatics.Proofs.Failures
import WhileStatics.Proofs.NestedStatements
import WhileStatics.Proofs.NodeSpans

/-!
# Failures of expansion

Expansion fails where a call cannot be replaced, and otherwise only for an
assignment target or a guard of the wrong form. What the expressions of a
program fail with is therefore what the program fails with. A call is reported
at its own span also where it stands in a macro body or in an argument that was
put into one.
-/

namespace WhileStatics

variable {P : Failure → Prop}

namespace Expr

variable {f : Info → String → List Expr → Logged Expr}

theorem failsOnly_mapCallsList {es : List Expr}
    (h : ∀ e ∈ es, FailsOnly P (e.mapCalls f).result) : FailsOnly P (mapCallsList f es).result := by
  induction es with
  | nil => exact failsOnly_ok _
  | cons e es ih =>
      rw [List.forall_mem_cons] at h
      rw [mapCallsList, Logged.result_bind]
      refine h.1.bind fun e' _ => ?_
      rw [Logged.result_bind]
      exact (ih h.2).bind fun es' _ => failsOnly_ok _

theorem failsOnly_mapCallsFields {fs : List (String × Expr)}
    (h : ∀ f' ∈ fs, FailsOnly P (f'.2.mapCalls f).result) :
    FailsOnly P (mapCallsFields f fs).result := by
  induction fs with
  | nil => exact failsOnly_ok _
  | cons f' fs ih =>
      obtain ⟨n, e⟩ := f'
      rw [List.forall_mem_cons] at h
      rw [mapCallsFields, Logged.result_bind]
      refine h.1.bind fun e' _ => ?_
      rw [Logged.result_bind]
      exact (ih h.2).bind fun fs' _ => failsOnly_ok _

/-- Mapping the calls of an expression fails with what it fails with at some call, the arguments
of which are mapped already. -/
theorem failsOnly_mapCalls {e : Expr}
    (hf : ∀ i n as as', IsNode (.call i n as) e →
      List.Forall₂ (fun a a' => (a.mapCalls f).result = .ok a') as as' →
      FailsOnly P (f i n as').result) : FailsOnly P (e.mapCalls f).result := by
  induction e using children_induction with
  | step e ih =>
      have hparts : ∀ c ∈ e.children, FailsOnly P (c.mapCalls f).result := by
        intro c hc
        exact ih c hc fun i n as as' hnode => hf i n as as' (.child hc hnode)
      cases e with
      | binary i op l r =>
          simp only [children, List.forall_mem_cons] at hparts
          rw [mapCalls, Logged.result_bind]
          refine hparts.1.bind fun l' _ => ?_
          rw [Logged.result_bind]
          exact hparts.2.1.bind fun r' _ => failsOnly_ok _
      | unary i op y =>
          simp only [children, List.forall_mem_cons] at hparts
          rw [mapCalls, Logged.result_bind]
          exact hparts.1.bind fun y' _ => failsOnly_ok _
      | const i v => exact failsOnly_ok _
      | var i n => exact failsOnly_ok _
      | index i s p =>
          simp only [children, List.forall_mem_cons] at hparts
          rw [mapCalls, Logged.result_bind]
          refine hparts.1.bind fun s' _ => ?_
          rw [Logged.result_bind]
          exact hparts.2.1.bind fun p' _ => failsOnly_ok _
      | call i n as =>
          rw [mapCalls, Logged.result_bind]
          refine (failsOnly_mapCallsList hparts).bind fun as' has => ?_
          exact hf i n as as' (.self _) (mapCallsList_eq_ok_iff.1 has)
      | generate i v c =>
          simp only [children, List.forall_mem_cons] at hparts
          rw [mapCalls, Logged.result_bind]
          refine hparts.1.bind fun v' _ => ?_
          rw [Logged.result_bind]
          exact hparts.2.1.bind fun c' _ => failsOnly_ok _
      | array i es =>
          rw [mapCalls, Logged.result_bind]
          exact (failsOnly_mapCallsList hparts).bind fun es' _ => failsOnly_ok _
      | access i s n =>
          simp only [children, List.forall_mem_cons] at hparts
          rw [mapCalls, Logged.result_bind]
          exact hparts.1.bind fun s' _ => failsOnly_ok _
      | record i fs =>
          rw [mapCalls, Logged.result_bind]
          refine (failsOnly_mapCallsFields fun f' hf' => ?_).bind fun fs' _ => failsOnly_ok _
          exact hparts f'.2 (List.mem_map_of_mem hf')

end Expr

namespace Expansion

variable {x : Expansion} {scope : Scope} {expandBody : Expr → Logged Expr} {d : MacroDecl}
  {i : Info} {n : String} {as : List Expr}

/-! ### Macro instances -/

/-- An instance fails only with what the operand of a unary body fails with. -/
theorem failsOnly_instantiate {bindings : Bindings} {body : Expr}
    (h : ∀ j op y, body = .unary j op y → FailsOnly P (expandBody (bindings.subst y)).result) :
    FailsOnly P (instantiate expandBody scope n bindings i as body).result := by
  cases body with
  | binary j op l r => simp [instantiate, Except.bind, Except.map]
  | unary j op y =>
      rw [instantiate, Logged.result_bind, Bindings.result_apply]
      change FailsOnly P (expandBody (bindings.subst y) >>= _).result
      rw [Logged.result_bind]
      exact (h j op y rfl).bind fun y' _ => failsOnly_ok _
  | _ => exact failsOnly_ok _

/-- A call of a macro fails with its argument count, or with what its body or its instance fails
with. -/
theorem failsOnly_replaceCall {depth : Nat}
    (hcount : x.options.validateArity = true →
      P ⟨.macroArity n d.params.length as.length, i.span, x.path⟩)
    (hbody : FailsOnly P (expandBody d.body).result)
    (hinstance : ∀ body, (expandBody d.body).result = .ok body →
      FailsOnly P (instantiate expandBody scope n (.ofArgs d.params as) i as body).result) :
    FailsOnly P (x.replaceCall expandBody scope depth d i n as).result := by
  rw [replaceCall]
  split
  · next hguard => exact failsOnly_error_iff.2 (hcount (Bool.and_eq_true_iff.1 hguard).1)
  · rw [Logged.result_bind, Logged.result_tell]
    change FailsOnly P (expandBody d.body >>= _).result
    rw [Logged.result_bind]
    exact hbody.bind hinstance

/-! ### Expressions -/

/-- All macro bodies have their spans in the class, and at such spans of the file a wrong argument
count, where counts are checked, and a nesting that is too deep are failures with the property. -/
structure AdmitsCallFaults (x : Expansion) (S : Span → Prop) (P : Failure → Prop) : Prop where
  bodies : x.BodySpansIn S
  count : x.options.validateArity = true →
    ∀ n expected found span, S span → P ⟨.macroArity n expected found, span, x.path⟩
  limit : ∀ n limit span, S span → P ⟨.recursionLimit n limit, span, x.path⟩

/-- Expressions fail at calls only, for a wrong argument count or a nesting that is too deep. -/
theorem AdmitsCallFaults.exprWithin {S : Span → Prop} (hP : x.AdmitsCallFaults S P)
    (scope : Scope) (b : Nat) {e : Expr} (he : e.SpansIn S) :
    FailsOnly P (x.exprWithin scope b e).result := by
  induction b generalizing e with
  | zero =>
      rw [exprWithin_eq]
      refine Expr.failsOnly_mapCalls fun i n as as' hnode _ => ?_
      rw [callWithin]
      split
      · exact failsOnly_ok _
      · exact failsOnly_error_iff.2 (hP.limit n _ _ (he _ hnode))
  | succ b ih =>
      rw [exprWithin_eq]
      refine Expr.failsOnly_mapCalls fun i n as as' hnode has => ?_
      have hspans : ∀ a ∈ as', a.SpansIn S := by
        refine forall_mem_of_forall₂ has fun a ha a' ha' => ?_
        rw [← exprWithin_eq, exprWithin_eq_ok_iff] at ha'
        exact ha'.spansIn hP.bodies ((he.of_isNode hnode).child ha)
      rw [callWithin]
      split
      · exact failsOnly_ok _
      · next d hd =>
        have hbody := hP.bodies n d hd
        refine failsOnly_replaceCall (fun hcheck => hP.count hcheck n _ _ _ (he _ hnode))
          (ih hbody) fun body hexpands => failsOnly_instantiate ?_
        rintro j op y rfl
        have hunary := (exprWithin_eq_ok_iff.1 hexpands).spansIn hP.bodies hbody
        exact ih ((hunary.child (by simp [Expr.children])).subst hspans)

/-! ### Statements -/

/-- The failures in the file at `path` for the form of an assignment target, reported there, or of a
guard, reported at its case. -/
inductive WrongForm (path : String) : Stmt → Failure → Prop
  | target {span t e t'} :
      WrongForm path (.assign span t e) ⟨.notLvalueExpanded t', t.span, path⟩
  | guard {span e cs c g} (hc : c ∈ cs) :
      WrongForm path (.switch span e cs) ⟨.guardNotConst g, c.span, path⟩

theorem WrongForm.kind_eq {path : String} {s : Stmt} {f : Failure} (h : WrongForm path s f) :
    f.fault.kind = .internal := by
  cases h <;> rfl

/-- Whatever the expression fails with in some scope has the property. -/
def ExprFailsOnly (P : Failure → Prop) (x : Expansion) (e : Expr) : Prop :=
  ∀ scope, FailsOnly P (x.expr scope e).result

theorem failsOnly_walkOption {o : Option Expr} (h : ∀ e ∈ o.toList, x.ExprFailsOnly P e) :
    FailsOnly P ((x.walkOption o).result scope) := by
  cases o with
  | none => exact failsOnly_ok _
  | some e =>
      exact Walk.failsOnly_bind (h e (by simp) scope) fun e' _ => failsOnly_ok _

theorem failsOnly_walkList {es : List Expr} (h : ∀ e ∈ es, x.ExprFailsOnly P e) :
    FailsOnly P ((x.walkList es).result scope) := by
  induction es generalizing scope with
  | nil => exact failsOnly_ok _
  | cons e es ih =>
      rw [List.forall_mem_cons] at h
      refine Walk.failsOnly_bind (h.1 scope) fun e' _ => ?_
      exact Walk.failsOnly_bind (ih h.2) fun es' _ => failsOnly_ok _

theorem failsOnly_varDecl {d : VarDecl} (h : ∀ e ∈ d.init.toList, x.ExprFailsOnly P e) :
    FailsOnly P ((x.varDecl d).result scope) := by
  refine Walk.failsOnly_bind (failsOnly_walkOption h) fun init _ => ?_
  exact Walk.failsOnly_bind (failsOnly_ok _) fun _ _ => failsOnly_ok _

theorem failsOnly_target {e : Expr} (hform : ∀ e', P ⟨.notLvalueExpanded e', e.span, x.path⟩)
    (h : x.ExprFailsOnly P e) : FailsOnly P ((x.target e).result scope) := by
  refine Walk.failsOnly_bind (h scope) fun e' _ => ?_
  split
  · exact failsOnly_ok _
  · exact failsOnly_error_iff.2 (hform e')

theorem failsOnly_guard {span : Span} {o : Option Expr}
    (hform : ∀ g, P ⟨.guardNotConst g, span, x.path⟩)
    (h : ∀ e ∈ o.toList, x.ExprFailsOnly P e) : FailsOnly P ((x.guard span o).result scope) := by
  cases o with
  | none => exact failsOnly_ok _
  | some e =>
      refine Walk.failsOnly_bind (h e (by simp) scope) fun e' _ => ?_
      split
      · exact failsOnly_ok _
      · exact failsOnly_error_iff.2 (hform e')

mutual

/-- A statement fails with what some expression in it fails with, or with the form of a target or
a guard. -/
theorem failsOnly_stmt {scope : Scope} {Γ : Context} : (s : Stmt) →
    (∀ part ∈ s.parts Γ, ∀ f, WrongForm x.path part.2 f → P f) →
      (∀ site ∈ s.sites Γ, x.ExprFailsOnly P site.2) → FailsOnly P ((x.stmt s).result scope)
  | .assertion .., _, h => by
      simp only [Stmt.sites, List.forall_mem_singleton] at h
      exact Walk.failsOnly_bind (h scope) fun _ _ => failsOnly_ok _
  | .print .., _, h => by
      simp only [Stmt.sites, List.forall_mem_singleton] at h
      exact Walk.failsOnly_bind (h scope) fun _ _ => failsOnly_ok _
  | .assign .., hforms, h => by
      simp only [Stmt.parts, List.forall_mem_singleton] at hforms
      simp only [Stmt.sites, List.forall_mem_cons] at h
      refine Walk.failsOnly_bind (failsOnly_target (fun _ => hforms _ .target) h.1) fun _ _ => ?_
      exact Walk.failsOnly_bind (h.2.1 _) fun _ _ => failsOnly_ok _
  | .ret .., _, h => by
      simp only [Stmt.sites, List.forall_mem_map] at h
      exact Walk.failsOnly_bind (failsOnly_walkOption h) fun _ _ => failsOnly_ok _
  | .jump .., _, _ => failsOnly_ok _
  | .decl _, _, h => by
      simp only [Stmt.sites, List.forall_mem_map] at h
      exact Walk.failsOnly_bind (failsOnly_varDecl h) fun _ _ => failsOnly_ok _
  | .branch _ _ yes no, hforms, h => by
      simp only [Stmt.parts, List.forall_mem_cons, List.forall_mem_append] at hforms
      simp only [Stmt.sites, List.forall_mem_cons, List.forall_mem_append] at h
      refine Walk.failsOnly_bind (h.1 scope) fun _ _ => ?_
      refine Walk.failsOnly_bind (failsOnly_block yes hforms.2.1 h.2.1) fun _ _ => ?_
      exact Walk.failsOnly_bind (failsOnly_block no hforms.2.2 h.2.2) fun _ _ => failsOnly_ok _
  | .forLoop _ _ _ step body, hforms, h => by
      simp only [Stmt.parts, List.forall_mem_cons, List.forall_mem_append] at hforms
      simp only [Stmt.sites, List.forall_mem_cons, List.forall_mem_append,
        List.forall_mem_map] at h
      obtain ⟨_, _, hstep, hbody⟩ := hforms
      refine Walk.failsOnly_bind (failsOnly_varDecl h.1) fun _ _ => ?_
      refine Walk.failsOnly_bind (h.2.1 _) fun _ _ => ?_
      refine Walk.failsOnly_bind (failsOnly_stmt step hstep h.2.2.1) fun _ _ => ?_
      exact Walk.failsOnly_bind (failsOnly_block body hbody h.2.2.2) fun _ _ => failsOnly_ok _
  | .loop _ _ _ body, hforms, h => by
      simp only [Stmt.parts, List.forall_mem_cons] at hforms
      simp only [Stmt.sites, List.forall_mem_cons] at h
      refine Walk.failsOnly_bind (h.1 scope) fun _ _ => ?_
      exact Walk.failsOnly_bind (failsOnly_block body hforms.2 h.2) fun _ _ => failsOnly_ok _
  | .switch _ _ cs, hforms, h => by
      simp only [Stmt.parts, List.forall_mem_cons] at hforms
      simp only [Stmt.sites, List.forall_mem_cons] at h
      have hguards : ∀ c ∈ cs, ∀ g, P ⟨.guardNotConst g, c.span, x.path⟩ := fun c hc g =>
        hforms.1 _ (.guard hc)
      refine Walk.failsOnly_bind (h.1 scope) fun _ _ => ?_
      exact Walk.failsOnly_bind (failsOnly_cases cs hguards hforms.2 h.2) fun _ _ => failsOnly_ok _
  | .call .., _, h => by
      simp only [Stmt.sites, List.forall_mem_map] at h
      exact Walk.failsOnly_bind (failsOnly_walkList h) fun _ _ => failsOnly_ok _

theorem failsOnly_block {scope : Scope} {Γ : Context} : (ss : List Stmt) →
    (∀ part ∈ Stmt.blockParts Γ ss, ∀ f, WrongForm x.path part.2 f → P f) →
      (∀ site ∈ Stmt.blockSites Γ ss, x.ExprFailsOnly P site.2) →
        FailsOnly P ((x.block ss).result scope)
  | [], _, _ => failsOnly_ok _
  | s :: ss, hforms, h => by
      simp only [Stmt.blockParts, List.forall_mem_append] at hforms
      simp only [Stmt.blockSites, List.forall_mem_append] at h
      refine Walk.failsOnly_bind (failsOnly_stmt s hforms.1 h.1) fun _ _ => ?_
      exact Walk.failsOnly_bind (failsOnly_block ss hforms.2 h.2) fun _ _ => failsOnly_ok _

theorem failsOnly_cases {scope : Scope} {Γ : Context} : (cs : List Case) →
    (∀ c ∈ cs, ∀ g, P ⟨.guardNotConst g, c.span, x.path⟩) →
      (∀ part ∈ Stmt.caseParts Γ cs, ∀ f, WrongForm x.path part.2 f → P f) →
        (∀ site ∈ Stmt.caseSites Γ cs, x.ExprFailsOnly P site.2) →
          FailsOnly P ((x.cases cs).result scope)
  | [], _, _, _ => failsOnly_ok _
  | .mk _ _ body :: cs, hguards, hforms, h => by
      rw [List.forall_mem_cons] at hguards
      simp only [Stmt.caseParts, List.forall_mem_append] at hforms
      simp only [Stmt.caseSites, List.forall_mem_append, List.forall_mem_map] at h
      refine Walk.failsOnly_bind (failsOnly_guard hguards.1 h.1) fun _ _ => ?_
      refine Walk.failsOnly_bind (failsOnly_block body hforms.1 h.2.1) fun _ _ => ?_
      exact Walk.failsOnly_bind (failsOnly_cases cs hguards.2 hforms.2 h.2.2) fun _ _ =>
        failsOnly_ok _

end

/-! ### Programs -/

theorem failsOnly_method {m : Method}
    (hforms : ∀ part ∈ m.parts, ∀ f, WrongForm x.path part.2 f → P f)
    (h : ∀ site ∈ m.sites, x.ExprFailsOnly P site.2) : FailsOnly P (x.method m).result := by
  rw [method, Logged.result_bind, Logged.result_tell]
  change FailsOnly P ((x.block m.body (.ofParams m.params)).1 >>= _).result
  rw [Logged.result_bind]
  exact (failsOnly_block m.body hforms h).bind fun _ _ => failsOnly_ok _

end Expansion

/-- Expanding a program fails with what some expression of its methods fails with, or with the
form of a target or a guard. -/
theorem Program.failsOnly_expand {p : Program} {options : ExpandOptions}
    (hforms : ∀ m ∈ p.methods, ∀ part ∈ m.parts, ∀ f, Expansion.WrongForm p.path part.2 f → P f)
    (h : ∀ m ∈ p.methods, ∀ site ∈ m.sites, (p.expansion options).ExprFailsOnly P site.2) :
    FailsOnly P (p.expand options).result := by
  have hdecl : ∀ d ∈ p.decls, FailsOnly P ((p.expansion options).decl d).result := by
    intro d hd
    cases d with
    | method m =>
        have hm : m ∈ p.methods := mem_methods.2 hd
        rw [Expansion.decl, Logged.result_bind]
        refine FailsOnly.bind ?_ fun _ _ => failsOnly_ok _
        exact Expansion.failsOnly_method (hforms m hm) (h m hm)
    | type t => exact failsOnly_ok _
    | macroDecl m => exact failsOnly_ok _
  rw [expand, Logged.result_bind, Logged.result_tellAll]
  change FailsOnly P (p.decls.mapM (p.expansion options).decl >>= _).result
  rw [Logged.result_bind]
  exact (Logged.failsOnly_mapM hdecl).bind fun _ _ => failsOnly_ok _

end WhileStatics
