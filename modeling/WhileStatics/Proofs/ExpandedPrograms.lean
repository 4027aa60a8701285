import WhileStatics.Expansion.Program
import WhileStatics.Proofs.NormalForms
import WhileStatics.Proofs.Pointwise

/-!
# Expansion of programs

Expanding a program changes it expression by expression: where its methods hold
an expression, those of the result hold what it expands to, assignment targets
and guards being of the form that their place asks for. The macros are those of
the program itself, so expanding the result again changes nothing.
-/

namespace WhileStatics

/-- What may stand at a place of an expanded statement. -/
def Place.Admits : Place → Expr → Prop
  | .value, _ => True
  | .target, e => e.isLvalue = true
  | .guard, e => e.isConst = true

namespace Expansion

variable {x : Expansion} {scope : Scope}

/-- The change that expansion makes. -/
def change (x : Expansion) : Change :=
  fun place _ e e' => x.Expands x.options.depthLimit e e' ∧ place.Admits e'

/-! ### Expressions in statements -/

theorem walkExpr_eq_ok_iff (Γ : Context) {e e' : Expr} :
    (x.walkExpr e).result scope = .ok e' ↔ x.change .value Γ e e' := by
  rw [walkExpr, Walk.result_read, expr, exprAt, exprWithin_eq_ok_iff]
  exact (and_iff_left trivial).symm

theorem walkOption_eq_ok_iff (Γ : Context) {o o' : Option Expr} :
    (x.walkOption o).result scope = .ok o' ↔ Option.Rel (x.change .value Γ) o o' := by
  cases o with
  | none => cases o' <;> simp [walkOption]
  | some e =>
      simp only [walkOption, Walk.result_bind, bind_eq_ok_iff, Walk.result_pure, Except.ok.injEq,
        walkExpr_eq_ok_iff Γ]
      cases o' <;> simp

theorem walkList_eq_ok_iff (Γ : Context) {es es' : List Expr} :
    (x.walkList es).result scope = .ok es' ↔ List.Forall₂ (x.change .value Γ) es es' := by
  induction es generalizing scope es' with
  | nil => simp [walkList, eq_comm]
  | cons e es ih =>
      simp only [walkList, Walk.result_bind, bind_eq_ok_iff, Walk.result_pure, Except.ok.injEq,
        walkExpr_eq_ok_iff Γ, ih, List.forall₂_cons_left_iff]
      constructor
      · rintro ⟨e', he, es', hes, rfl⟩
        exact ⟨e', es', he, hes, rfl⟩
      · rintro ⟨e', es', he, hes, rfl⟩
        exact ⟨e', he, es', hes, rfl⟩

theorem target_eq_ok_iff (Γ : Context) {e e' : Expr} :
    (x.target e).result scope = .ok e' ↔ x.change .target Γ e e' := by
  simp only [target, Walk.result_bind, bind_eq_ok_iff, walkExpr_eq_ok_iff Γ]
  constructor
  · rintro ⟨r, hr, h⟩
    by_cases hlvalue : r.isLvalue = true
    · rw [if_pos hlvalue, Walk.result_pure, Except.ok.injEq] at h
      subst h
      exact ⟨hr.1, hlvalue⟩
    · rw [if_neg hlvalue, Walk.result_fail] at h
      cases h
  · rintro ⟨he, hlvalue⟩
    have hlvalue' : e'.isLvalue = true := hlvalue
    exact ⟨e', ⟨he, trivial⟩, by rw [if_pos hlvalue', Walk.result_pure]⟩

theorem guard_eq_ok_iff (Γ : Context) {span : Span} {o o' : Option Expr} :
    (x.guard span o).result scope = .ok o' ↔ Option.Rel (x.change .guard Γ) o o' := by
  cases o with
  | none => cases o' <;> simp [guard]
  | some e =>
      simp only [guard, Walk.result_bind, bind_eq_ok_iff, walkExpr_eq_ok_iff Γ]
      constructor
      · rintro ⟨r, hr, h⟩
        by_cases hconst : r.isConst = true
        · rw [if_pos hconst, Walk.result_pure, Except.ok.injEq] at h
          subst h
          exact .some ⟨hr.1, hconst⟩
        · rw [if_neg hconst, Walk.result_fail] at h
          cases h
      · intro h
        cases h with
        | @some _ e' h =>
            have hconst : e'.isConst = true := h.2
            exact ⟨e', ⟨h.1, trivial⟩, by rw [if_pos hconst, Walk.result_pure]⟩

theorem varDecl_eq_ok_iff (Γ : Context) {d d' : VarDecl} :
    (x.varDecl d).result scope = .ok d' ↔ d.Pointwise x.change Γ d' := by
  simp only [varDecl, Walk.result_bind, bind_eq_ok_iff, walkOption_eq_ok_iff Γ,
    Walk.result_declare, Walk.result_pure, Except.ok.injEq, true_and, exists_const]
  exact exists_congr fun init => and_congr_right fun _ => eq_comm

/-! ### Statements -/

mutual

/-- Expanding a statement changes it expression by expression. -/
theorem stmt_eq_ok_iff {scope : Scope} (Γ : Context) : (s s' : Stmt) →
    ((x.stmt s).result scope = .ok s' ↔ s.Pointwise x.change Γ s')
  | .assertion .., s' => by
      simp only [stmt, Stmt.Pointwise, Walk.result_bind, bind_eq_ok_iff, Walk.result_pure,
        Except.ok.injEq, walkExpr_eq_ok_iff Γ, eq_comm (a := s')]
  | .print .., s' => by
      simp only [stmt, Stmt.Pointwise, Walk.result_bind, bind_eq_ok_iff, Walk.result_pure,
        Except.ok.injEq, walkExpr_eq_ok_iff Γ, eq_comm (a := s')]
  | .assign .., s' => by
      simp only [stmt, Stmt.Pointwise, Walk.result_bind, bind_eq_ok_iff, Walk.result_pure,
        Except.ok.injEq, target_eq_ok_iff Γ, walkExpr_eq_ok_iff Γ, exists_and_left,
        eq_comm (a := s')]
  | .ret .., s' => by
      simp only [stmt, Stmt.Pointwise, Walk.result_bind, bind_eq_ok_iff, Walk.result_pure,
        Except.ok.injEq, walkOption_eq_ok_iff Γ, eq_comm (a := s')]
  | .jump .., s' => by
      simp only [stmt, Stmt.Pointwise, Walk.result_pure, Except.ok.injEq, eq_comm (a := s')]
  | .decl .., s' => by
      simp only [stmt, Stmt.Pointwise, Walk.result_bind, bind_eq_ok_iff, Walk.result_pure,
        Except.ok.injEq, varDecl_eq_ok_iff Γ, eq_comm (a := s')]
  | .branch _ _ yes no, s' => by
      simp only [stmt, Stmt.Pointwise, Walk.result_bind, bind_eq_ok_iff, Walk.result_pure,
        Except.ok.injEq, Walk.result_inBlock, walkExpr_eq_ok_iff Γ, block_eq_ok_iff Γ yes,
        block_eq_ok_iff Γ no, exists_and_left, eq_comm (a := s')]
  | .forLoop _ d _ step body, s' => by
      simp only [stmt, Stmt.Pointwise, Walk.result_bind, bind_eq_ok_iff, Walk.result_pure,
        Except.ok.injEq, Walk.result_inBlock, varDecl_eq_ok_iff Γ,
        walkExpr_eq_ok_iff (d.extend Γ), stmt_eq_ok_iff (d.extend Γ) step,
        block_eq_ok_iff (step.extend (d.extend Γ)) body, exists_and_left, eq_comm (a := s')]
  | .loop _ _ _ body, s' => by
      simp only [stmt, Stmt.Pointwise, Walk.result_bind, bind_eq_ok_iff, Walk.result_pure,
        Except.ok.injEq, Walk.result_inBlock, walkExpr_eq_ok_iff Γ, block_eq_ok_iff Γ body,
        exists_and_left, eq_comm (a := s')]
  | .switch _ _ cs, s' => by
      simp only [stmt, Stmt.Pointwise, Walk.result_bind, bind_eq_ok_iff, Walk.result_pure,
        Except.ok.injEq, walkExpr_eq_ok_iff Γ, cases_eq_ok_iff Γ cs, exists_and_left,
        eq_comm (a := s')]
  | .call .., s' => by
      simp only [stmt, Stmt.Pointwise, Walk.result_bind, bind_eq_ok_iff, Walk.result_pure,
        Except.ok.injEq, walkList_eq_ok_iff Γ, eq_comm (a := s')]

theorem block_eq_ok_iff {scope : Scope} (Γ : Context) : (ss ss' : List Stmt) →
    ((x.block ss).result scope = .ok ss' ↔ Stmt.BlockPointwise x.change Γ ss ss')
  | [], ss' => by
      simp only [block, Stmt.BlockPointwise, Walk.result_pure, Except.ok.injEq,
        eq_comm (a := ss')]
  | s :: ss, ss' => by
      simp only [block, Stmt.BlockPointwise, Walk.result_bind, bind_eq_ok_iff, Walk.result_pure,
        Except.ok.injEq, stmt_eq_ok_iff Γ s, block_eq_ok_iff (s.extend Γ) ss, exists_and_left,
        eq_comm (a := ss')]

theorem cases_eq_ok_iff {scope : Scope} (Γ : Context) : (cs cs' : List Case) →
    ((x.cases cs).result scope = .ok cs' ↔ Stmt.CasesPointwise x.change Γ cs cs')
  | [], cs' => by
      simp only [cases, Stmt.CasesPointwise, Walk.result_pure, Except.ok.injEq,
        eq_comm (a := cs')]
  | .mk _ _ body :: cs, cs' => by
      simp only [cases, Stmt.CasesPointwise, Walk.result_bind, bind_eq_ok_iff, Walk.result_pure,
        Except.ok.injEq, Walk.result_inBlock, guard_eq_ok_iff Γ, block_eq_ok_iff Γ body,
        cases_eq_ok_iff Γ cs, exists_and_left, eq_comm (a := cs')]

end

/-! ### Programs -/

theorem method_eq_ok_iff {m m' : Method} :
    (x.method m).result = .ok m' ↔
      ∃ body, Stmt.BlockPointwise x.change m.context m.body body ∧ m' = { m with body } := by
  have hblock body : (x.block m.body (.ofParams m.params)).1.result = .ok body ↔ _ :=
    block_eq_ok_iff m.context m.body body
  simp only [method, Logged.result_bind, bind_eq_ok_iff, Logged.result_tell, Logged.result_pure,
    Except.ok.injEq, hblock, true_and, exists_const, eq_comm (a := m')]

theorem decl_eq_ok_iff {d d' : Decl} : (x.decl d).result = .ok d' ↔ d.Pointwise x.change d' := by
  cases d with
  | method m =>
      simp only [decl, Decl.Pointwise, Logged.result_bind, bind_eq_ok_iff, method_eq_ok_iff,
        Logged.result_pure, Except.ok.injEq]
      constructor
      · rintro ⟨_, ⟨body, hbody, rfl⟩, rfl⟩
        exact ⟨body, hbody, rfl⟩
      · rintro ⟨body, hbody, rfl⟩
        exact ⟨_, ⟨body, hbody, rfl⟩, rfl⟩
  | type t =>
      simp only [decl, Decl.Pointwise, Logged.result_pure, Except.ok.injEq, eq_comm (a := d')]
  | macroDecl m =>
      simp only [decl, Decl.Pointwise, Logged.result_pure, Except.ok.injEq, eq_comm (a := d')]

/-- What expansion puts at a place is left there by a second expansion. -/
theorem settles_change (x : Expansion) : Change.Settles x.change x.change :=
  fun _ _ _ _ h => ⟨h.1.idempotent, h.2⟩

end Expansion

namespace Program

variable {p q : Program} {options : ExpandOptions}

/-- What the calls in a program are expanded with. -/
def expansion (p : Program) (options : ExpandOptions) : Expansion :=
  { path := p.path, macros := p.declarations.macros, options }

theorem Pointwise.declared_macros_eq {R : Change} (h : p.Pointwise R q) :
    q.declarations.macros = p.declarations.macros := by
  rw [declarations_eq, declarations_eq, h.macros_eq]

theorem Pointwise.expansion_eq {R : Change} (h : p.Pointwise R q) (options : ExpandOptions) :
    q.expansion options = p.expansion options := by
  rw [expansion, expansion, h.path_eq, h.declared_macros_eq]

theorem expand_eq_ok_iff :
    (p.expand options).result = .ok q ↔ p.Pointwise (p.expansion options).change q := by
  simp only [expand, Program.Pointwise, expansion, Logged.result_bind, bind_eq_ok_iff,
    Logged.result_tellAll, Logged.result_mapM_eq_ok_iff, Expansion.decl_eq_ok_iff,
    Logged.result_pure, Except.ok.injEq, true_and, exists_const, eq_comm (a := q)]

/-- A change that leaves nothing to expand leads to a program that expands to itself. -/
theorem Pointwise.expand_self {R : Change} (h : p.Pointwise R q)
    (hR : R.Settles (p.expansion options).change) : (q.expand options).result = .ok q := by
  rw [expand_eq_ok_iff, h.expansion_eq]
  exact h.right hR

/-- Expanding the result of an expansion gives it back unchanged. -/
theorem expand_of_expand_eq_ok (p q : Program) (options : ExpandOptions)
    (h : (p.expand options).result = .ok q) : (q.expand options).result = .ok q := by
  rw [expand_eq_ok_iff] at h
  exact h.expand_self (Expansion.settles_change _)

/-- A macro that is declared twice, one that needs the whole limit, and one whose calls stay in
place because its body is no template; a method has its name as well. -/
def readings : Program where
  path := "readings"
  decls := [
    .macroDecl { name := "inc", params := [⟨"a", {}⟩], body := .var {} "a" },
    .macroDecl { name := "inc", params := [⟨"a", {}⟩, ⟨"b", {}⟩],
                 body := .binary {} .add (.var {} "a") (.const {} (.int 1)) },
    .macroDecl { name := "flip", params := [⟨"a", {}⟩],
                 body := .unary {} .neg (.call {} "inc" [.const {} (.int 2)]) },
    .macroDecl { name := "first", params := [⟨"a", {}⟩],
                 body := .index {} (.var {} "a") (.const {} (.int 0)) },
    .method { name := "first", ret := .int, params := [{ name := "xs", ty := .array .int }],
              body := [.print {} (.call {} "flip" [.var {} "xs"]),
                .ret {} (some (.call {} "inc" [.call {} "first" [.var {} "xs"]]))] }]

/-- The program after expansion with room for two instantiations and any argument counts. -/
def readingsExpanded : Program where
  path := "readings"
  decls := readings.decls.take 4 ++ [
    .method { name := "first", ret := .int, params := [{ name := "xs", ty := .array .int }],
              body := [
                .print {} (.unary {} .neg
                  (.binary {} .add (.const {} (.int 2)) (.const {} (.int 1)))),
                .ret {} (some (.binary {} .add (.call {} "first" [.var {} "xs"])
                  (.const {} (.int 1))))] }]

theorem expand_readingsExpanded :
    (readings.expand ⟨2, false⟩).result = .ok readingsExpanded ∧
      (readingsExpanded.expand ⟨2, false⟩).result = .ok readingsExpanded := by
  have h : (readings.expand ⟨2, false⟩).result = .ok readingsExpanded := by rfl
  exact ⟨h, expand_of_expand_eq_ok readings readingsExpanded ⟨2, false⟩ h⟩

end Program

end WhileStatics
