import WhileStatics.Expansion.Program
import WhileStatics.Proofs.Expanding
import WhileStatics.Proofs.StatementPasses
import WhileStatics.Typing.Program

/-!
# Nested blocks

Expansion and checking are passes over statements that look at nothing but the
variables in scope: inference looks variables up, and expansion asks whether the
free names of a macro body are variables. So both restore the scope on every
path, and for both the stack of frames is one way to say that each nested block
works on a copy of the scope.
-/

namespace WhileStatics

/-! ### Inference -/

namespace Declarations

variable {ds : Declarations} {s s' : Scope}

mutual

/-- Inference depends on the variables in scope only. -/
theorem infer_congr (h : s.context = s'.context) : (e : Expr) → ds.infer s e = ds.infer s' e
  | .binary _ _ l r => by rw [infer, infer, infer_congr h l, infer_congr h r]
  | .unary _ _ x => by rw [infer, infer, infer_congr h x]
  | .const .. => rfl
  | .var _ n => by rw [infer, infer, Scope.lookup_congr h n]
  | .index _ a p => by rw [infer, infer, infer_congr h a, infer_congr h p]
  | .call _ n as => by simp only [infer, inferArgs_congr h _ as]
  | .generate _ v c => by rw [infer, infer, infer_congr h v, infer_congr h c]
  | .array _ es => by rw [infer, infer, inferList_congr h es]
  | .access _ a _ => by rw [infer, infer, infer_congr h a]
  | .record _ fs => by rw [infer, infer, inferFields_congr h fs]

theorem inferArgs_congr (h : s.context = s'.context) : (ps : List Param) → (as : List Expr) →
    ds.inferArgs s ps as = ds.inferArgs s' ps as
  | [], _ => by simp [inferArgs]
  | _ :: _, [] => rfl
  | _ :: ps, a :: as => by
      rw [inferArgs, inferArgs, infer_congr h a, inferArgs_congr h ps as]

theorem inferList_congr (h : s.context = s'.context) :
    (es : List Expr) → ds.inferList s es = ds.inferList s' es
  | [] => rfl
  | e :: es => by rw [inferList, inferList, infer_congr h e, inferList_congr h es]

theorem inferFields_congr (h : s.context = s'.context) :
    (fs : List (String × Expr)) → ds.inferFields s fs = ds.inferFields s' fs
  | [] => rfl
  | (_, e) :: fs => by rw [inferFields, inferFields, infer_congr h e, inferFields_congr h fs]

end

theorem inferCondition_congr (h : s.context = s'.context) (e : Expr) :
    ds.inferCondition s e = ds.inferCondition s' e := by
  rw [inferCondition, inferCondition, infer_congr h]

theorem inferBelow_congr (h : s.context = s'.context) (sup : Ty) (e : Expr) :
    ds.inferBelow s sup e = ds.inferBelow s' sup e := by
  rw [inferBelow, inferBelow, infer_congr h]

theorem inferOptionBelow_congr (h : s.context = s'.context) (sup : Ty) (o : Option Expr) :
    ds.inferOptionBelow s sup o = ds.inferOptionBelow s' sup o := by
  cases o with
  | none => rfl
  | some e => rw [inferOptionBelow, inferOptionBelow, inferBelow_congr h]

theorem inferCall_congr (h : s.context = s'.context) (span : Span) (n : String)
    (as : List Expr) : ds.inferCall s span n as = ds.inferCall s' span n as := by
  simp only [inferCall, inferArgs_congr h]

theorem checkAssign_congr (h : s.context = s'.context) (t e : Expr) :
    ds.checkAssign s t e = ds.checkAssign s' t e := by
  simp only [checkAssign, infer_congr h, inferBelow_congr h]

/-! ### Checking -/

/-- Checking as a pass over the statements of a method that returns `ret`. -/
def pass (ds : Declarations) (ret : Ty) : StmtPass Ty where
  condition c := Walk.ask fun scope => ds.inferCondition scope c
  printed e := do
    let e' ← Walk.ask fun scope => ds.infer scope e
    return e'.expr
  assigned t e := Walk.ask fun scope => ds.checkAssign scope t e
  returned o := Walk.ask fun scope => ds.inferOptionBelow scope ret o
  declared := ds.checkVarDecl
  scrutinee e := do
    let e' ← Walk.ask fun scope => ds.infer scope e
    return (e'.expr, e'.ty)
  guard on _ o := Walk.ask fun scope => ds.inferOptionBelow scope on o
  args span n as := Walk.ask fun scope => ds.inferCall scope span n as

theorem lawful_pass (ds : Declarations) (ret : Ty) : (ds.pass ret).Lawful where
  condition c := Walk.keepsAlike_ask fun _ _ h => inferCondition_congr h c
  printed e := by
    refine Walk.keepsAlike_bind (Walk.keepsAlike_ask fun _ _ h => infer_congr h e) fun _ => ?_
    exact Walk.keepsAlike_pure _
  assigned t e := Walk.keepsAlike_ask fun _ _ h => checkAssign_congr h t e
  returned o := Walk.keepsAlike_ask fun _ _ h => inferOptionBelow_congr h ret o
  declared d := by
    refine ⟨do
      let init ← Walk.ask fun scope => do
        atSpan d.span (d.ty.validate ds.types) ds.path
        if scope.contains d.name then .error ⟨.duplicateVariable d.name, d.span, ds.path⟩
        else ds.inferOptionBelow scope d.ty d.init
      return { d with init }, ?_, by simp [pass, checkVarDecl]⟩
    refine Walk.keepsAlike_bind (Walk.keepsAlike_ask fun _ _ h => ?_) fun _ =>
      Walk.keepsAlike_pure _
    rw [Scope.contains_congr h, inferOptionBelow_congr h]
  scrutinee e := by
    refine Walk.keepsAlike_bind (Walk.keepsAlike_ask fun _ _ h => infer_congr h e) fun _ => ?_
    exact Walk.keepsAlike_pure _
  guard on _ o := Walk.keepsAlike_ask fun _ _ h => inferOptionBelow_congr h on o
  args span n as := Walk.keepsAlike_ask fun _ _ h => inferCall_congr h span n as

mutual

theorem checkStmt_eq_pass (ds : Declarations) (ret : Ty) :
    (s : Stmt) → ds.checkStmt ret s = (ds.pass ret).stmt .stacked s
  | .assertion .. | .assign .. | .ret .. | .jump .. | .decl _ | .call .. => rfl
  | .print .. => by simp [checkStmt, StmtPass.stmt, pass]
  | .branch _ _ yes no => by
      rw [checkStmt, checkBlock_eq_pass ds ret yes, checkBlock_eq_pass ds ret no]
      rfl
  | .forLoop _ _ _ step body => by
      rw [checkStmt, checkStmt_eq_pass ds ret step, checkBlock_eq_pass ds ret body]
      rfl
  | .loop _ _ _ body => by
      rw [checkStmt, checkBlock_eq_pass ds ret body]
      rfl
  | .switch _ _ cs => by
      simp [checkStmt, StmtPass.stmt, pass, checkCases_eq_pass ds ret _ cs]

theorem checkBlock_eq_pass (ds : Declarations) (ret : Ty) :
    (ss : List Stmt) → ds.checkBlock ret ss = (ds.pass ret).block .stacked ss
  | [] => rfl
  | s :: ss => by
      rw [checkBlock, checkStmt_eq_pass ds ret s, checkBlock_eq_pass ds ret ss]
      rfl

theorem checkCases_eq_pass (ds : Declarations) (ret on : Ty) :
    (cs : List Case) → ds.checkCases ret on cs = (ds.pass ret).cases .stacked on cs
  | [] => rfl
  | .mk _ _ body :: cs => by
      rw [checkCases, checkBlock_eq_pass ds ret body, checkCases_eq_pass ds ret on cs]
      rfl

end

theorem keepsOuter_checkBlock (ds : Declarations) (ret : Ty) (ss : List Stmt) :
    (ds.checkBlock ret ss).KeepsOuter := by
  rw [checkBlock_eq_pass]
  exact ((ds.lawful_pass ret).addsAlike_block ss).keepsOuter

theorem restoresScope_checkStmt (ds : Declarations) (ret : Ty) (s : Stmt) :
    s.RestoresScope (ds.checkStmt ret s) := by
  rw [checkStmt_eq_pass]
  exact (ds.lawful_pass ret).restoresScope s

end Declarations

/-! ### Expansion -/

theorem Bindings.apply_congr {s s' : Scope} (h : s.context = s'.context) (bindings : Bindings)
    (callee : String) (call : Span) (e : Expr) :
    bindings.apply s callee call e = bindings.apply s' callee call e := by
  cases e with
  | var i n => simp only [Bindings.apply, Scope.contains_congr h n]
  | _ => rfl

namespace Expansion

variable {x : Expansion} {s s' : Scope}

theorem instantiate_congr (h : s.context = s'.context) (expandBody : Expr → Logged Expr)
    (n : String) (bindings : Bindings) (i : Info) (as : List Expr) (body : Expr) :
    instantiate expandBody s n bindings i as body =
      instantiate expandBody s' n bindings i as body := by
  cases body with
  | binary j op l r => simp only [instantiate, Bindings.apply_congr h]
  | unary j op y => simp only [instantiate, Bindings.apply_congr h]
  | _ => rfl

/-- Expansion depends on the variables in scope only. -/
theorem exprWithin_congr (h : s.context = s'.context) (b : Nat) :
    x.exprWithin s b = x.exprWithin s' b := by
  induction b with
  | zero => rfl
  | succ b ih => simp only [exprWithin, replaceCall, ih, instantiate_congr h]

theorem reads_walkExpr (x : Expansion) (e : Expr) : (x.walkExpr e).Reads :=
  Walk.keepsAlike_read fun _ _ h => by rw [expr, expr, exprAt, exprAt, exprWithin_congr h]

theorem reads_walkOption (x : Expansion) (o : Option Expr) : (x.walkOption o).Reads := by
  cases o with
  | none => exact Walk.keepsAlike_pure _
  | some e => exact Walk.keepsAlike_bind (x.reads_walkExpr e) fun _ => Walk.keepsAlike_pure _

theorem reads_walkList (x : Expansion) (es : List Expr) : (x.walkList es).Reads := by
  induction es with
  | nil => exact Walk.keepsAlike_pure _
  | cons e es ih =>
      refine Walk.keepsAlike_bind (x.reads_walkExpr e) fun _ => ?_
      exact Walk.keepsAlike_bind ih fun _ => Walk.keepsAlike_pure _

theorem reads_target (x : Expansion) (e : Expr) : (x.target e).Reads := by
  refine Walk.keepsAlike_bind (x.reads_walkExpr e) fun e' => ?_
  split
  · exact Walk.keepsAlike_pure _
  · exact Walk.keepsAlike_read fun _ _ _ => rfl

theorem reads_guard (x : Expansion) (span : Span) (o : Option Expr) : (x.guard span o).Reads := by
  cases o with
  | none => exact Walk.keepsAlike_pure _
  | some e =>
      refine Walk.keepsAlike_bind (x.reads_walkExpr e) fun e' => ?_
      split
      · exact Walk.keepsAlike_pure _
      · exact Walk.keepsAlike_read fun _ _ _ => rfl

/-- Expansion as a pass over statements. -/
def pass (x : Expansion) : StmtPass Unit where
  condition := x.walkExpr
  printed := x.walkExpr
  assigned t e := do
    let t' ← x.target t
    let e' ← x.walkExpr e
    return (t', e')
  returned := x.walkOption
  declared := x.varDecl
  scrutinee e := do
    let e' ← x.walkExpr e
    return (e', ())
  guard _ := x.guard
  args _ _ := x.walkList

theorem lawful_pass (x : Expansion) : x.pass.Lawful where
  condition := x.reads_walkExpr
  printed := x.reads_walkExpr
  assigned t e := by
    refine Walk.keepsAlike_bind (x.reads_target t) fun _ => ?_
    exact Walk.keepsAlike_bind (x.reads_walkExpr e) fun _ => Walk.keepsAlike_pure _
  returned := x.reads_walkOption
  declared d := by
    refine ⟨do
      let init ← x.walkOption d.init
      return { d with init }, ?_, by simp [pass, varDecl]⟩
    exact Walk.keepsAlike_bind (x.reads_walkOption d.init) fun _ => Walk.keepsAlike_pure _
  scrutinee e := Walk.keepsAlike_bind (x.reads_walkExpr e) fun _ => Walk.keepsAlike_pure _
  guard _ := x.reads_guard
  args _ _ := x.reads_walkList

mutual

theorem stmt_eq_pass (x : Expansion) : (s : Stmt) → x.stmt s = x.pass.stmt .stacked s
  | .assertion .. | .print .. | .ret .. | .jump .. | .decl _ | .call .. => rfl
  | .assign .. => by simp [stmt, StmtPass.stmt, pass]
  | .branch _ _ yes no => by
      rw [stmt, x.block_eq_pass yes, x.block_eq_pass no]
      rfl
  | .forLoop _ _ _ step body => by
      rw [stmt, x.stmt_eq_pass step, x.block_eq_pass body]
      rfl
  | .loop _ _ _ body => by
      rw [stmt, x.block_eq_pass body]
      rfl
  | .switch _ _ cs => by simp [stmt, StmtPass.stmt, pass, x.cases_eq_pass cs]

theorem block_eq_pass (x : Expansion) : (ss : List Stmt) → x.block ss = x.pass.block .stacked ss
  | [] => rfl
  | s :: ss => by
      rw [block, x.stmt_eq_pass s, x.block_eq_pass ss]
      rfl

theorem cases_eq_pass (x : Expansion) : (cs : List Case) → x.cases cs = x.pass.cases .stacked () cs
  | [] => rfl
  | .mk _ _ body :: cs => by
      rw [cases, x.block_eq_pass body, x.cases_eq_pass cs]
      rfl

end

theorem restoresScope_stmt (x : Expansion) (s : Stmt) : s.RestoresScope (x.stmt s) := by
  rw [stmt_eq_pass]
  exact x.lawful_pass.restoresScope s

end Expansion

/-- Both passes restore the scope on every path: a statement that fails leaves it as it was, and so
does one that succeeds, except that a declaration binds its variable unless the name is in scope.
A block therefore does the same, with the same result, events and scope, as one in which every
nested block works on a copy of the scope. -/
theorem passes_restore_scopes_and_blocks_work_on_copies (x : Expansion) (ds : Declarations)
    (ret : Ty) :
    (∀ s : Stmt, s.RestoresScope (x.stmt s) ∧ s.RestoresScope (ds.checkStmt ret s)) ∧
      ∀ ss : List Stmt, x.block ss = x.pass.block .copied ss ∧
        ds.checkBlock ret ss = (ds.pass ret).block .copied ss := by
  refine ⟨fun s => ⟨x.restoresScope_stmt s, ds.restoresScope_checkStmt ret s⟩,
    fun ss => ⟨?_, ?_⟩⟩
  · rw [x.block_eq_pass, x.lawful_pass.block_stacked_eq]
  · rw [ds.checkBlock_eq_pass, (ds.lawful_pass ret).block_stacked_eq]

-- The variable of a loop is out of scope after the loop.
example :
    (Declarations.checkBlock { path := "loop" } .void [
      .forLoop {} { ty := .int, name := "i" } (.const {} (.bool false)) (.jump {} .again) [],
      .print {} (.var {} "i")]).result .empty = .error ⟨.unknownVariable "i", {}, "loop"⟩ := by
  rfl

end WhileStatics
