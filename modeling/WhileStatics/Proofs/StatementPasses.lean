import WhileStatics.Proofs.Scopes

/-!
# Passes over statements

A pass goes through the statements of a method body and does its own things with
the expressions and the declared variables it meets. It can run nested blocks on
a stack of frames, or each of them on a copy of the scope that is then dropped.
If it looks at nothing but the variables in scope, both ways give the same
outcomes, and no statement but a declaration leaves a trace in the scope.

## Implementation notes

The two ways meet different scopes: one has opened frames where the other has
none. So walks are compared from scopes with the same variables, however these
are spread over frames.
-/

namespace WhileStatics

variable {α β σ : Type}

namespace Scope

variable {s s' : Scope}

/-- Adds bindings to the innermost frame. -/
def extendInner (s : Scope) (added : Frame) : Scope := { s with inner := added ++ s.inner }

@[simp] theorem extendInner_extendInner (s : Scope) (added later : Frame) :
    (s.extendInner added).extendInner later = s.extendInner (later ++ added) := by
  simp [extendInner, List.append_assoc]

@[simp] theorem context_extendInner (s : Scope) (added : Frame) :
    (s.extendInner added).context = added ++ s.context := by
  simp [extendInner, context, frames, List.append_assoc]

/-- Closing a block drops what was added in it. -/
@[simp] theorem pop_extendInner_push (s : Scope) (added : Frame) :
    (s.push.extendInner added).pop = s := rfl

theorem lookup_congr (h : s.context = s'.context) (name : String) :
    s.lookup name = s'.lookup name := by
  rw [lookup_eq_lookup_context, lookup_eq_lookup_context, h]

theorem contains_congr (h : s.context = s'.context) (name : String) :
    s.contains name = s'.contains name := by
  rw [contains, contains, lookup_congr h]

theorem declare_eq (s : Scope) (name : String) (ty : Ty) :
    s.declare name ty = if s.contains name then s else s.extendInner [(name, ty)] := by
  unfold declare declare?
  split <;> rfl

end Scope

namespace Walk

variable {w w' : Walk α} {f f' : α → Walk β}

/-- Walks through a nested block on a copy of the scope, which is dropped afterwards. -/
def onCopy (w : Walk α) : Walk α := fun scope => ((w scope).1, scope)

/-! ### Walks side by side -/

/-- From scopes with the same variables the walks have the same outcome, and both leave the scope
as it was. -/
def KeepsAlike (w w' : Walk α) : Prop :=
  ∀ s s' : Scope, s.context = s'.context → ∃ out, w s = (out, s) ∧ w' s' = (out, s')

/-- From scopes with the same variables the walks have the same outcome, and both add the same
bindings to the innermost frame. -/
def AddsAlike (w w' : Walk α) : Prop :=
  ∀ s s' : Scope, s.context = s'.context →
    ∃ out added, w s = (out, s.extendInner added) ∧ w' s' = (out, s'.extendInner added)

theorem KeepsAlike.addsAlike (h : KeepsAlike w w') : AddsAlike w w' := by
  intro s s' hs
  obtain ⟨out, hw, hw'⟩ := h s s' hs
  exact ⟨out, [], hw, hw'⟩

theorem AddsAlike.eq (h : AddsAlike w w') : w = w' := by
  funext scope
  obtain ⟨out, added, hw, hw'⟩ := h scope scope rfl
  rw [hw, hw']

theorem KeepsAlike.keepsScope (h : KeepsAlike w w') : w.KeepsScope := by
  intro scope
  obtain ⟨out, hw, _⟩ := h scope scope rfl
  rw [scopeAfter, hw]

theorem AddsAlike.keepsOuter (h : AddsAlike w w') : w.KeepsOuter := by
  intro scope
  obtain ⟨out, added, hw, _⟩ := h scope scope rfl
  rw [scopeAfter, hw]
  rfl

theorem keepsAlike_pure (a : α) : KeepsAlike (pure a) (pure a) := fun _ _ _ => ⟨pure a, rfl, rfl⟩

theorem keepsAlike_read {g : Scope → Logged α}
    (h : ∀ s s' : Scope, s.context = s'.context → g s = g s') : KeepsAlike (read g) (read g) :=
  fun s s' hs => ⟨g s, rfl, by rw [read, h s s' hs]⟩

theorem keepsAlike_ask {g : Scope → Except Failure α}
    (h : ∀ s s' : Scope, s.context = s'.context → g s = g s') : KeepsAlike (ask g) (ask g) :=
  keepsAlike_read fun s s' hs => by rw [h s s' hs]

theorem keepsAlike_bind (hw : KeepsAlike w w') (hf : ∀ a, KeepsAlike (f a) (f' a)) :
    KeepsAlike (w >>= f) (w' >>= f') := by
  intro s s' hs
  obtain ⟨⟨r, es⟩, hws, hws'⟩ := hw s s' hs
  change ∃ out, bind w f s = (out, s) ∧ bind w' f' s' = (out, s')
  cases r with
  | error e => exact ⟨⟨.error e, es⟩, by simp [bind, hws], by simp [bind, hws']⟩
  | ok a =>
      obtain ⟨out, hfs, hfs'⟩ := hf a s s' hs
      exact ⟨⟨out.result, es ++ out.events⟩, by simp [bind, hws, hfs], by simp [bind, hws', hfs']⟩

theorem addsAlike_declare (name : String) (ty : Ty) :
    AddsAlike (declare name ty) (declare name ty) := by
  intro s s' hs
  simp only [declare, Scope.declare_eq, ← Scope.contains_congr hs name]
  split
  · exact ⟨pure (), [], rfl, rfl⟩
  · exact ⟨pure (), [(name, ty)], rfl, rfl⟩

theorem addsAlike_bind (hw : AddsAlike w w') (hf : ∀ a, AddsAlike (f a) (f' a)) :
    AddsAlike (w >>= f) (w' >>= f') := by
  intro s s' hs
  obtain ⟨⟨r, es⟩, added, hws, hws'⟩ := hw s s' hs
  change ∃ out added, bind w f s = (out, _) ∧ bind w' f' s' = (out, _)
  cases r with
  | error e => exact ⟨⟨.error e, es⟩, added, by simp [bind, hws], by simp [bind, hws']⟩
  | ok a =>
      -- The second walk starts from scopes that have the added bindings in common.
      have hafter : (s.extendInner added).context = (s'.extendInner added).context := by simp [hs]
      obtain ⟨out, later, hfs, hfs'⟩ := hf a _ _ hafter
      exact ⟨⟨out.result, es ++ out.events⟩, later ++ added, by simp [bind, hws, hfs],
        by simp [bind, hws', hfs']⟩

/-- Opening a frame and closing it is as good as working on a copy. -/
theorem AddsAlike.nested (h : AddsAlike w w') : KeepsAlike w.inBlock w'.onCopy := by
  intro s s' hs
  obtain ⟨out, added, hw, hw'⟩ := h s.push s' (by simpa using hs)
  exact ⟨out, by simp [inBlock, hw], by simp [onCopy, hw']⟩

end Walk

/-! ### Passes -/

/-- A way to walk through nested blocks. -/
def Nesting := ∀ α : Type, Walk α → Walk α

/-- Every nested block gets a frame of its own on the stack. -/
def Nesting.stacked : Nesting := fun _ w => w.inBlock

/-- Every nested block gets its own copy of the scope. -/
def Nesting.copied : Nesting := fun _ w => w.onCopy

/-- What a pass does with the parts of statements that are not statements. What it finds out about
the scrutinee of a `switch` is of type `σ` and goes to the guards of the cases. -/
structure StmtPass (σ : Type) where
  condition : Expr → Walk Expr
  printed : Expr → Walk Expr
  assigned : Expr → Expr → Walk (Expr × Expr)
  returned : Option Expr → Walk (Option Expr)
  declared : VarDecl → Walk VarDecl
  scrutinee : Expr → Walk (Expr × σ)
  guard : σ → Span → Option Expr → Walk (Option Expr)
  args : Span → String → List Expr → Walk (List Expr)

namespace StmtPass

mutual

/-- Goes through a statement. -/
def stmt (pass : StmtPass σ) (nest : Nesting) : Stmt → Walk Stmt
  | .assertion span c => do
      let c' ← pass.condition c
      return .assertion span c'
  | .print span e => do
      let e' ← pass.printed e
      return .print span e'
  | .assign span t e => do
      let (t', e') ← pass.assigned t e
      return .assign span t' e'
  | .ret span e => do
      let e' ← pass.returned e
      return .ret span e'
  | .jump span j => pure (.jump span j)
  | .decl d => do
      let d' ← pass.declared d
      return .decl d'
  | .branch span c yes no => do
      let c' ← pass.condition c
      let yes' ← nest _ (block pass nest yes)
      let no' ← nest _ (block pass nest no)
      return .branch span c' yes' no'
  | .forLoop span d c step body => nest _ do
      let d' ← pass.declared d
      let c' ← pass.condition c
      let step' ← stmt pass nest step
      let body' ← nest _ (block pass nest body)
      return .forLoop span d' c' step' body'
  | .loop span test c body => do
      let c' ← pass.condition c
      let body' ← nest _ (block pass nest body)
      return .loop span test c' body'
  | .switch span e cs => do
      let (e', on) ← pass.scrutinee e
      let cs' ← cases pass nest on cs
      return .switch span e' cs'
  | .call span n as => do
      let as' ← pass.args span n as
      return .call span n as'

/-- Goes through the statements of a block in their order. -/
def block (pass : StmtPass σ) (nest : Nesting) : List Stmt → Walk (List Stmt)
  | [] => pure []
  | s :: ss => do
      let s' ← stmt pass nest s
      let ss' ← block pass nest ss
      return s' :: ss'

/-- Goes through cases one after another, the guard of a case before its body. -/
def cases (pass : StmtPass σ) (nest : Nesting) (on : σ) : List Case → Walk (List Case)
  | [] => pure []
  | .mk span g body :: cs => do
      let g' ← pass.guard on span g
      let body' ← nest _ (block pass nest body)
      let cs' ← cases pass nest on cs
      return .mk span g' body' :: cs'

end

end StmtPass

/-- The walk depends on the variables in scope only and leaves the scope as it was. -/
def Walk.Reads (w : Walk α) : Prop := KeepsAlike w w

/-- The pass looks at nothing but the variables in scope, and changes the scope only when a
declaration succeeds. -/
structure StmtPass.Lawful (pass : StmtPass σ) : Prop where
  condition : ∀ e, (pass.condition e).Reads
  printed : ∀ e, (pass.printed e).Reads
  assigned : ∀ t e, (pass.assigned t e).Reads
  returned : ∀ o, (pass.returned o).Reads
  declared : ∀ d, ∃ w : Walk VarDecl, w.Reads ∧
    pass.declared d = do
      let d' ← w
      Walk.declare d.name d.ty
      return d'
  scrutinee : ∀ e, (pass.scrutinee e).Reads
  guard : ∀ on span o, (pass.guard on span o).Reads
  args : ∀ span n as, (pass.args span n as).Reads

/-- What the two walks through a statement have in common. -/
def Stmt.GoesAlike : Stmt → Walk Stmt → Walk Stmt → Prop
  | .decl _, w, w' => Walk.AddsAlike w w'
  | _, w, w' => Walk.KeepsAlike w w'

theorem Stmt.GoesAlike.addsAlike {s : Stmt} {w w' : Walk Stmt} (h : s.GoesAlike w w') :
    Walk.AddsAlike w w' := by
  cases s with
  | decl d => exact h
  | _ => exact Walk.KeepsAlike.addsAlike h

/-- The scope after a statement that succeeds: a declaration binds its variable in the innermost
frame unless the name is in scope already. -/
def Stmt.declareIn (scope : Scope) : Stmt → Scope
  | .decl d =>
      if scope.contains d.name then scope
      else { scope with inner := (d.name, d.ty) :: scope.inner }
  | _ => scope

/-- The walk through the statement leaves the scope as it was, except that a declaration which
succeeds binds its variable. -/
structure Stmt.RestoresScope (s : Stmt) (w : Walk Stmt) : Prop where
  failed : ∀ scope f, w.result scope = .error f → w.scopeAfter scope = scope
  succeeded : ∀ scope s', w.result scope = .ok s' → w.scopeAfter scope = s.declareIn scope

namespace StmtPass.Lawful

variable {pass : StmtPass σ}

theorem addsAlike_declared (h : pass.Lawful) (d : VarDecl) :
    Walk.AddsAlike (pass.declared d) (pass.declared d) := by
  obtain ⟨w, hw, heq⟩ := h.declared d
  rw [heq]
  refine Walk.addsAlike_bind (Walk.KeepsAlike.addsAlike hw) fun d' => ?_
  refine Walk.addsAlike_bind (Walk.addsAlike_declare _ _) fun _ => ?_
  exact (Walk.keepsAlike_pure d').addsAlike

mutual

/-- With copies of the scope a statement goes the same way as on the stack. -/
theorem goesAlike_stmt (h : pass.Lawful) :
    (s : Stmt) → s.GoesAlike (pass.stmt .stacked s) (pass.stmt .copied s)
  | .assertion _ c => Walk.keepsAlike_bind (h.condition c) fun _ => Walk.keepsAlike_pure _
  | .print _ e => Walk.keepsAlike_bind (h.printed e) fun _ => Walk.keepsAlike_pure _
  | .assign _ t e => Walk.keepsAlike_bind (h.assigned t e) fun _ => Walk.keepsAlike_pure _
  | .ret _ o => Walk.keepsAlike_bind (h.returned o) fun _ => Walk.keepsAlike_pure _
  | .jump .. => Walk.keepsAlike_pure _
  | .decl d => by
      refine Walk.addsAlike_bind (h.addsAlike_declared d) fun _ => ?_
      exact (Walk.keepsAlike_pure _).addsAlike
  | .branch _ c yes no => by
      refine Walk.keepsAlike_bind (h.condition c) fun _ => ?_
      refine Walk.keepsAlike_bind (h.addsAlike_block yes).nested fun _ => ?_
      exact Walk.keepsAlike_bind (h.addsAlike_block no).nested fun _ => Walk.keepsAlike_pure _
  | .forLoop _ d c step body => by
      refine Walk.AddsAlike.nested ?_
      refine Walk.addsAlike_bind (h.addsAlike_declared d) fun _ => ?_
      refine Walk.addsAlike_bind (Walk.KeepsAlike.addsAlike (h.condition c)) fun _ => ?_
      refine Walk.addsAlike_bind (h.goesAlike_stmt step).addsAlike fun _ => ?_
      refine Walk.addsAlike_bind (h.addsAlike_block body).nested.addsAlike fun _ => ?_
      exact (Walk.keepsAlike_pure _).addsAlike
  | .loop _ _ c body => by
      refine Walk.keepsAlike_bind (h.condition c) fun _ => ?_
      exact Walk.keepsAlike_bind (h.addsAlike_block body).nested fun _ => Walk.keepsAlike_pure _
  | .switch _ e cs => by
      refine Walk.keepsAlike_bind (h.scrutinee e) fun _ => ?_
      exact Walk.keepsAlike_bind (h.keepsAlike_cases _ cs) fun _ => Walk.keepsAlike_pure _
  | .call span n as => Walk.keepsAlike_bind (h.args span n as) fun _ => Walk.keepsAlike_pure _

theorem addsAlike_block (h : pass.Lawful) :
    (ss : List Stmt) → Walk.AddsAlike (pass.block .stacked ss) (pass.block .copied ss)
  | [] => (Walk.keepsAlike_pure _).addsAlike
  | s :: ss => by
      refine Walk.addsAlike_bind (h.goesAlike_stmt s).addsAlike fun _ => ?_
      refine Walk.addsAlike_bind (h.addsAlike_block ss) fun _ => ?_
      exact (Walk.keepsAlike_pure _).addsAlike

theorem keepsAlike_cases (h : pass.Lawful) (on : σ) :
    (cs : List Case) → Walk.KeepsAlike (pass.cases .stacked on cs) (pass.cases .copied on cs)
  | [] => Walk.keepsAlike_pure _
  | .mk span g body :: cs => by
      refine Walk.keepsAlike_bind (h.guard on span g) fun _ => ?_
      refine Walk.keepsAlike_bind (h.addsAlike_block body).nested fun _ => ?_
      exact Walk.keepsAlike_bind (h.keepsAlike_cases on cs) fun _ => Walk.keepsAlike_pure _

end

/-- On the stack a block does the same as on copies of the scope. -/
theorem block_stacked_eq (h : pass.Lawful) (ss : List Stmt) :
    pass.block .stacked ss = pass.block .copied ss :=
  (h.addsAlike_block ss).eq

/-- A declaration leaves the scope alone when it fails, and otherwise binds its variable. -/
theorem restoresScope_decl (h : pass.Lawful) (d : VarDecl) :
    (Stmt.decl d).RestoresScope (pass.stmt .stacked (.decl d)) := by
  obtain ⟨w, hw, heq⟩ := h.declared d
  have hkeeps := Walk.KeepsAlike.keepsScope hw
  have hstmt : pass.stmt .stacked (.decl d) = do
      let d' ← w
      Walk.declare d.name d.ty
      return .decl d' := by
    simp [stmt, heq]
  rw [hstmt]
  constructor
  · intro scope f hfails
    cases hresult : w.result scope with
    | error e => rw [Walk.scopeAfter_bind, hresult, hkeeps scope]
    | ok d' =>
        rw [Walk.result_bind, hresult] at hfails
        cases hfails
  · intro scope s' hpasses
    cases hresult : w.result scope with
    | error e =>
        rw [Walk.result_bind, hresult] at hpasses
        cases hpasses
    | ok d' =>
        rw [Walk.scopeAfter_bind, hresult, hkeeps scope]
        exact scope.declare_eq d.name d.ty

theorem restoresScope (h : pass.Lawful) (s : Stmt) : s.RestoresScope (pass.stmt .stacked s) := by
  have halike := h.goesAlike_stmt s
  cases s with
  | decl d => exact h.restoresScope_decl d
  | _ =>
      have hkeeps := Walk.KeepsAlike.keepsScope halike
      exact ⟨fun scope _ _ => hkeeps scope, fun scope _ _ => hkeeps scope⟩

end StmtPass.Lawful

end WhileStatics
