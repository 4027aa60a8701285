import WhileStatics.Proofs.NestedBlocks
import WhileStatics.Proofs.Sites

/-!
# Passes on erased statements

What stands in the type slots of a program before a pass has no influence on it.
Run on erased statements, a pass goes the way it goes on the statements
themselves: it succeeds with the same result, up to the slots that it copies, or
fails with a fault of the same kind at the same span of the same file. Expansion copies slots and
inference overwrites all of them.

## Implementation notes

Some faults hold an expression for their message, slots included. Outcomes are
therefore compared by the kind of a fault and not by the fault itself.
-/

namespace WhileStatics

variable {α β γ δ σ : Type}

/-! ### Outcomes -/

/-- The computations succeed, the second one with what `f` makes of the value of the first, or both
fail with faults of one kind at one span of one file. -/
inductive SameOutcome (f : α → β) : Except Failure α → Except Failure β → Prop
  | ok (a : α) : SameOutcome f (.ok a) (.ok (f a))
  | error {e e' : Failure} (hkind : e.fault.kind = e'.fault.kind) (hspan : e.span = e'.span)
      (hpath : e.path? = e'.path?) : SameOutcome f (.error e) (.error e')

namespace SameOutcome

variable {f : α → β} {g : γ → δ} {x : Except Failure α} {x' : Except Failure β}

theorem of_eq {f : α → α} (hf : ∀ a, f a = a) {x x' : Except Failure α} (h : x' = x) :
    SameOutcome f x x' := by
  subst h
  cases x' with
  | ok a =>
      have ha : SameOutcome f (.ok a) (.ok (f a)) := .ok a
      rwa [hf a] at ha
  | error e => exact .error rfl rfl rfl

theorem bind {k : α → Except Failure γ} {k' : β → Except Failure δ} (hx : SameOutcome f x x')
    (hk : ∀ a, SameOutcome g (k a) (k' (f a))) : SameOutcome g (x.bind k) (x'.bind k') := by
  cases hx with
  | ok a => exact hk a
  | error hkind hspan hpath => exact .error hkind hspan hpath

/-- Two computations that have the same outcome as a third one. -/
theorem cases_of_common {y : Except Failure γ} {k : γ → β} (hx : SameOutcome f x x')
    (hy : SameOutcome k y x') :
    (∃ a c, x = .ok a ∧ y = .ok c ∧ f a = k c) ∨
      ∃ e e', x = .error e ∧ y = .error e' ∧
        e.fault.kind = e'.fault.kind ∧ e.span = e'.span ∧ e.path? = e'.path? := by
  cases hx with
  | ok a =>
      generalize hb : f a = b at hy
      cases hy with
      | ok c => exact .inl ⟨a, c, rfl, rfl, hb⟩
  | error hkind hspan hpath =>
      cases hy with
      | error hkind' hspan' hpath' =>
          exact .inr ⟨_, _, rfl, rfl, hkind.trans hkind'.symm, hspan.trans hspan'.symm,
            hpath.trans hpath'.symm⟩

end SameOutcome

/-- A pass over a list has the same outcome when it has on every item. -/
theorem Logged.sameOutcome_mapM {f : α → β} {g : γ → δ} {k : α → Logged γ} {k' : β → Logged δ}
    (h : ∀ a, SameOutcome g (k a).result (k' (f a)).result) (as : List α) :
    SameOutcome (List.map g) (as.mapM k).result ((as.map f).mapM k').result := by
  induction as with
  | nil => exact .ok []
  | cons a as ih =>
      simp only [List.map_cons, List.mapM_cons, Logged.result_bind]
      exact (h a).bind fun c => ih.bind fun cs => .ok (c :: cs)

namespace Walk

variable {f : α → β} {g : γ → δ} {w : Walk α} {w' : Walk β}

/-- From every scope the walks have the same outcome and leave the same scope. -/
def SameOutcomes (f : α → β) (w : Walk α) (w' : Walk β) : Prop :=
  ∀ scope, SameOutcome f (w.result scope) (w'.result scope) ∧
    w.scopeAfter scope = w'.scopeAfter scope

namespace SameOutcomes

theorem pure (f : α → β) (a : α) : SameOutcomes f (Pure.pure a) (Pure.pure (f a)) :=
  fun _ => ⟨.ok a, rfl⟩

theorem read {k : Scope → Logged α} {k' : Scope → Logged β}
    (h : ∀ scope, SameOutcome f (k scope).result (k' scope).result) :
    SameOutcomes f (Walk.read k) (Walk.read k') :=
  fun scope => ⟨h scope, rfl⟩

theorem ask {k : Scope → Except Failure α} {k' : Scope → Except Failure β}
    (h : ∀ scope, SameOutcome f (k scope) (k' scope)) :
    SameOutcomes f (Walk.ask k) (Walk.ask k') :=
  fun scope => ⟨h scope, rfl⟩

theorem fail {fault fault' : Fault} (hkind : fault.kind = fault'.kind) (span : Span)
    (path : String) : SameOutcomes f (Walk.fail fault span path) (Walk.fail fault' span path) :=
  fun _ => ⟨.error hkind rfl rfl, rfl⟩

theorem declare (name : String) (ty : Ty) :
    SameOutcomes id (Walk.declare name ty) (Walk.declare name ty) :=
  fun _ => ⟨.ok (), rfl⟩

theorem bind {k : α → Walk γ} {k' : β → Walk δ} (hw : SameOutcomes f w w')
    (hk : ∀ a, SameOutcomes g (k a) (k' (f a))) : SameOutcomes g (w >>= k) (w' >>= k') := by
  intro scope
  obtain ⟨hresult, hscope⟩ := hw scope
  rw [Walk.result_bind, Walk.result_bind, Walk.scopeAfter_bind, Walk.scopeAfter_bind, ← hscope]
  refine ⟨hresult.bind fun a => (hk a _).1, ?_⟩
  generalize w.result scope = x, w'.result scope = x' at hresult
  cases hresult with
  | ok a => exact (hk a _).2
  | error _ _ _ => rfl

theorem inBlock (hw : SameOutcomes f w w') : SameOutcomes f w.inBlock w'.inBlock := by
  intro scope
  obtain ⟨hresult, hscope⟩ := hw scope.push
  exact ⟨hresult, congrArg Scope.pop hscope⟩

end SameOutcomes

end Walk

/-! ### Statements -/

/-- On erased parts of statements the second pass goes the way the first one goes on the parts
themselves, and what it yields is what `f` makes of the expressions that the first one yields. -/
structure StmtPass.ErasesTo (pass pass' : StmtPass σ) (f : Expr → Expr) : Prop where
  condition : ∀ e, Walk.SameOutcomes f (pass.condition e) (pass'.condition e.erase)
  printed : ∀ e, Walk.SameOutcomes f (pass.printed e) (pass'.printed e.erase)
  assigned : ∀ t e, Walk.SameOutcomes (Prod.map f f) (pass.assigned t e)
    (pass'.assigned t.erase e.erase)
  returned : ∀ o, Walk.SameOutcomes (Option.map f) (pass.returned o)
    (pass'.returned (o.map Expr.erase))
  declared : ∀ d, Walk.SameOutcomes (VarDecl.mapExprs f) (pass.declared d)
    (pass'.declared (d.mapExprs Expr.erase))
  scrutinee : ∀ e, Walk.SameOutcomes (Prod.map f id) (pass.scrutinee e)
    (pass'.scrutinee e.erase)
  guard : ∀ on span o, Walk.SameOutcomes (Option.map f) (pass.guard on span o)
    (pass'.guard on span (o.map Expr.erase))
  args : ∀ span n as, Walk.SameOutcomes (List.map f) (pass.args span n as)
    (pass'.args span n (as.map Expr.erase))

namespace StmtPass.ErasesTo

variable {pass pass' : StmtPass σ} {f : Expr → Expr}

mutual

theorem stmt (h : pass.ErasesTo pass' f) : (s : Stmt) →
    Walk.SameOutcomes (Stmt.mapExprs f) (pass.stmt .stacked s)
      (pass'.stmt .stacked (s.mapExprs Expr.erase))
  | .assertion _ c => (h.condition c).bind fun _ => .pure _ _
  | .print _ e => (h.printed e).bind fun _ => .pure _ _
  | .assign _ t e => (h.assigned t e).bind fun _ => .pure _ _
  | .ret _ o => (h.returned o).bind fun _ => .pure _ _
  | .jump .. => .pure _ _
  | .decl d => (h.declared d).bind fun _ => .pure _ _
  | .branch _ c yes no => by
      refine (h.condition c).bind fun _ => ?_
      refine (h.block yes).inBlock.bind fun _ => ?_
      exact (h.block no).inBlock.bind fun _ => .pure _ _
  | .forLoop _ d c step body => by
      apply Walk.SameOutcomes.inBlock
      refine (h.declared d).bind fun _ => ?_
      refine (h.condition c).bind fun _ => ?_
      refine (h.stmt step).bind fun _ => ?_
      exact (h.block body).inBlock.bind fun _ => .pure _ _
  | .loop _ _ c body => by
      refine (h.condition c).bind fun _ => ?_
      exact (h.block body).inBlock.bind fun _ => .pure _ _
  | .switch _ e cs => by
      refine (h.scrutinee e).bind fun on => ?_
      exact (h.cases on.2 cs).bind fun _ => .pure _ _
  | .call span n as => (h.args span n as).bind fun _ => .pure _ _

theorem block (h : pass.ErasesTo pass' f) : (ss : List Stmt) →
    Walk.SameOutcomes (Stmt.mapExprsBlock f) (pass.block .stacked ss)
      (pass'.block .stacked (Stmt.eraseBlock ss))
  | [] => .pure _ []
  | s :: ss => by
      refine (h.stmt s).bind fun s' => ?_
      exact (h.block ss).bind fun ss' => .pure _ (s' :: ss')

theorem cases (h : pass.ErasesTo pass' f) (on : σ) : (cs : List Case) →
    Walk.SameOutcomes (Stmt.mapExprsCases f) (pass.cases .stacked on cs)
      (pass'.cases .stacked on (Stmt.mapExprsCases Expr.erase cs))
  | [] => .pure _ []
  | .mk span g body :: cs => by
      refine (h.guard on span g).bind fun g' => ?_
      refine (h.block body).inBlock.bind fun body' => ?_
      exact (h.cases on cs).bind fun cs' => .pure _ (Case.mk span g' body' :: cs')

end

end StmtPass.ErasesTo

/-! ### Expansion -/

namespace Expr

variable {k k' : Info → String → List Expr → Logged Expr}

mutual

/-- Replacing calls on erased expressions goes the same way when replacing a single call does. -/
theorem sameOutcome_mapCalls
    (h : ∀ i n as, SameOutcome erase (k i n as).result (k' i.erase n (as.map erase)).result) :
    (e : Expr) → SameOutcome erase (e.mapCalls k).result (e.erase.mapCalls k').result
  | .binary i op l r => by
      simp only [erase, mapCalls, Logged.result_bind]
      refine (sameOutcome_mapCalls h l).bind fun l' => ?_
      exact (sameOutcome_mapCalls h r).bind fun r' => .ok (Expr.binary i op l' r')
  | .unary i op x => by
      simp only [erase, mapCalls, Logged.result_bind]
      exact (sameOutcome_mapCalls h x).bind fun x' => .ok (Expr.unary i op x')
  | .const i v => .ok (Expr.const i v)
  | .var i n => .ok (Expr.var i n)
  | .index i s p => by
      simp only [erase, mapCalls, Logged.result_bind]
      refine (sameOutcome_mapCalls h s).bind fun s' => ?_
      exact (sameOutcome_mapCalls h p).bind fun p' => .ok (Expr.index i s' p')
  | .call i n as => by
      simp only [erase, mapCalls, Logged.result_bind]
      exact (sameOutcome_mapCallsList h as).bind fun as' => h i n as'
  | .generate i v c => by
      simp only [erase, mapCalls, Logged.result_bind]
      refine (sameOutcome_mapCalls h v).bind fun v' => ?_
      exact (sameOutcome_mapCalls h c).bind fun c' => .ok (Expr.generate i v' c')
  | .array i es => by
      simp only [erase, mapCalls, Logged.result_bind]
      refine (sameOutcome_mapCallsList h es).bind fun es' => ?_
      rw [← eraseList_eq_map]
      exact .ok (Expr.array i es')
  | .access i s f => by
      simp only [erase, mapCalls, Logged.result_bind]
      exact (sameOutcome_mapCalls h s).bind fun s' => .ok (Expr.access i s' f)
  | .record i fs => by
      simp only [erase, mapCalls, Logged.result_bind]
      exact (sameOutcome_mapCallsFields h fs).bind fun fs' => .ok (Expr.record i fs')

theorem sameOutcome_mapCallsList
    (h : ∀ i n as, SameOutcome erase (k i n as).result (k' i.erase n (as.map erase)).result) :
    (es : List Expr) → SameOutcome (List.map erase) (mapCallsList k es).result
      (mapCallsList k' (eraseList es)).result
  | [] => .ok []
  | e :: es => by
      simp only [eraseList, mapCallsList, Logged.result_bind]
      refine (sameOutcome_mapCalls h e).bind fun e' => ?_
      exact (sameOutcome_mapCallsList h es).bind fun es' => .ok (e' :: es')

theorem sameOutcome_mapCallsFields
    (h : ∀ i n as, SameOutcome erase (k i n as).result (k' i.erase n (as.map erase)).result) :
    (fs : List (String × Expr)) →
      SameOutcome eraseFields (mapCallsFields k fs).result
        (mapCallsFields k' (eraseFields fs)).result
  | [] => .ok []
  | (n, e) :: fs => by
      simp only [eraseFields, mapCallsFields, Logged.result_bind]
      refine (sameOutcome_mapCalls h e).bind fun e' => ?_
      exact (sameOutcome_mapCallsFields h fs).bind fun fs' => .ok ((n, e') :: fs')

end

theorem sameOutcome_call (i : Info) (n : String) (as : List Expr) :
    SameOutcome erase (.ok (.call i n as)) (.ok (.call i.erase n (as.map erase))) := by
  rw [← eraseList_eq_map]
  exact .ok (Expr.call i n as)

theorem span_erase (e : Expr) : e.erase.span = e.span := by
  cases e <;> rfl

end Expr

/-- Empties the type slots in the body of a macro. -/
def MacroDecl.erase (d : MacroDecl) : MacroDecl := { d with body := d.body.erase }

/-- Empties the type slots in bound arguments. -/
def Bindings.erase (bindings : Bindings) : Bindings := bindings.map (Prod.map id Expr.erase)

namespace Bindings

theorem ofArgs_erase (params : List Ident) (args : List Expr) :
    ofArgs params (args.map Expr.erase) = (ofArgs params args).erase := by
  rw [ofArgs, ofArgs, erase, List.map_reverse, List.zip_map_right]

theorem lookup_erase (bindings : Bindings) (n : String) :
    bindings.erase.lookup n = (bindings.lookup n).map Expr.erase := by
  induction bindings with
  | nil => rfl
  | cons b bindings ih =>
      obtain ⟨m, a⟩ := b
      simp only [erase, List.map_cons, Prod.map_apply, id_eq, List.lookup_cons] at ih ⊢
      cases n == m with
      | true => rfl
      | false => exact ih

theorem subst_erase (bindings : Bindings) (e : Expr) :
    bindings.erase.subst e.erase = (bindings.subst e).erase := by
  cases e with
  | var i n =>
      simp only [Expr.erase, subst, lookup_erase]
      cases bindings.lookup n <;> rfl
  | _ => rfl

theorem sameOutcome_apply (bindings : Bindings) (scope : Scope) (callee : String) (call : Span)
    (e : Expr) :
    SameOutcome Expr.erase (bindings.apply scope callee call e).result
      (bindings.erase.apply scope callee call e.erase).result := by
  rw [result_apply, result_apply, subst_erase]
  exact .ok _

end Bindings

namespace Expansion

variable {x x' : Expansion} {scope : Scope}

theorem sameOutcome_instantiate {expandBody expandBody' : Expr → Logged Expr}
    (h : ∀ e, SameOutcome Expr.erase (expandBody e).result (expandBody' e.erase).result)
    (n : String) (bindings : Bindings) (i : Info) (as : List Expr) (body : Expr) :
    SameOutcome Expr.erase (instantiate expandBody scope n bindings i as body).result
      (instantiate expandBody' scope n bindings.erase i.erase (as.map Expr.erase)
        body.erase).result := by
  cases body with
  | binary j op l r =>
      simp only [Expr.erase, instantiate, Logged.result_bind]
      refine (bindings.sameOutcome_apply scope n i.span l).bind fun l' => ?_
      refine (bindings.sameOutcome_apply scope n i.span r).bind fun r' => ?_
      exact .ok (Expr.binary i op l' r')
  | unary j op y =>
      simp only [Expr.erase, instantiate, Logged.result_bind]
      refine (bindings.sameOutcome_apply scope n i.span y).bind fun y' => ?_
      exact (h y').bind fun y'' => .ok (Expr.unary i op y'')
  | const j v => exact .ok (Expr.const i v)
  | _ => exact Expr.sameOutcome_call i n as

/-- The second expansion has the file of the first one, its macros erased, and its options. -/
structure ErasesTo (x x' : Expansion) : Prop where
  path : x'.path = x.path
  macros : ∀ n, x'.macros.get? n = (x.macros.get? n).map MacroDecl.erase
  options : x'.options = x.options

namespace ErasesTo

theorem replaceCall (h : x.ErasesTo x') {expandBody expandBody' : Expr → Logged Expr}
    (hbody : ∀ e, SameOutcome Expr.erase (expandBody e).result (expandBody' e.erase).result)
    (depth : Nat) (d : MacroDecl) (i : Info) (n : String) (as : List Expr) :
    SameOutcome Expr.erase (x.replaceCall expandBody scope depth d i n as).result
      (x'.replaceCall expandBody' scope depth d.erase i.erase n (as.map Expr.erase)).result := by
  simp only [Expansion.replaceCall, h.path, h.options, MacroDecl.erase, List.length_map]
  split
  · exact .error rfl rfl rfl
  · simp only [Logged.result_bind, Bindings.ofArgs_erase]
    refine (hbody d.body).bind fun body => ?_
    exact sameOutcome_instantiate hbody n (.ofArgs d.params as) i as body

theorem exprWithin (h : x.ErasesTo x') (b : Nat) (e : Expr) :
    SameOutcome Expr.erase (x.exprWithin scope b e).result
      (x'.exprWithin scope b e.erase).result := by
  induction b generalizing e with
  | zero =>
      apply Expr.sameOutcome_mapCalls
      intro i n as
      rw [h.macros n, h.path]
      cases x.macros.get? n with
      | none => exact Expr.sameOutcome_call i n as
      | some d => exact .error rfl rfl rfl
  | succ b ih =>
      apply Expr.sameOutcome_mapCalls
      intro i n as
      rw [h.macros n, h.options]
      cases x.macros.get? n with
      | none => exact Expr.sameOutcome_call i n as
      | some d => exact h.replaceCall ih _ d i n as

theorem walkExpr (h : x.ErasesTo x') (e : Expr) :
    Walk.SameOutcomes Expr.erase (x.walkExpr e) (x'.walkExpr e.erase) := by
  apply Walk.SameOutcomes.read
  intro scope
  rw [expr, expr, exprAt, exprAt, h.options]
  exact h.exprWithin _ e

theorem walkOption (h : x.ErasesTo x') (o : Option Expr) :
    Walk.SameOutcomes (Option.map Expr.erase) (x.walkOption o)
      (x'.walkOption (o.map Expr.erase)) := by
  cases o with
  | none => exact .pure _ none
  | some e => exact (h.walkExpr e).bind fun e' => .pure _ (some e')

theorem walkList (h : x.ErasesTo x') (es : List Expr) :
    Walk.SameOutcomes (List.map Expr.erase) (x.walkList es) (x'.walkList (es.map Expr.erase)) := by
  induction es with
  | nil => exact .pure _ []
  | cons e es ih =>
      refine (h.walkExpr e).bind fun e' => ?_
      exact ih.bind fun es' => .pure _ (e' :: es')

theorem target (h : x.ErasesTo x') (e : Expr) :
    Walk.SameOutcomes Expr.erase (x.target e) (x'.target e.erase) := by
  refine (h.walkExpr e).bind fun e' => ?_
  rw [Expr.isLvalue_erase, Expr.span_erase, h.path]
  split
  · exact .pure _ e'
  · apply Walk.SameOutcomes.fail
    rfl

theorem guard (h : x.ErasesTo x') (span : Span) (o : Option Expr) :
    Walk.SameOutcomes (Option.map Expr.erase) (x.guard span o)
      (x'.guard span (o.map Expr.erase)) := by
  cases o with
  | none => exact .pure _ none
  | some e =>
      refine (h.walkExpr e).bind fun e' => ?_
      rw [Expr.isConst_erase, h.path]
      split
      · exact .pure _ (some e')
      · apply Walk.SameOutcomes.fail
        rfl

theorem pass (h : x.ErasesTo x') : x.pass.ErasesTo x'.pass Expr.erase where
  condition := h.walkExpr
  printed := h.walkExpr
  assigned t e := by
    refine (h.target t).bind fun t' => ?_
    exact (h.walkExpr e).bind fun e' => .pure _ (t', e')
  returned := h.walkOption
  declared d := by
    refine (h.walkOption d.init).bind fun init => ?_
    refine (Walk.SameOutcomes.declare d.name d.ty).bind fun _ => ?_
    exact .pure _ { d with init }
  scrutinee e := (h.walkExpr e).bind fun e' => .pure _ (e', ())
  guard _ := h.guard
  args _ _ := h.walkList

end ErasesTo

end Expansion

/-! ### Checking -/

namespace Declarations

variable (ds : Declarations) (scope : Scope)

mutual

/-- Inference ignores what the slots hold. -/
theorem infer_erase : (e : Expr) → ds.infer scope e.erase = ds.infer scope e
  | .binary _ _ l r => by
      rw [Expr.erase, infer, infer, infer_erase l, infer_erase r]
      rfl
  | .unary _ _ x => by
      rw [Expr.erase, infer, infer, infer_erase x]
      rfl
  | .const .. => rfl
  | .var .. => rfl
  | .index _ s p => by
      rw [Expr.erase, infer, infer, infer_erase s, infer_erase p]
      rfl
  | .call _ n as => by
      rw [Expr.erase, infer, infer, Expr.eraseList_eq_map, List.length_map,
        ← Expr.eraseList_eq_map]
      simp only [inferArgs_erase]
      rfl
  | .generate _ v c => by
      rw [Expr.erase, infer, infer, infer_erase v, infer_erase c]
      rfl
  | .array _ es => by
      rw [Expr.erase, infer, infer, inferList_erase es]
      rfl
  | .access _ s _ => by
      rw [Expr.erase, infer, infer, infer_erase s]
      rfl
  | .record _ fs => by
      rw [Expr.erase, infer, infer, inferFields_erase fs]
      rfl

theorem inferArgs_erase : (ps : List Param) → (as : List Expr) →
    ds.inferArgs scope ps (Expr.eraseList as) = ds.inferArgs scope ps as
  | [], _ => by simp [inferArgs]
  | _ :: _, [] => rfl
  | _ :: ps, a :: as => by
      rw [Expr.eraseList, inferArgs, inferArgs, infer_erase a, inferArgs_erase ps as]

theorem inferList_erase :
    (es : List Expr) → ds.inferList scope (Expr.eraseList es) = ds.inferList scope es
  | [] => rfl
  | e :: es => by rw [Expr.eraseList, inferList, inferList, infer_erase e, inferList_erase es]

theorem inferFields_erase : (fs : List (String × Expr)) →
    ds.inferFields scope (Expr.eraseFields fs) = ds.inferFields scope fs
  | [] => rfl
  | (_, e) :: fs => by
      rw [Expr.eraseFields, inferFields, inferFields, infer_erase e, inferFields_erase fs]

end

omit scope in
theorem sameOutcomes_infer (e : Expr) :
    Walk.SameOutcomes id (Walk.ask fun scope => ds.infer scope e)
      (Walk.ask fun scope => ds.infer scope e.erase) :=
  .ask fun scope => .of_eq (by simp) (ds.infer_erase scope e)

theorem inferBelow_erase (sup : Ty) (e : Expr) :
    ds.inferBelow scope sup e.erase = ds.inferBelow scope sup e := by
  rw [inferBelow, inferBelow, infer_erase]

theorem inferOptionBelow_erase (sup : Ty) (o : Option Expr) :
    ds.inferOptionBelow scope sup (o.map Expr.erase) = ds.inferOptionBelow scope sup o := by
  cases o with
  | none => rfl
  | some e => rw [Option.map_some, inferOptionBelow, inferOptionBelow, inferBelow_erase]

theorem sameOutcome_checkAssign (t e : Expr) :
    SameOutcome (Prod.map id id) (ds.checkAssign scope t e)
      (ds.checkAssign scope t.erase e.erase) := by
  rw [checkAssign, checkAssign, Expr.isLvalue_erase, Expr.span_erase]
  split
  · exact .of_eq (by simp) (by simp only [infer_erase, inferBelow_erase])
  · exact .error rfl rfl rfl

theorem inferCall_erase (span : Span) (n : String) (as : List Expr) :
    ds.inferCall scope span n (as.map Expr.erase) = ds.inferCall scope span n as := by
  rw [inferCall, inferCall, List.length_map, ← Expr.eraseList_eq_map]
  simp only [inferArgs_erase]

/-- Checking erased statements yields the same annotations. -/
theorem erasesTo_pass (ret : Ty) : (ds.pass ret).ErasesTo (ds.pass ret) id where
  condition e := by
    refine .ask fun scope => .of_eq (by simp) ?_
    rw [inferCondition, inferCondition, infer_erase]
  printed e := (ds.sameOutcomes_infer e).bind fun e' => .pure _ e'.expr
  assigned t e := .ask fun scope => ds.sameOutcome_checkAssign scope t e
  returned o := .ask fun scope => .of_eq (by simp) (ds.inferOptionBelow_erase scope ret o)
  declared d := by
    refine Walk.SameOutcomes.bind (f := Option.map id) (.ask fun scope => .of_eq (by simp) ?_)
      fun init => ?_
    · simp only [VarDecl.mapExprs, inferOptionBelow_erase]
    · refine (Walk.SameOutcomes.declare d.name d.ty).bind fun _ => ?_
      exact .pure _ { d with init }
  scrutinee e := (ds.sameOutcomes_infer e).bind fun e' => .pure _ (e'.expr, e'.ty)
  guard on _ o := .ask fun scope => .of_eq (by simp) (ds.inferOptionBelow_erase scope on o)
  args span n as := .ask fun scope => .of_eq (by simp) (ds.inferCall_erase scope span n as)

end Declarations

end WhileStatics
