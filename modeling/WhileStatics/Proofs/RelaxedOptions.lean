import WhileStatics.Proofs.ExpandedPrograms

/-!
# Relaxed options of expansion

Options are relaxed by a higher limit for nested instantiations and by leaving
argument counts unchecked. Expansion with relaxed options goes step by step like
the expansion before, up to the first failure that the relaxation lifts. So
whatever did not fail for one of the lifted reasons ends in the same way, and the
same events are told.
-/

namespace WhileStatics

variable {α β : Type} {P : Failure → Prop}

/-! ### Computations that agree up to some failures -/

namespace Logged

/-- The computations are the same, unless the first one fails with something of the property. -/
def AgreesUnless (P : Failure → Prop) (x x' : Logged α) : Prop :=
  x' = x ∨ ∃ f, x.result = .error f ∧ P f

namespace AgreesUnless

variable {x x' : Logged α} {k k' : α → Logged β}

theorem refl (x : Logged α) : AgreesUnless P x x := .inl rfl

theorem fail {fault : Fault} {span : Span} {path : String} (h : P ⟨fault, span, path⟩)
    (x' : Logged α) : AgreesUnless P (Logged.fail fault span path) x' :=
  .inr ⟨_, rfl, h⟩

theorem bind (hx : AgreesUnless P x x') (hk : ∀ a, AgreesUnless P (k a) (k' a)) :
    AgreesUnless P (x >>= k) (x' >>= k') := by
  obtain rfl | ⟨f, hf, hP⟩ := hx
  · obtain ⟨_ | a, es⟩ := x'
    · exact .inl rfl
    · obtain hka | ⟨f, hf, hP⟩ := hk a
      · change Logged.bind _ k' = Logged.bind _ k ∨ _
        exact .inl (by simp [Logged.bind, hka])
      · exact .inr ⟨f, by simpa [Except.bind] using hf, hP⟩
  · exact .inr ⟨f, by simp [hf, Except.bind], hP⟩

theorem mapM (hk : ∀ a, AgreesUnless P (k a) (k' a)) (as : List α) :
    AgreesUnless P (as.mapM k) (as.mapM k') := by
  induction as with
  | nil => exact .refl _
  | cons a as ih =>
      rw [List.mapM_cons, List.mapM_cons]
      exact (hk a).bind fun b => ih.bind fun bs => .refl _

end AgreesUnless

end Logged

namespace Walk

/-- From every scope the walks are the same, unless the first one fails with something of the
property. -/
def AgreesUnless (P : Failure → Prop) (w w' : Walk α) : Prop :=
  ∀ scope, w' scope = w scope ∨ ∃ f, w.result scope = .error f ∧ P f

namespace AgreesUnless

variable {w w' : Walk α} {k k' : α → Walk β}

theorem refl (w : Walk α) : AgreesUnless P w w := fun _ => .inl rfl

theorem read {g g' : Scope → Logged α} (h : ∀ scope, (g scope).AgreesUnless P (g' scope)) :
    AgreesUnless P (Walk.read g) (Walk.read g') := by
  intro scope
  obtain heq | hfails := h scope
  · exact .inl (by rw [Walk.read, Walk.read, heq])
  · exact .inr hfails

theorem bind (hw : AgreesUnless P w w') (hk : ∀ a, AgreesUnless P (k a) (k' a)) :
    AgreesUnless P (w >>= k) (w' >>= k') := by
  intro scope
  obtain heq | ⟨f, hf, hP⟩ := hw scope
  · change Walk.bind w' k' scope = Walk.bind w k scope ∨ _
    rcases hout : w scope with ⟨⟨f | a, es⟩, after⟩
    · exact .inl (by simp [Walk.bind, heq, hout])
    · obtain hka | ⟨f, hf, hP⟩ := hk a after
      · exact .inl (by simp [Walk.bind, heq, hout, hka])
      · refine .inr ⟨f, ?_, hP⟩
        rw [result_bind, result, scopeAfter, hout]
        exact hf
  · exact .inr ⟨f, by rw [result_bind, hf]; rfl, hP⟩

theorem inBlock (hw : AgreesUnless P w w') : AgreesUnless P w.inBlock w'.inBlock := by
  intro scope
  obtain heq | hfails := hw scope.push
  · exact .inl (by rw [Walk.inBlock, Walk.inBlock, heq])
  · exact .inr hfails

end AgreesUnless

end Walk

/-! ### Options -/

namespace ExpandOptions

/-- The second options allow for more nesting, or check less. -/
structure Relaxes (o o' : ExpandOptions) : Prop where
  limit : o.depthLimit ≤ o'.depthLimit
  arity : o'.validateArity = true → o.validateArity = true

/-- Failures that may be gone with the second options: those of nesting, and those of argument
counts where only the first options check them. -/
def Lifts (o o' : ExpandOptions) (f : Failure) : Prop :=
  f.fault.kind = .recursionLimit ∨
    f.fault.kind = .arityMismatch ∧ o.validateArity ≠ o'.validateArity

end ExpandOptions

/-! ### Calls -/

namespace Expr

variable {f f' : Info → String → List Expr → Logged Expr}

theorem agreesUnless_mapCallsList {es : List Expr}
    (h : ∀ e ∈ es, (e.mapCalls f).AgreesUnless P (e.mapCalls f')) :
    (mapCallsList f es).AgreesUnless P (mapCallsList f' es) := by
  induction es with
  | nil => exact .refl _
  | cons e es ih =>
      rw [List.forall_mem_cons] at h
      refine h.1.bind fun e' => ?_
      exact (ih h.2).bind fun es' => .refl _

theorem agreesUnless_mapCallsFields {fs : List (String × Expr)}
    (h : ∀ e ∈ fs, (e.2.mapCalls f).AgreesUnless P (e.2.mapCalls f')) :
    (mapCallsFields f fs).AgreesUnless P (mapCallsFields f' fs) := by
  induction fs with
  | nil => exact .refl _
  | cons e fs ih =>
      rw [List.forall_mem_cons] at h
      refine h.1.bind fun e' => ?_
      exact (ih h.2).bind fun fs' => .refl _

/-- What agrees on calls agrees on expressions. -/
theorem agreesUnless_mapCalls (h : ∀ i n as, (f i n as).AgreesUnless P (f' i n as)) (e : Expr) :
    (e.mapCalls f).AgreesUnless P (e.mapCalls f') := by
  induction e with
  | binary i op l r ihl ihr => exact ihl.bind fun l' => ihr.bind fun r' => .refl _
  | unary i op y ih => exact ih.bind fun y' => .refl _
  | const i v => exact .refl _
  | var i n => exact .refl _
  | index i s p ihs ihp => exact ihs.bind fun s' => ihp.bind fun p' => .refl _
  | call i n as ih => exact (agreesUnless_mapCallsList ih).bind fun as' => h i n as'
  | generate i v c ihv ihc => exact ihv.bind fun v' => ihc.bind fun c' => .refl _
  | array i es ih => exact (agreesUnless_mapCallsList ih).bind fun es' => .refl _
  | access i s n ih => exact ih.bind fun s' => .refl _
  | record i fs ih => exact (agreesUnless_mapCallsFields ih).bind fun fs' => .refl _

end Expr

namespace Expansion

variable {x x' : Expansion} {scope : Scope} {expandBody expandBody' : Expr → Logged Expr}

theorem agreesUnless_instantiate
    (h : ∀ e, (expandBody e).AgreesUnless P (expandBody' e)) (n : String) (bindings : Bindings)
    (i : Info) (as : List Expr) (body : Expr) :
    (instantiate expandBody scope n bindings i as body).AgreesUnless P
      (instantiate expandBody' scope n bindings i as body) := by
  cases body with
  | unary j op y =>
      rw [instantiate, instantiate]
      exact Logged.AgreesUnless.bind (.refl _) fun y' => (h y').bind fun y'' => .refl _
  | _ => exact .refl _

/-- The second expansion has the file and the macros of the first one and relaxed options. -/
structure Relaxes (x x' : Expansion) : Prop where
  path : x'.path = x.path
  macros : x'.macros = x.macros
  options : x.options.Relaxes x'.options

/-- The failures that the second expansion may be without. -/
abbrev Lifted (x x' : Expansion) : Failure → Prop := x.options.Lifts x'.options

namespace Relaxes

theorem replaceCall (h : x.Relaxes x')
    (hbody : ∀ e, (expandBody e).AgreesUnless (Lifted x x') (expandBody' e)) (depth : Nat)
    (d : MacroDecl) (i : Info) (n : String) (as : List Expr) :
    (x.replaceCall expandBody scope depth d i n as).AgreesUnless (Lifted x x')
      (x'.replaceCall expandBody' scope depth d i n as) := by
  rw [Expansion.replaceCall, Expansion.replaceCall]
  by_cases hrefused : (x.options.validateArity && d.params.length != as.length) = true
  · rw [if_pos hrefused]
    by_cases hsame : x.options.validateArity = x'.options.validateArity
    · rw [← hsame, if_pos hrefused, h.path]
      exact .refl _
    · exact .fail (.inr ⟨rfl, hsame⟩) _
  · have hrefused' : ¬ (x'.options.validateArity && d.params.length != as.length) = true := by
      rw [Bool.and_eq_true] at hrefused ⊢
      exact fun hboth => hrefused ⟨h.options.arity hboth.1, hboth.2⟩
    rw [if_neg hrefused, if_neg hrefused']
    refine Logged.AgreesUnless.bind (.refl _) fun _ => (hbody d.body).bind fun body => ?_
    exact agreesUnless_instantiate hbody n _ i as body

/-- Expressions inside the same number of instantiations expand alike. The room that is left differs
by the difference of the limits. -/
theorem exprWithin (h : x.Relaxes x') {more : Nat}
    (hmore : x'.options.depthLimit = x.options.depthLimit + more) (budget : Nat) (e : Expr) :
    (x.exprWithin scope budget e).AgreesUnless (Lifted x x')
      (x'.exprWithin scope (budget + more) e) := by
  induction budget generalizing e with
  | zero =>
      rw [exprWithin_eq, exprWithin_eq]
      refine Expr.agreesUnless_mapCalls (fun i n as => ?_) e
      cases hn : x.macros.get? n with
      | none =>
          rw [callWithin_of_get?_eq_none hn, callWithin_of_get?_eq_none (h.macros ▸ hn)]
          exact .refl _
      | some d =>
          -- Without room the first expansion fails here, whatever the second one does.
          rw [callWithin, hn]
          exact .fail (.inl rfl) _
  | succ budget ih =>
      have hdepth : x'.options.depthLimit - (budget + more + 1) =
          x.options.depthLimit - (budget + 1) := by omega
      rw [Nat.add_right_comm, exprWithin_eq, exprWithin_eq]
      refine Expr.agreesUnless_mapCalls (fun i n as => ?_) e
      rw [callWithin, callWithin, h.macros, hdepth]
      cases x.macros.get? n with
      | none => exact .refl _
      | some d => exact h.replaceCall ih _ d i n as

/-! ### Statements -/

theorem walkExpr (h : x.Relaxes x') (e : Expr) :
    (x.walkExpr e).AgreesUnless (Lifted x x') (x'.walkExpr e) := by
  obtain ⟨more, hmore⟩ := Nat.exists_eq_add_of_le h.options.limit
  refine .read fun scope => ?_
  rw [expr, expr, exprAt, exprAt, Nat.sub_zero, Nat.sub_zero, hmore]
  exact h.exprWithin hmore _ e

theorem walkOption (h : x.Relaxes x') (o : Option Expr) :
    (x.walkOption o).AgreesUnless (Lifted x x') (x'.walkOption o) := by
  cases o with
  | none => exact .refl _
  | some e => exact (h.walkExpr e).bind fun e' => .refl _

theorem walkList (h : x.Relaxes x') (es : List Expr) :
    (x.walkList es).AgreesUnless (Lifted x x') (x'.walkList es) := by
  induction es with
  | nil => exact .refl _
  | cons e es ih => exact (h.walkExpr e).bind fun e' => ih.bind fun es' => .refl _

theorem varDecl (h : x.Relaxes x') (d : VarDecl) :
    (x.varDecl d).AgreesUnless (Lifted x x') (x'.varDecl d) :=
  (h.walkOption d.init).bind fun _ => .refl _

theorem target (h : x.Relaxes x') (e : Expr) :
    (x.target e).AgreesUnless (Lifted x x') (x'.target e) := by
  refine (h.walkExpr e).bind fun e' => ?_
  rw [h.path]
  exact .refl _

theorem guard (h : x.Relaxes x') (span : Span) (o : Option Expr) :
    (x.guard span o).AgreesUnless (Lifted x x') (x'.guard span o) := by
  cases o with
  | none => exact .refl _
  | some e =>
      refine (h.walkExpr e).bind fun e' => ?_
      rw [h.path]
      exact .refl _

mutual

theorem stmt (h : x.Relaxes x') : (s : Stmt) →
    (x.stmt s).AgreesUnless (Lifted x x') (x'.stmt s)
  | .assertion _ c => (h.walkExpr c).bind fun _ => .refl _
  | .print _ e => (h.walkExpr e).bind fun _ => .refl _
  | .assign _ t e => (h.target t).bind fun _ => (h.walkExpr e).bind fun _ => .refl _
  | .ret _ o => (h.walkOption o).bind fun _ => .refl _
  | .jump .. => .refl _
  | .decl d => (h.varDecl d).bind fun _ => .refl _
  | .branch _ c yes no => by
      refine (h.walkExpr c).bind fun _ => ?_
      refine (h.block yes).inBlock.bind fun _ => ?_
      exact (h.block no).inBlock.bind fun _ => .refl _
  | .forLoop _ d c step body => by
      refine Walk.AgreesUnless.inBlock ?_
      refine (h.varDecl d).bind fun _ => ?_
      refine (h.walkExpr c).bind fun _ => ?_
      refine (h.stmt step).bind fun _ => ?_
      exact (h.block body).inBlock.bind fun _ => .refl _
  | .loop _ _ c body => (h.walkExpr c).bind fun _ => (h.block body).inBlock.bind fun _ => .refl _
  | .switch _ e cs => (h.walkExpr e).bind fun _ => (h.cases cs).bind fun _ => .refl _
  | .call _ _ as => (h.walkList as).bind fun _ => .refl _

theorem block (h : x.Relaxes x') : (ss : List Stmt) →
    (x.block ss).AgreesUnless (Lifted x x') (x'.block ss)
  | [] => .refl _
  | s :: ss => (h.stmt s).bind fun _ => (h.block ss).bind fun _ => .refl _

theorem cases (h : x.Relaxes x') : (cs : List Case) →
    (x.cases cs).AgreesUnless (Lifted x x') (x'.cases cs)
  | [] => .refl _
  | .mk span g body :: cs => by
      refine (h.guard span g).bind fun _ => ?_
      refine (h.block body).inBlock.bind fun _ => ?_
      exact (h.cases cs).bind fun _ => .refl _

end

/-! ### Programs -/

theorem method (h : x.Relaxes x') (m : Method) :
    (x.method m).AgreesUnless (Lifted x x') (x'.method m) := by
  have hbody : (x.block m.body (.ofParams m.params)).1.AgreesUnless (Lifted x x')
      (x'.block m.body (.ofParams m.params)).1 :=
    (h.block m.body _).imp_left (congrArg Prod.fst)
  exact Logged.AgreesUnless.bind (.refl _) fun _ => hbody.bind fun body => .refl _

theorem decl (h : x.Relaxes x') (d : Decl) :
    (x.decl d).AgreesUnless (Lifted x x') (x'.decl d) := by
  cases d with
  | method m => exact (h.method m).bind fun m' => .refl _
  | type t => exact .refl _
  | macroDecl m => exact .refl _

end Relaxes

end Expansion

/-- With relaxed options a program expands alike, unless it failed for a reason that is lifted. -/
theorem Program.agreesUnless_expand (p : Program) {o o' : ExpandOptions} (h : o.Relaxes o') :
    (p.expand o).AgreesUnless (o.Lifts o') (p.expand o') := by
  have hx : (p.expansion o).Relaxes (p.expansion o') := ⟨rfl, rfl, h⟩
  refine Logged.AgreesUnless.bind (.refl _) fun _ => ?_
  exact (Logged.AgreesUnless.mapM hx.decl p.decls).bind fun decls => .refl _

/-- Relaxing the options keeps every result, with the events that are told on the way. Where the
check of argument counts stays as it is, it also keeps every failure but those of nesting. -/
theorem Program.expand_of_relaxed_options (p : Program) (o o' : ExpandOptions)
    (hlimit : o.depthLimit ≤ o'.depthLimit)
    (harity : o'.validateArity = false ∨ o.validateArity = o'.validateArity) :
    (∀ q, (p.expand o).result = .ok q →
      (p.expand o').result = .ok q ∧ (p.expand o').events = (p.expand o).events) ∧
    (o.validateArity = o'.validateArity →
      ∀ f, (p.expand o).result = .error f → f.fault.kind ≠ .recursionLimit →
        (p.expand o').result = .error f ∧ (p.expand o').events = (p.expand o).events) := by
  have hrelaxes : o.Relaxes o' := by
    refine ⟨hlimit, fun hcheck => ?_⟩
    rcases harity with hoff | hsame
    · simp [hoff] at hcheck
    · exact hsame.trans hcheck
  have hagrees := p.agreesUnless_expand hrelaxes
  constructor
  · intro q hq
    obtain heq | ⟨f, hf, _⟩ := hagrees
    · rw [heq]
      exact ⟨hq, rfl⟩
    · cases hq.symm.trans hf
  · intro hsame f hf hkind
    obtain heq | ⟨f', hf', hlifted⟩ := hagrees
    · rw [heq]
      exact ⟨hf, rfl⟩
    · obtain rfl : f = f' := Except.error.inj (hf.symm.trans hf')
      rcases hlifted with hlimit | ⟨_, hdiff⟩
      · exact absurd hlimit hkind
      · exact absurd hsame hdiff

/-- A program that prints the expression, with macros of which one uses the other. -/
def Program.shifts (printed : Expr) : Program where
  path := "shifts"
  decls := [
    .macroDecl { name := "one", params := [], body := .const {} (.int 1) },
    .macroDecl { name := "shifted", params := [⟨"x", {}⟩],
                 body := .binary {} .add (.var {} "x") (.call {} "one" []) },
    .method { name := "main", ret := .void, params := [], body := [.print {} printed] }]

/-- Room for two instantiations is as good as room for forty. With less room the expansion fails,
and a call with an argument too many is refused whatever the room is. -/
theorem Program.shifts_expand_alike :
    ((shifts (.call {} "shifted" [.const {} (.int 4)])).expand ⟨2, true⟩).result =
      .ok (shifts (.binary {} .add (.const {} (.int 4)) (.const {} (.int 1)))) ∧
    ((shifts (.call {} "shifted" [.const {} (.int 4)])).expand ⟨40, false⟩).result =
      .ok (shifts (.binary {} .add (.const {} (.int 4)) (.const {} (.int 1)))) ∧
    ((shifts (.call {} "shifted" [.const {} (.int 4)])).expand ⟨1, true⟩).result =
      .error ⟨.recursionLimit "one" 1, {}, "shifts"⟩ ∧
    ((shifts (.call {} "shifted" [.var {} "a", .var {} "b"])).expand ⟨40, true⟩).result =
      .error ⟨.macroArity "shifted" 1 2, {}, "shifts"⟩ := by
  refine ⟨rfl, ?_, rfl, ?_⟩
  · have hrelaxed := expand_of_relaxed_options (shifts (.call {} "shifted" [.const {} (.int 4)]))
      ⟨2, true⟩ ⟨40, false⟩ (by decide) (.inl rfl)
    exact (hrelaxed.1 _ rfl).1
  · have hrelaxed := expand_of_relaxed_options
      (shifts (.call {} "shifted" [.var {} "a", .var {} "b"])) ⟨2, true⟩ ⟨40, true⟩ (by decide)
      (.inr rfl)
    exact (hrelaxed.2 rfl _ rfl (by decide)).1

end WhileStatics
