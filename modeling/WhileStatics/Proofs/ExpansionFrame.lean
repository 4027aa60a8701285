import WhileStatics.Proofs.MacroCalls

/-!
# What expansion leaves alone

Expansion rebuilds every statement and every expression of a method body, and
what it builds differs only where a macro was called: there something else may
stand, which carries the span and the slot of the call. A program that calls no
macro comes out as it went in. Then the only thing to complain about is the form
of an assignment target or of a guard, and the first one on the way is reported.
-/

namespace WhileStatics

variable {α β : Type}

/-! ### Expressions outside of macro calls -/

namespace Expr

/-- The root node, with nothing in the place of its parts. -/
def root : Expr → Expr
  | .binary i op _ _ => .binary i op default default
  | .unary i op _ => .unary i op default
  | .const i v => .const i v
  | .var i n => .var i n
  | .index i _ _ => .index i default default
  | .call i n _ => .call i n []
  | .generate i _ _ => .generate i default default
  | .array i _ => .array i []
  | .access i _ f => .access i default f
  | .record i fs => .record i (fs.map fun f => (f.1, default))

/-- The second expression is the first one, except that other expressions may stand in the place of
macro calls, with the span and the slot of the call. -/
inductive DiffersAtCalls (macros : Table MacroDecl) : Expr → Expr → Prop
  | call {i n as e'} (hn : macros.contains n = true) (hinfo : e'.info = i) :
      DiffersAtCalls macros (.call i n as) e'
  | node {e e'} (hroot : e'.root = e.root)
      (hparts : List.Forall₂ (DiffersAtCalls macros) e.children e'.children) :
      DiffersAtCalls macros e e'

variable {macros : Table MacroDecl} {f : Info → String → List Expr → Logged Expr} {e e' : Expr}

theorem info_root (e : Expr) : e.root.info = e.info := by
  cases e <;> rfl

theorem DiffersAtCalls.info_eq (h : e.DiffersAtCalls macros e') : e'.info = e.info := by
  cases h with
  | call _ hinfo => exact hinfo
  | node hroot _ => rw [← info_root, hroot, info_root]

/-- An expression that is no call keeps its root when the calls in it are mapped. -/
theorem root_of_mapCalls (h : (e.mapCalls f).result = .ok e') (hcallee : e.callee? = none) :
    e'.root = e.root := by
  cases e with
  | call i n as => cases hcallee
  | const i v | var i n =>
      obtain rfl := Except.ok.inj h
      rfl
  | unary i op y | access i s n =>
      simp only [mapCalls, Logged.result_bind, bind_eq_ok_iff, Logged.result_pure,
        Except.ok.injEq] at h
      obtain ⟨y', _, rfl⟩ := h
      rfl
  | binary i op l r | index i l r | generate i l r =>
      simp only [mapCalls, Logged.result_bind, bind_eq_ok_iff, Logged.result_pure,
        Except.ok.injEq] at h
      obtain ⟨l', _, r', _, rfl⟩ := h
      rfl
  | array i es =>
      simp only [mapCalls, Logged.result_bind, bind_eq_ok_iff, Logged.result_pure,
        Except.ok.injEq] at h
      obtain ⟨es', _, rfl⟩ := h
      rfl
  | record i fs =>
      simp only [mapCalls, Logged.result_bind, bind_eq_ok_iff, Logged.result_pure,
        Except.ok.injEq, mapCallsFields_eq_ok_iff] at h
      obtain ⟨fs', hfs, rfl⟩ := h
      rw [root, root, map_eq_of_forall₂ (fun _ _ hf => by rw [hf.1]) hfs]

end Expr

namespace Expansion

variable {x : Expansion} {b : Nat} {e e' : Expr}

theorem Replaces.info_eq {i : Info} {n : String} {as : List Expr} {r : Expr}
    (h : x.Replaces i n as b r) : r.info = i := by
  cases h <;> rfl

/-- Expanding an expression changes it at macro calls only. -/
theorem Expands.differsAtCalls (h : x.Expands b e e') : e.DiffersAtCalls x.macros e' := by
  induction e using Expr.children_induction generalizing e' with
  | step e ih =>
      have hparts {es' : List Expr} (hmap : List.Forall₂
          (fun c c' => (c.mapCalls (x.callWithin .empty b)).result = .ok c') e.children es') :
          List.Forall₂ (Expr.DiffersAtCalls x.macros) e.children es' :=
        forall₂_imp_of_mem hmap fun c hc c' hc' => ih c hc (expands_iff.2 hc')
      rcases Expr.mapCalls_cases (expands_iff.1 h) with
        ⟨i, n, as, as', rfl, has, hr⟩ | ⟨hcallee, _, _, hchildren⟩
      · have hreplaces := callWithin_eq_ok_iff.1 hr
        cases hn : x.macros.get? n with
        | none =>
            cases hreplaces with
            | other _ => exact .node rfl (hparts has)
            | _ hd => simp [hn] at hd
        | some d => exact .call (Table.contains_of_get? hn) hreplaces.info_eq
      · exact .node (Expr.root_of_mapCalls (expands_iff.1 h) hcallee) (hparts hchildren)

end Expansion

/-! ### Demands on targets and guards -/

/-- A place of a statement that asks for an expression of some form. -/
inductive Demand where
  /-- An assignment to `e`. -/
  | target (e : Expr)
  /-- The guard `e` of the case at `span`. -/
  | guard (span : Span) (e : Expr)

namespace Demand

/-- The expression is of the form that the place asks for. -/
def isMet : Demand → Bool
  | .target e => e.isLvalue
  | .guard _ e => e.isConst

/-- What an expanded expression of another form is reported as in the file at `path`. -/
def failure (path : String) : Demand → Failure
  | .target e => ⟨.notLvalueExpanded e, e.span, path⟩
  | .guard span e => ⟨.guardNotConst e, span, path⟩

theorem kind_failure (path : String) (d : Demand) : (d.failure path).fault.kind = .internal := by
  cases d <;> rfl

/-- The first demand that is not met. -/
def firstUnmet? (ds : List Demand) : Option Demand := ds.find? fun d => !d.isMet

/-- Yields the value where all demands are met, and reports the first one that is not. -/
def answer (path : String) (ds : List Demand) (a : α) : Except Failure α :=
  match firstUnmet? ds with
  | none => .ok a
  | some d => .error (d.failure path)

theorem firstUnmet?_eq_none_iff {ds : List Demand} :
    firstUnmet? ds = none ↔ ∀ d ∈ ds, d.isMet = true := by
  simp [firstUnmet?]

/-- Going on with the value answers the demands of both steps. -/
theorem answer_bind {path : String} {ds es : List Demand} {a : α} {b : β}
    {k : α → Except Failure β} (hk : k a = answer path es b) :
    (answer path ds a).bind k = answer path (ds ++ es) b := by
  unfold answer firstUnmet? at *
  rw [List.find?_append]
  cases ds.find? fun d => !d.isMet with
  | none => exact hk
  | some d => rfl

theorem answer_map (path : String) (ds : List Demand) (a : α) (g : α → β) :
    (answer path ds a).bind (fun a => .ok (g a)) = answer path ds (g a) := by
  unfold answer
  cases firstUnmet? ds <;> rfl

end Demand

namespace Stmt

mutual

/-- The demands in a statement, in the order in which a pass comes by. -/
def demands : Stmt → List Demand
  | .assign _ t _ => [.target t]
  | .branch _ _ yes no => blockDemands yes ++ blockDemands no
  | .forLoop _ _ _ step body => demands step ++ blockDemands body
  | .loop _ _ _ body => blockDemands body
  | .switch _ _ cs => caseDemands cs
  | _ => []

/-- The demands in the statements of a block. -/
def blockDemands : List Stmt → List Demand
  | [] => []
  | s :: ss => demands s ++ blockDemands ss

/-- The demands in cases, the guard of a case before its body. -/
def caseDemands : List Case → List Demand
  | [] => []
  | .mk span g body :: cs => g.toList.map (.guard span) ++ (blockDemands body ++ caseDemands cs)

end

end Stmt

/-- The demands in the body of a method; other declarations make none. -/
def Decl.demands : Decl → List Demand
  | .method m => Stmt.blockDemands m.body
  | _ => []

/-- The demands in the method bodies of a program. -/
def Program.demands (p : Program) : List Demand := p.decls.flatMap Decl.demands

/-! ### Walks that answer demands -/

/-- From every scope, the walk yields the value unless a demand is not met. -/
def Walk.Answers (w : Walk α) (path : String) (ds : List Demand) (a : α) : Prop :=
  ∀ scope, w.result scope = Demand.answer path ds a

namespace Walk.Answers

variable {path : String} {w : Walk α} {k : α → Walk β} {ds es : List Demand} {a : α} {b : β}

theorem pure (a : α) : Answers (Pure.pure a) path [] a := fun _ => rfl

theorem bind (hw : w.Answers path ds a) (hk : (k a).Answers path es b) :
    (w >>= k).Answers path (ds ++ es) b := by
  intro scope
  rw [result_bind, hw scope]
  exact Demand.answer_bind (hk _)

theorem map (hw : w.Answers path ds a) (g : α → β) :
    (w >>= fun a => Pure.pure (g a)).Answers path ds (g a) := by
  intro scope
  rw [result_bind, hw scope]
  exact Demand.answer_map path ds a g

theorem inBlock (hw : w.Answers path ds a) : w.inBlock.Answers path ds a :=
  fun scope => hw scope.push

end Walk.Answers

/-- A pass over a list answers the demands of its items from left to right. -/
theorem Logged.result_mapM_answer {path : String} {f : α → Logged α} {ds : α → List Demand}
    {as : List α} (h : ∀ a ∈ as, (f a).result = Demand.answer path (ds a) a) :
    (as.mapM f).result = Demand.answer path (as.flatMap ds) as := by
  induction as with
  | nil => rfl
  | cons a as ih =>
      rw [List.forall_mem_cons] at h
      rw [List.mapM_cons, Logged.result_bind, h.1, List.flatMap_cons]
      refine Demand.answer_bind ?_
      rw [Logged.result_bind, ih h.2]
      exact Demand.answer_map _ _ _ _

namespace Expansion

variable {x : Expansion} {e : Expr}

/-- Expanding the expression in a statement gives it back. -/
def Leaves (x : Expansion) (e : Expr) : Prop := x.Expands x.options.depthLimit e e

theorem leaves_of_no_macro_calls (h : ∀ n, e.Calls n → x.macros.get? n = none) : x.Leaves e :=
  (isNormal_of_no_macro_calls h).expands

theorem answers_walkExpr (h : x.Leaves e) : (x.walkExpr e).Answers x.path [] e :=
  fun _ => (walkExpr_eq_ok_iff []).2 ⟨h, trivial⟩

theorem answers_walkOption {o : Option Expr} (h : ∀ e ∈ o, x.Leaves e) :
    (x.walkOption o).Answers x.path [] o := by
  cases o with
  | none => exact .pure none
  | some e => exact (answers_walkExpr (h e rfl)).map some

theorem answers_walkList {es : List Expr} (h : ∀ e ∈ es, x.Leaves e) :
    (x.walkList es).Answers x.path [] es := by
  induction es with
  | nil => exact .pure []
  | cons e es ih =>
      rw [List.forall_mem_cons] at h
      exact (answers_walkExpr h.1).bind ((ih h.2).map _)

theorem answers_varDecl {d : VarDecl} (h : ∀ e ∈ d.init, x.Leaves e) :
    (x.varDecl d).Answers x.path [] d :=
  (answers_walkOption h).bind (Walk.Answers.map (a := ()) (fun _ => rfl) fun _ => d)

theorem answers_target (h : x.Leaves e) : (x.target e).Answers x.path [.target e] e := by
  refine (answers_walkExpr h).bind fun scope => ?_
  by_cases hlvalue : e.isLvalue = true <;>
    simp [Demand.answer, Demand.firstUnmet?, Demand.isMet, Demand.failure, hlvalue]

theorem answers_guard {span : Span} {o : Option Expr} (h : ∀ e ∈ o, x.Leaves e) :
    (x.guard span o).Answers x.path (o.toList.map (.guard span)) o := by
  cases o with
  | none => exact .pure none
  | some e =>
      refine (answers_walkExpr (h e rfl)).bind fun scope => ?_
      by_cases hconst : e.isConst = true <;>
        simp [Demand.answer, Demand.firstUnmet?, Demand.isMet, Demand.failure, hconst]

-- Steps without demands leave no trace in the lists: `[] ++ ds` computes to `ds`, so the demands of
-- a statement are those of its steps as they stand.
mutual

/-- A statement whose expressions stay as they are stays as it is, if it meets its demands. -/
theorem answers_stmt {Γ : Context} : (s : Stmt) → (∀ site ∈ s.sites Γ, x.Leaves site.2) →
    (x.stmt s).Answers x.path s.demands s
  | .assertion .., h | .print .., h => (answers_walkExpr (h _ (.head _))).map _
  | .assign .., h =>
      (answers_target (h _ (.head _))).bind ((answers_walkExpr (h _ (.tail _ (.head _)))).map _)
  | .ret _ e, h => by
      simp only [Stmt.sites, List.forall_mem_map, Option.mem_toList] at h
      exact (answers_walkOption h).map _
  | .jump .., _ => .pure _
  | .decl d, h => by
      simp only [Stmt.sites, List.forall_mem_map, Option.mem_toList] at h
      exact (answers_varDecl h).map _
  | .branch _ c yes no, h => by
      simp only [Stmt.sites, List.forall_mem_cons, List.forall_mem_append] at h
      obtain ⟨hc, hyes, hno⟩ := h
      refine (answers_walkExpr hc).bind ?_
      exact (answers_block yes hyes).inBlock.bind ((answers_block no hno).inBlock.map _)
  | .forLoop _ d c step body, h => by
      simp only [Stmt.sites, List.forall_mem_cons, List.forall_mem_append, List.forall_mem_map,
        Option.mem_toList] at h
      obtain ⟨hd, hc, hstep, hbody⟩ := h
      refine Walk.Answers.inBlock ((answers_varDecl hd).bind ((answers_walkExpr hc).bind ?_))
      exact (answers_stmt step hstep).bind ((answers_block body hbody).inBlock.map _)
  | .loop _ _ c body, h => by
      simp only [Stmt.sites, List.forall_mem_cons] at h
      exact (answers_walkExpr h.1).bind ((answers_block body h.2).inBlock.map _)
  | .switch _ e cs, h => by
      simp only [Stmt.sites, List.forall_mem_cons] at h
      exact (answers_walkExpr h.1).bind ((answers_cases cs h.2).map _)
  | .call _ _ as, h => by
      simp only [Stmt.sites, List.forall_mem_map] at h
      exact (answers_walkList h).map _

theorem answers_block {Γ : Context} : (ss : List Stmt) →
    (∀ site ∈ Stmt.blockSites Γ ss, x.Leaves site.2) →
      (x.block ss).Answers x.path (Stmt.blockDemands ss) ss
  | [], _ => .pure _
  | s :: ss, h => by
      simp only [Stmt.blockSites, List.forall_mem_append] at h
      exact (answers_stmt s h.1).bind ((answers_block ss h.2).map _)

theorem answers_cases {Γ : Context} : (cs : List Case) →
    (∀ site ∈ Stmt.caseSites Γ cs, x.Leaves site.2) →
      (x.cases cs).Answers x.path (Stmt.caseDemands cs) cs
  | [], _ => .pure _
  | .mk _ g body :: cs, h => by
      simp only [Stmt.caseSites, List.forall_mem_append, List.forall_mem_map,
        Option.mem_toList] at h
      obtain ⟨hg, hbody, hcs⟩ := h
      refine (answers_guard hg).bind ?_
      exact (answers_block body hbody).inBlock.bind ((answers_cases cs hcs).map _)

end

/-! ### Programs -/

theorem result_decl_answer {d : Decl}
    (h : ∀ m ∈ d.method?, ∀ site ∈ m.sites, x.Leaves site.2) :
    (x.decl d).result = Demand.answer x.path d.demands d := by
  cases d with
  | method m =>
      have hbody : (x.block m.body (.ofParams m.params)).1.result =
          Demand.answer x.path (Stmt.blockDemands m.body) m.body :=
        answers_block m.body (h m rfl) (.ofParams m.params)
      have hmethod : (x.method m).result = Demand.answer x.path (Stmt.blockDemands m.body) m := by
        rw [method, Logged.result_bind, Logged.result_tell]
        change ((x.block m.body (.ofParams m.params)).1 >>= _).result = _
        rw [Logged.result_bind, hbody]
        exact Demand.answer_map _ _ _ _
      rw [decl, Logged.result_bind, hmethod]
      exact Demand.answer_map _ _ _ _
  | type t => rfl
  | macroDecl m => rfl

end Expansion

namespace Program

variable {p : Program} {options : ExpandOptions}

/-- A program that calls no macro stays as it is, unless one of its demands is not met. -/
theorem result_expand_answer (h : ∀ n, p.Calls n → p.declarations.macros.get? n = none) :
    (p.expand options).result = Demand.answer p.path p.demands p := by
  have hdecl : ∀ d ∈ p.decls,
      ((p.expansion options).decl d).result = Demand.answer p.path d.demands d := by
    intro d hd
    refine Expansion.result_decl_answer fun m hm site hsite => ?_
    have hmem : m ∈ p.methods := List.mem_filterMap.2 ⟨d, hd, hm⟩
    exact Expansion.leaves_of_no_macro_calls fun n hn => h n ⟨m, hmem, site, hsite, hn⟩
  rw [expand, Logged.result_bind, Logged.result_tellAll]
  change (p.decls.mapM (p.expansion options).decl >>= _).result = _
  rw [Logged.result_bind, Logged.result_mapM_answer hdecl]
  exact Demand.answer_map _ _ _ _

/-- An expanded program is the one before it, declaration by declaration and statement by
statement, with the same expressions outside of macro calls. A program that calls no macro comes
out as it went in when all targets and guards are of the form that is asked for; otherwise the
first one that is not is reported. -/
theorem expand_changes_only_macro_calls (p : Program) (options : ExpandOptions) :
    (∀ q, (p.expand options).result = .ok q →
      p.Pointwise (fun _ _ e e' =>
        e'.info = e.info ∧ e.DiffersAtCalls p.declarations.macros e') q) ∧
    ((∀ n, p.Calls n → p.declarations.macros.get? n = none) →
      ((∀ d ∈ p.demands, d.isMet = true) → (p.expand options).result = .ok p) ∧
      ∀ d, Demand.firstUnmet? p.demands = some d →
        (d.failure p.path).fault.kind = .internal ∧
          (p.expand options).result = .error (d.failure p.path)) := by
  refine ⟨fun q hq => ?_, fun hcalls => ⟨fun hmet => ?_, fun d hd => ⟨d.kind_failure p.path, ?_⟩⟩⟩
  · have hchange := expand_eq_ok_iff.1 hq
    -- Composing with equality leads from what expansion does to what is said of it here.
    refine hchange.trans ?_ (hchange.right (S := fun _ _ => Eq) fun _ _ _ _ _ => rfl)
    rintro _ _ e e' _ he rfl
    exact ⟨he.1.differsAtCalls.info_eq, he.1.differsAtCalls⟩
  · rw [result_expand_answer hcalls, Demand.answer, Demand.firstUnmet?_eq_none_iff.2 hmet]
  · rw [result_expand_answer hcalls, Demand.answer, hd]

/-- A guard in a case, a target in its body, and another target after it. -/
def guarded (guard target : Expr) : Program where
  path := "guarded"
  decls := [
    .macroDecl { name := "one", params := [], body := .const {} (.int 1) },
    .method { name := "main", ret := .void, params := [⟨"x", .int, {}⟩],
              body := [
                .switch {} (.var {} "x") [
                  .mk ⟨8, 20⟩ (some guard) [.assign {} (.var {} "x") (.const {} (.int 2))]],
                .assign {} target (.const {} (.int 3))] }]

/-- The call in `increments` is all that expansion changes there. In `guarded` no macro is called:
it stays as it is if guard and target are in order, and the guard is reported first. -/
theorem increments_and_guarded_outside_of_calls :
    increments.Pointwise (fun _ _ e e' =>
      e'.info = e.info ∧ e.DiffersAtCalls increments.declarations.macros e') incrementsExpanded ∧
    ((guarded (.const {} (.int 1)) (.var {} "x")).expand {}).result =
      .ok (guarded (.const {} (.int 1)) (.var {} "x")) ∧
    ((guarded (.var {} "x") (.const {} (.int 1))).expand {}).result =
      .error ⟨.guardNotConst (.var {} "x"), ⟨8, 20⟩, "guarded"⟩ := by
  have hvar (n : String) : ¬ (Expr.var {} "x").Calls n := by
    rintro ⟨_, _, hnode⟩
    cases hnode with
    | child hc _ => cases hc
  have hconst (k : Int) (n : String) : ¬ (Expr.const {} (.int k)).Calls n := by
    rintro ⟨_, _, hnode⟩
    cases hnode with
    | child hc _ => cases hc
  have hcalls {g t : Expr} (hg : ∀ n, ¬ g.Calls n) (ht : ∀ n, ¬ t.Calls n) (n : String) :
      ¬ (guarded g t).Calls n := by
    rintro ⟨m, hm, site, hsite, hcall⟩
    cases List.mem_singleton.1 hm
    have hnone : ∀ e ∈ [.var {} "x", g, .var {} "x", .const {} (.int 2), t, .const {} (.int 3)],
        ¬ e.Calls n := by
      simp [hvar, hconst, hg, ht]
    exact hnone _ (List.mem_map_of_mem (f := Prod.snd) hsite) hcall
  refine ⟨(expand_changes_only_macro_calls increments {}).1 _ rfl, ?_, ?_⟩
  · refine ((expand_changes_only_macro_calls (guarded _ _) {}).2 ?_).1 (by decide)
    exact fun n hn => (hcalls (hconst 1) hvar n hn).elim
  · refine (((expand_changes_only_macro_calls (guarded _ _) {}).2 ?_).2
      (.guard ⟨8, 20⟩ (.var {} "x")) (by rfl)).2
    exact fun n hn => (hcalls hvar (hconst 1) n hn).elim

end Program

end WhileStatics
