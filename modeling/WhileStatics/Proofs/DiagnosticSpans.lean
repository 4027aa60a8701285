import WhileStatics.Proofs.InternalFailures

/-!
# Spans of diagnostics

A diagnostic names the file of the program and a span that occurs in the
program: that of a declaration, a parameter, a statement, a case or a node of an
expression. Both are those of the failure, which takes the file from the
expansion or the tables that it arises in. This also holds where the checker
complains about a node that expansion has put together. Expansion keeps the spans
of statements and cases, and the expressions that it builds have the spans of
calls, arguments and macro bodies, so it brings no new span into a program.
-/

namespace WhileStatics

variable {R : Change} {Γ : Context}

/-! ### The spans of a program -/

/-- The span of a declaration. -/
def Decl.span : Decl → Span
  | .method m => m.span
  | .type t => t.span
  | .macroDecl m => m.span

/-- The span of a statement. -/
def Stmt.span : Stmt → Span
  | .assertion span _ | .print span _ | .assign span _ _ | .ret span _ | .jump span _
  | .branch span _ _ _ | .forLoop span _ _ _ _ | .loop span _ _ _ | .switch span _ _
  | .call span _ _ => span
  | .decl d => d.span

/-- The cases of a `switch`; other statements have none. -/
def Stmt.switchCases : Stmt → List Case
  | .switch _ _ cs => cs
  | _ => []

/-- The spans that occur in a program, by what they are spans of. -/
inductive Program.HasSpan (p : Program) : Span → Prop
  | decl {d} (hd : d ∈ p.decls) : HasSpan p d.span
  | param {m a} (hm : m ∈ p.methods) (ha : a ∈ m.params) : HasSpan p a.span
  | stmt {m part} (hm : m ∈ p.methods) (hpart : part ∈ m.parts) : HasSpan p part.2.span
  | switchCase {m part c} (hm : m ∈ p.methods) (hpart : part ∈ m.parts)
      (hc : c ∈ part.2.switchCases) : HasSpan p c.span
  | expr {m site node} (hm : m ∈ p.methods) (hsite : site ∈ m.sites)
      (hnode : Expr.IsNode node site.2) : HasSpan p node.span
  | body {d node} (hd : d ∈ p.macros) (hnode : Expr.IsNode node d.body) : HasSpan p node.span

/-! ### Related programs -/

theorem Decl.Pointwise.span_eq {d d' : Decl} (h : d.Pointwise R d') : d'.span = d.span := by
  obtain rfl | ⟨m, body, rfl, rfl⟩ := h.eq_or_method <;> rfl

namespace Stmt

theorem Pointwise.span_eq {s s' : Stmt} (h : s.Pointwise R Γ s') : s'.span = s.span := by
  cases s with
  | decl d =>
      obtain ⟨_, ⟨_, _, rfl⟩, rfl⟩ := h
      rfl
  | _ => grind [Pointwise, span]

theorem CasesPointwise.map_span_eq {cs cs' : List Case} (h : CasesPointwise R Γ cs cs') :
    cs'.map Case.span = cs.map Case.span := by
  induction cs generalizing cs' with
  | nil =>
      obtain rfl := h
      rfl
  | cons c cs ih =>
      obtain ⟨span, g, body⟩ := c
      obtain ⟨g', body', cs', _, _, hcs, rfl⟩ := h
      rw [List.map_cons, List.map_cons, ih hcs]
      rfl

theorem Pointwise.map_span_switchCases {s s' : Stmt} (h : s.Pointwise R Γ s') :
    s'.switchCases.map Case.span = s.switchCases.map Case.span := by
  cases s with
  | switch span e cs =>
      obtain ⟨e', cs', _, hcs, rfl⟩ := h
      exact hcs.map_span_eq
  | _ => grind [Pointwise, switchCases]

end Stmt

/-- The failure names the file of the program and a span that occurs in it. -/
structure Failure.PointsInto (f : Failure) (p : Program) : Prop where
  path : f.path? = some p.path
  span : p.HasSpan f.span

/-- A failure that names its file is not put down to another one. -/
theorem Failure.PointsInto.diagnostic_eq {f : Failure} {p : Program} (h : f.PointsInto p)
    (path : String) : f.diagnostic path = f.diagnostic p.path := by
  rw [Failure.diagnostic, Failure.diagnostic, h.path, Option.getD_some, Option.getD_some]

theorem Failure.PointsInto.path_diagnostic {f : Failure} {p : Program} (h : f.PointsInto p)
    (path : String) : (f.diagnostic path).path = p.path := by
  rw [Failure.diagnostic, h.path, Option.getD_some]

/-- A failure becomes a diagnostic. -/
theorem Logged.outcome_eq_error_iff {α : Type} {x : Logged α} {path : String} {d : Diagnostic} :
    x.outcome path = .error d ↔ ∃ f, x.result = .error f ∧ f.diagnostic path = d := by
  rw [Logged.outcome]
  cases x.result <;> simp [Except.mapError]

namespace Program

variable {p q : Program} {span : Span}

/-- A change that brings no new spans into expressions brings none into the program. -/
theorem Pointwise.hasSpan (h : p.Pointwise R q)
    (hR : ∀ place Γ e e', R place Γ e e' → e.SpansIn p.HasSpan → e'.SpansIn p.HasSpan)
    (hspan : q.HasSpan span) : p.HasSpan span := by
  cases hspan with
  | decl hd =>
      obtain ⟨decls, hdecls, rfl⟩ := h
      obtain ⟨d₀, hd₀, hrel⟩ := exists_mem_of_forall₂ hdecls hd
      rw [hrel.span_eq]
      exact .decl hd₀
  | param hm ha =>
      obtain ⟨m₀, hm₀, _, _, rfl⟩ := h.exists_method hm
      exact .param hm₀ ha
  | stmt hm hpart =>
      obtain ⟨m₀, hm₀, part₀, hpart₀, _, hrel⟩ := h.exists_part hm hpart
      rw [hrel.span_eq]
      exact .stmt hm₀ hpart₀
  | switchCase hm hpart hc =>
      obtain ⟨m₀, hm₀, part₀, hpart₀, _, hrel⟩ := h.exists_part hm hpart
      have hmem := List.mem_map_of_mem (f := Case.span) hc
      rw [hrel.map_span_switchCases] at hmem
      obtain ⟨c₀, hc₀, heq⟩ := List.mem_map.1 hmem
      rw [← heq]
      exact .switchCase hm₀ hpart₀ hc₀
  | expr hm hsite hnode =>
      obtain ⟨m₀, hm₀, site₀, hsite₀, _, place, hrel⟩ := h.exists_site hm hsite
      exact hR place _ _ _ hrel (fun node hnode => .expr hm₀ hsite₀ hnode) _ hnode
  | body hd hnode => exact .body (h.macros_eq ▸ hd) hnode

/-! ### Expansion -/

variable {options : ExpandOptions}

theorem bodySpansIn_hasSpan (p : Program) (options : ExpandOptions) :
    (p.expansion options).BodySpansIn p.HasSpan := by
  intro n d hd node hnode
  have hget : p.declarations.macros.get? n = some d := hd
  rw [get?_macros] at hget
  exact .body (List.mem_reverse.1 (List.mem_of_find?_eq_some hget)) hnode

/-- Expansion brings no new span into a program. -/
theorem hasSpan_of_expand (h : (p.expand options).result = .ok q) (hspan : q.HasSpan span) :
    p.HasSpan span :=
  (expand_eq_ok_iff.1 h).hasSpan
    (fun _ _ _ _ hrel he => hrel.1.spansIn (p.bodySpansIn_hasSpan options) he) hspan

/-- The target of an assignment is a node of the program. -/
theorem HasSpan.target {m : Method} (hm : m ∈ p.methods) {t e : Expr}
    (hpart : (Γ, .assign span t e) ∈ m.parts) : p.HasSpan t.span := by
  have hsite : (Γ, t) ∈ m.sites :=
    Method.sites_subset_of_mem_parts hpart (by simp [Stmt.sites])
  exact .expr hm hsite (.self t)

theorem pointsInto_of_wrongForm {m : Method} (hm : m ∈ p.methods) {part : Context × Stmt}
    (hpart : part ∈ m.parts) {f : Failure} (hf : Expansion.WrongForm p.path part.2 f) :
    f.PointsInto p := by
  obtain ⟨Γ, s⟩ := part
  cases hf with
  | target => exact ⟨rfl, .target hm hpart⟩
  | guard hc => exact ⟨rfl, .switchCase hm hpart hc⟩

/-- What expansion fails with, and that it is reported in the program. -/
theorem expand_points_into_program (p : Program) (options : ExpandOptions) :
    FailsOnly (fun f => f.PointsInto p ∧ (f.fault.kind ∈ [.recursionLimit, .internal] ∨
      f.fault.kind = .arityMismatch ∧ options.validateArity = true)) (p.expand options).result := by
  apply failsOnly_expand
  · intro m hm part hpart f hf
    exact ⟨pointsInto_of_wrongForm hm hpart hf, .inl (by simp [hf.kind_eq])⟩
  · intro m hm site hsite scope
    refine Expansion.AdmitsCallFaults.exprWithin (S := p.HasSpan) ⟨?_, ?_, ?_⟩ scope _ ?_
    · exact p.bodySpansIn_hasSpan options
    · intro hcheck n expected found span hspan
      exact ⟨⟨rfl, hspan⟩, .inr ⟨rfl, hcheck⟩⟩
    · intro n limit span hspan
      exact ⟨⟨rfl, hspan⟩, .inl (by simp [Fault.kind])⟩
    · exact fun node hnode => .expr hm hsite hnode

/-! ### Checking -/

theorem Reports.pointsInto {P : Fault → Prop} {f : Failure} (h : p.Reports P f) :
    f.PointsInto p := by
  have hpath := congrArg some p.path_declarations
  cases h with
  | @decl d hd h =>
      cases h with
      | ret _ => exact ⟨rfl, .decl hd⟩
      | param ha _ => exact ⟨rfl, .param (mem_methods.2 hd) ha⟩
      | type _ => exact ⟨rfl, .decl hd⟩
  | @stmt m part hm hpart h =>
      obtain ⟨Γ, s⟩ := part
      cases h with
      | decl _ => exact ⟨hpath, .stmt hm hpart⟩
      | target _ => exact ⟨hpath, .target hm hpart⟩
      | callee _ => exact ⟨hpath, .stmt hm hpart⟩
  | expr hm hsite hnode h =>
      cases h with
      | rule _ => exact ⟨hpath, .expr hm hsite hnode⟩
      | callee _ => exact ⟨hpath, .expr hm hsite hnode⟩

/-- What checking fails with is reported in the program, and is not a nesting that is too deep. -/
theorem check_points_into_program (p : Program) (options : CheckOptions) :
    FailsOnly (fun f => f.PointsInto p ∧ f.fault.kind ≠ .recursionLimit)
      (p.check options).result := by
  intro f hf
  have hconfines : Ty.Confines p.declarations.types (fun _ => True)
      fun fault => fault.kind ≠ .recursionLimit :=
    (Ty.confines_isOrdinary _).mono fun fault hordinary hkind => hordinary (by simp [hkind])
  have hreports := check_reports hconfines (fun _ _ => trivial) (fun _ _ => trivial) options f hf
  exact ⟨hreports.pointsInto, hreports.fault fun fault hkind => by simp [hkind]⟩

/-- A failure of checking an expanded program points into the program before expansion. -/
theorem pointsInto_of_expand (h : (p.expand options).result = .ok q) {f : Failure}
    (hf : f.PointsInto q) : f.PointsInto p where
  path := hf.path.trans (congrArg some (expand_eq_ok_iff.1 h).path_eq)
  span := hasSpan_of_expand h hf.span

/-! ### Diagnostics -/

/-- Every diagnostic of a pass has the path of the program, whatever other path a failure without
one would be put down to, and a span that occurs in it, macro bodies included. Expansion fails only
where instantiations nest too deep, with an internal failure, or for an argument count where counts
are checked; checking never fails for a nesting that is too deep. A diagnostic of analysis is one of
expansion or one of checking the expanded program. -/
theorem diagnostics_point_into_program (p : Program) (pass : Pass) (options : AnalysisOptions)
    (path : String) (d : Diagnostic) (h : (pass.run options p).outcome path = .error d) :
    d.path = p.path ∧ p.HasSpan d.span ∧
      (pass = .expand → d.kind ∈ [.recursionLimit, .internal] ∨
        d.kind = .arityMismatch ∧ options.expand.validateArity = true) ∧
      (pass = .check → d.kind ≠ .recursionLimit) ∧
      (pass = .analyze → (p.expand options.expand).outcome p.path = .error d ∨
        ∃ q, (p.expand options.expand).result = .ok q ∧
          (q.check options.check).outcome q.path = .error d) := by
  obtain ⟨f, hf, rfl⟩ := Logged.outcome_eq_error_iff.1 h
  cases pass with
  | expand =>
      obtain ⟨hpoints, hkind⟩ := p.expand_points_into_program options.expand f hf
      exact ⟨hpoints.path_diagnostic path, hpoints.span, fun _ => hkind, nofun, nofun⟩
  | check =>
      obtain ⟨hpoints, hkind⟩ := p.check_points_into_program options.check f hf
      exact ⟨hpoints.path_diagnostic path, hpoints.span, nofun, fun _ => hkind, nofun⟩
  | analyze =>
      rcases analyze_eq_error_iff.1 hf with hexpand | ⟨q, hq, hcheck⟩
      · obtain ⟨hpoints, _⟩ := p.expand_points_into_program options.expand f hexpand
        have hsame := (hpoints.diagnostic_eq path).symm
        exact ⟨hpoints.path_diagnostic path, hpoints.span, nofun, nofun, fun _ =>
          .inl (Logged.outcome_eq_error_iff.2 ⟨f, hexpand, hsame⟩)⟩
      · obtain ⟨hpoints, _⟩ := q.check_points_into_program options.check f hcheck
        have hbefore := pointsInto_of_expand hq hpoints
        have hsame := (hpoints.diagnostic_eq path).symm
        exact ⟨hbefore.path_diagnostic path, hbefore.span, nofun, nofun, fun _ =>
          .inr ⟨q, hq, Logged.outcome_eq_error_iff.2 ⟨f, hcheck, hsame⟩⟩⟩

/-- A macro that adds a truth value, in an argument of its own call. -/
def misadded : Program where
  path := "misadded"
  decls := [
    .macroDecl { name := "shift", params := [⟨"a", ⟨12, 13⟩⟩], span := ⟨0, 26⟩,
                 body := .binary { span := ⟨17, 25⟩ } .add (.var { span := ⟨17, 18⟩ } "a")
                   (.const { span := ⟨21, 25⟩ } (.bool true)) },
    .method { name := "main", ret := .void, params := [], span := ⟨27, 65⟩,
              body := [.print ⟨41, 63⟩ (.call { span := ⟨47, 62⟩ } "shift"
                [.call { span := ⟨53, 61⟩ } "shift" [.const { span := ⟨59, 60⟩ } (.int 3)]])] }]

/-- Analysis of `misadded` marks the truth value in the body of the macro, in the file of the
program. -/
theorem misadded_marked_in_macro_body :
    ∃ d, (Pass.analyze.run {} misadded).outcome "elsewhere" = .error d ∧ d.kind = .typeMismatch ∧
      d.path = "misadded" ∧ d.span = ⟨21, 25⟩ ∧ misadded.HasSpan ⟨21, 25⟩ := by
  have h : (Pass.analyze.run {} misadded).outcome "elsewhere" = .error
      (Failure.diagnostic ⟨.notInstance [.int] .bool, ⟨21, 25⟩, "misadded"⟩ "elsewhere") := by
    rfl
  obtain ⟨hpath, hspan, _⟩ := diagnostics_point_into_program misadded .analyze {} "elsewhere" _ h
  exact ⟨_, h, rfl, hpath, rfl, hspan⟩

end Program
end WhileStatics
