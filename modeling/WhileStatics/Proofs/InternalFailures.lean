import WhileStatics.Proofs.AnalyzedPrograms
import WhileStatics.Proofs.CheckingFailures
import WhileStatics.Proofs.ExpansionFailures
import WhileStatics.Proofs.MacroCalls

/-!
# Internal failures

Expansion refuses assignment targets and guards of the wrong form, wherever they
are nested. Of the internal faults that a check looks for, an expanded program
can therefore have only one: a call of a macro that is no method. Such a call is
a statement, which expansion leaves alone, or there was nothing to put in its
place.
-/

namespace WhileStatics

/-! ### Faults of typing rules -/

/-- A fault of a typing rule or of a type name. -/
def Fault.IsOrdinary (fault : Fault) : Prop := fault.kind ∉ [.recursionLimit, .internal]

theorem Ty.confines_isOrdinary (types : TypeTable) :
    Confines types (fun _ => True) Fault.IsOrdinary where
  constructive := ⟨fun _ _ => trivial, fun _ => trivial, fun _ _ => trivial⟩
  hereditary _ _ _ _ := trivial
  resolve t _ f hf := by
    have hkind := kind_of_resolve_eq_error hf
    simp only [List.mem_cons, List.not_mem_nil, or_false] at hkind
    rcases hkind with hkind | hkind <;> simp [Fault.IsOrdinary, hkind]
  other f hf := by
    simp only [List.mem_cons, List.not_mem_nil, or_false, not_or] at hf
    simp [Fault.IsOrdinary, hf]

namespace Program

variable {p q : Program} {options : ExpandOptions}

/-- What a failing check reports, whatever the program. -/
theorem check_reports_isOrdinary (p : Program) (options : CheckOptions) :
    FailsOnly (p.Reports Fault.IsOrdinary) (p.check options).result :=
  check_reports (Ty.confines_isOrdinary _) (fun _ _ => trivial) (fun _ _ => trivial) options

/-! ### Forms in expanded programs -/

/-- Every statement of an expanded program is the expansion of some statement. -/
theorem exists_pointwise_of_mem_parts (h : (p.expand options).result = .ok q) {m : Method}
    (hm : m ∈ q.methods) {part : Context × Stmt} (hpart : part ∈ m.parts) :
    ∃ s : Stmt, s.Pointwise (p.expansion options).change part.1 part.2 := by
  obtain ⟨_, _, ⟨_, s⟩, _, hΓ, hs⟩ := (expand_eq_ok_iff.1 h).exists_part hm hpart
  exact ⟨s, hΓ ▸ hs⟩

theorem isLvalue_of_expand (h : (p.expand options).result = .ok q) {m : Method}
    (hm : m ∈ q.methods) {Γ : Context} {span : Span} {t e : Expr}
    (hpart : (Γ, .assign span t e) ∈ m.parts) : t.isLvalue = true := by
  obtain ⟨s, hs⟩ := exists_pointwise_of_mem_parts h hm hpart
  obtain ⟨_, ht⟩ := hs.exists_target
  exact ht.2

theorem isConst_of_expand (h : (p.expand options).result = .ok q) {m : Method}
    (hm : m ∈ q.methods) {Γ : Context} {span : Span} {e : Expr} {cs : List Case}
    (hpart : (Γ, .switch span e cs) ∈ m.parts) :
    ∀ c ∈ cs, ∀ g ∈ c.guard, g.isConst = true := by
  intro c hc g hg
  obtain ⟨s, hs⟩ := exists_pointwise_of_mem_parts h hm hpart
  obtain ⟨_, hguard⟩ := hs.exists_guard c hc g hg
  exact hguard.2

/-! ### Calls that remain -/

/-- A call at the span that expansion leaves in the program: a statement, or an expression that
calls a macro without a template. -/
inductive KeepsCall (x : Expansion) (q : Program) (n : String) (span : Span) : Prop
  | stmt {m Γ as} (hm : m ∈ q.methods) (hpart : (Γ, .call span n as) ∈ m.parts) :
      KeepsCall x q n span
  | expr {m site i as d} (hm : m ∈ q.methods) (hsite : site ∈ m.sites)
      (hnode : Expr.IsNode (.call i n as) site.2) (hspan : i.span = span)
      (hd : x.macros.get? n = some d) (hform : x.HasNoTemplate d) : KeepsCall x q n span

theorem get?_methods_eq_none_of_expand (h : (p.expand options).result = .ok q) {n : String}
    (hn : q.declarations.methods.get? n = none) : p.declarations.methods.get? n = none := by
  by_contra hsome
  obtain ⟨m, hm⟩ := Option.ne_none_iff_exists'.1 hsome
  obtain ⟨m', hm', _⟩ := (expand_eq_ok_iff.1 h).sameSignatures.methods n m hm
  simp [hm'] at hn

/-- The internal fault that the check of an expanded program reports is a call of a macro. -/
theorem unexpandedCall_of_check (h : (p.expand options).result = .ok q) {check : CheckOptions}
    {f : Failure} (hf : (q.check check).result = .error f) (hkind : f.fault.kind = .internal) :
    ∃ n, f.fault = .unexpandedCall n ∧ p.declarations.macros.contains n = true ∧
      p.declarations.methods.get? n = none ∧ q.KeepsCall (p.expansion options) n f.span := by
  have hordinary : ¬ f.fault.IsOrdinary := by simp [Fault.IsOrdinary, hkind]
  have hmacros := (expand_eq_ok_iff.1 h).declared_macros_eq
  cases q.check_reports_isOrdinary check f hf with
  | decl _ hdecl => cases hdecl <;> exact (hordinary ‹_›).elim
  | @stmt m part hm hpart hstmt =>
      obtain ⟨Γ, s⟩ := part
      cases hstmt with
      | decl hrule => exact (hordinary hrule).elim
      | target hlvalue => simp [isLvalue_of_expand h hm hpart] at hlvalue
      | @callee _ n _ _ hcallee =>
          cases hcallee with
          | rule hrule => exact (hordinary hrule).elim
          | macroCall hmethod hname =>
              exact ⟨n, rfl, hmacros ▸ hname, get?_methods_eq_none_of_expand h hmethod,
                .stmt hm hpart⟩
  | expr hm hsite hnode hexpr =>
      cases hexpr with
      | rule hrule => exact (hordinary hrule).elim
      | @callee i n as _ hcallee =>
          cases hcallee with
          | rule hrule => exact (hordinary hrule).elim
          | macroCall hmethod hname =>
              rw [hmacros] at hname
              obtain ⟨d, hd⟩ := Option.isSome_iff_exists.1 hname
              have hcalls : q.Calls n := ⟨_, hm, _, hsite, i, as, hnode⟩
              exact ⟨n, rfl, hname, get?_methods_eq_none_of_expand h hmethod,
                .expr hm hsite hnode rfl hd (hasNoTemplate_of_calls h hcalls hd)⟩

/-- Expansion has its own fault for targets that are not assignable. -/
theorem expand_ne_notLvalue (p : Program) (options : ExpandOptions) (e : Expr) (span : Span)
    (path? : Option String) : (p.expand options).result ≠ .error ⟨.notLvalue e, span, path?⟩ := by
  have hcalls : (p.expansion options).AdmitsCallFaults (fun _ => True)
      fun f => f.fault ≠ .notLvalue e := ⟨fun _ _ _ _ _ => trivial, nofun, nofun⟩
  have hexpand : FailsOnly (fun f => f.fault ≠ .notLvalue e) (p.expand options).result := by
    apply failsOnly_expand
    · rintro m _ ⟨Γ, s⟩ _ f (_ | _) <;> nofun
    · exact fun m _ site _ scope => hcalls.exprWithin scope _ fun _ _ => trivial
  exact fun h => hexpand _ h rfl

/-- In an expanded program all assignment targets are assignable and all guards are constants, and
an internal failure of its check reports a call of a macro that expansion had to leave. The
checker's complaint about assignment targets is therefore never an outcome of analysis. -/
theorem internal_failures_report_remaining_macro_calls (p : Program) (options : AnalysisOptions) :
    (∀ q, (p.expand options.expand).result = .ok q →
      (∀ m ∈ q.methods, ∀ part ∈ m.parts,
        (∀ span t e, part.2 = .assign span t e → t.isLvalue = true) ∧
        ∀ span e cs, part.2 = .switch span e cs → ∀ c ∈ cs, ∀ g ∈ c.guard, g.isConst = true) ∧
      ∀ f, (q.check options.check).result = .error f → f.fault.kind = .internal →
        ∃ n, f.fault = .unexpandedCall n ∧ p.declarations.macros.contains n = true ∧
          p.declarations.methods.get? n = none ∧
          q.KeepsCall (p.expansion options.expand) n f.span) ∧
    ∀ e span path?, (p.analyze options).result ≠ .error ⟨.notLvalue e, span, path?⟩ := by
  refine ⟨fun q hq => ⟨?_, fun f hf hkind => unexpandedCall_of_check hq hf hkind⟩,
    fun e span path? h => ?_⟩
  · rintro m hm ⟨Γ, s⟩ hpart
    refine ⟨?_, ?_⟩
    · rintro span t e rfl
      exact isLvalue_of_expand hq hm hpart
    · rintro span e cs rfl
      exact isConst_of_expand hq hm hpart
  · rcases analyze_eq_error_iff.1 h with hexpand | ⟨q, hq, hfails⟩
    · exact expand_ne_notLvalue p options.expand e span path? hexpand
    · obtain ⟨n, hn, _⟩ := unexpandedCall_of_check hq hfails rfl
      cases hn

/-- A macro that selects a case, and one that has no template, called in the body of the case. -/
def selection : Program where
  path := "selection"
  decls := [
    .macroDecl { name := "one", params := [], body := .const {} (.int 1) },
    .macroDecl { name := "same", params := [⟨"a", {}⟩], body := .var {} "a" },
    .method { name := "main", ret := .void, params := [⟨"x", .int, {}⟩],
              body := [.switch {} (.var {} "x") [.mk {} (some (.call {} "one" []))
                [.assign {} (.var {} "x") (.call { span := ⟨7, 14⟩ } "same" [.var {} "x"])]]] }]

/-- The program `selection` after expansion. -/
def selectionExpanded : Program where
  path := "selection"
  decls := selection.decls.take 2 ++ [
    .method { name := "main", ret := .void, params := [⟨"x", .int, {}⟩],
              body := [.switch {} (.var {} "x") [.mk {} (some (.const {} (.int 1)))
                [.assign {} (.var {} "x") (.call { span := ⟨7, 14⟩ } "same" [.var {} "x"])]]] }]

/-- Checking `selection` after its expansion reports the call of the macro without a template. -/
theorem selectionExpanded_reports_same :
    selectionExpanded.check.result = .error ⟨.unexpandedCall "same", ⟨7, 14⟩, "selection"⟩ ∧
      selectionExpanded.KeepsCall (selection.expansion {}) "same" ⟨7, 14⟩ := by
  have hexpand : (selection.expand {}).result = .ok selectionExpanded := by rfl
  have hcheck : selectionExpanded.check.result =
      .error ⟨.unexpandedCall "same", ⟨7, 14⟩, "selection"⟩ := by rfl
  obtain ⟨_, hreport⟩ :=
    (internal_failures_report_remaining_macro_calls selection {}).1 selectionExpanded hexpand
  obtain ⟨n, hn, _, _, hkeeps⟩ := hreport _ hcheck rfl
  cases hn
  exact ⟨hcheck, hkeeps⟩

end Program

end WhileStatics
