import WhileStatics.Analysis
import WhileStatics.Proofs.AgreeingDeclarations
import WhileStatics.Proofs.ErasedPasses
import WhileStatics.Proofs.ExpandedPrograms

/-!
# Stale slots

A program that was annotated before may hold outdated types in its slots, in the
bodies of its methods and of its macros. Analysis copies them from macros into
methods and never reads them: programs that differ in nothing but their slots are
analyzed alike.
-/

namespace WhileStatics

/-! ### Statements as they are -/

namespace Stmt

mutual

theorem mapExprs_id : (s : Stmt) → s.mapExprs id = s
  | .assertion .. | .print .. | .assign .. | .jump .. => rfl
  | .ret .. => by simp [mapExprs]
  | .decl _ => by simp [mapExprs, VarDecl.mapExprs]
  | .branch _ _ yes no => by simp [mapExprs, mapExprsBlock_id yes, mapExprsBlock_id no]
  | .forLoop _ _ _ step body => by
      simp [mapExprs, VarDecl.mapExprs, mapExprs_id step, mapExprsBlock_id body]
  | .loop _ _ _ body => by simp [mapExprs, mapExprsBlock_id body]
  | .switch _ _ cs => by simp [mapExprs, mapExprsCases_id cs]
  | .call .. => by simp [mapExprs]

theorem mapExprsBlock_id : (ss : List Stmt) → mapExprsBlock id ss = ss
  | [] => rfl
  | s :: ss => by rw [mapExprsBlock, mapExprs_id s, mapExprsBlock_id ss]

theorem mapExprsCases_id : (cs : List Case) → mapExprsCases id cs = cs
  | [] => rfl
  | .mk _ _ body :: cs => by
      rw [mapExprsCases, Option.map_id, mapExprsBlock_id body, mapExprsCases_id cs]
      rfl

end

end Stmt

/-! ### Declarations -/

/-- Empties the type slots in the body of a macro and keeps other declarations. -/
def Decl.eraseMacro : Decl → Decl
  | .macroDecl m => .macroDecl m.erase
  | d => d

namespace Expansion.ErasesTo

variable {x x' : Expansion}

theorem method (h : x.ErasesTo x') (m : Method) :
    SameOutcome Method.erase (x.method m).result (x'.method m.erase).result := by
  have hbody := (h.pass.block m.body (.ofParams m.params)).1
  rw [← block_eq_pass, ← block_eq_pass] at hbody
  simp only [Expansion.method, Logged.result_bind]
  exact hbody.bind fun body => .ok { m with body }

theorem decl (h : x.ErasesTo x') (d : Decl) :
    SameOutcome (fun d => d.erase.eraseMacro) (x.decl d).result
      (x'.decl d.erase.eraseMacro).result := by
  cases d with
  | method m =>
      simp only [Decl.erase, Decl.eraseMacro, Expansion.decl, Logged.result_bind]
      exact (h.method m).bind fun m' => .ok (Decl.method m')
  | type t => exact .ok (Decl.type t)
  | macroDecl m => exact .ok (Decl.macroDecl m)

end Expansion.ErasesTo

namespace Declarations

theorem sameOutcome_checkMethod (ds : Declarations) (m : Method) :
    SameOutcome id (ds.checkMethod m).result (ds.checkMethod m.erase).result := by
  have hbody : ∀ scope, SameOutcome id ((ds.checkBlock m.ret m.body).result scope)
      ((ds.checkBlock m.ret m.erase.body).result scope) := by
    intro scope
    have hblock := ((ds.erasesTo_pass m.ret).block m.body scope).1
    rw [funext Stmt.mapExprsBlock_id] at hblock
    rw [checkBlock_eq_pass, checkBlock_eq_pass]
    exact hblock
  simp only [checkMethod, Logged.result_bind]
  refine SameOutcome.bind (f := id) (.of_eq (by simp) rfl) fun _ => ?_
  refine SameOutcome.bind (f := id) (.of_eq (by simp) rfl) fun _ => ?_
  refine SameOutcome.bind (f := id) (.of_eq (by simp) rfl) fun scope => ?_
  exact (hbody scope).bind fun body => .ok { m with body }

theorem sameOutcome_checkDecl (ds : Declarations) (d : Decl) :
    SameOutcome Decl.eraseMacro (ds.checkDecl d).result
      (ds.checkDecl d.erase.eraseMacro).result := by
  cases d with
  | method m =>
      simp only [Decl.erase, Decl.eraseMacro, checkDecl, Logged.result_bind]
      exact (ds.sameOutcome_checkMethod m).bind fun m' => .ok (Decl.method m')
  | type t =>
      simp only [Decl.erase, Decl.eraseMacro, checkDecl, Logged.result_bind]
      refine SameOutcome.bind (f := id) (.of_eq (by simp) rfl) fun _ => ?_
      exact SameOutcome.bind (f := id) (.of_eq (by simp) rfl) fun _ => .ok (Decl.type t)
  | macroDecl m => exact .ok (Decl.macroDecl m)

end Declarations

/-! ### Programs -/

namespace Program

/-- Empties the type slots in all macro bodies. -/
def eraseMacros (p : Program) : Program := { p with decls := p.decls.map Decl.eraseMacro }

/-- Empties all type slots, those in method bodies and those in macro bodies. -/
def blank (p : Program) : Program :=
  { p with decls := p.decls.map fun d => d.erase.eraseMacro }

variable {p q : Program}

theorem methods_blank (p : Program) : p.blank.methods = p.methods.map Method.erase := by
  rw [methods, methods, blank, List.filterMap_map, List.map_filterMap]
  refine List.filterMap_congr fun d _ => ?_
  cases d <;> rfl

theorem types_blank (p : Program) : p.blank.types = p.types := by
  rw [types, types, blank, List.filterMap_map]
  refine List.filterMap_congr fun d _ => ?_
  cases d <;> rfl

theorem macros_blank (p : Program) : p.blank.macros = p.macros.map MacroDecl.erase := by
  rw [macros, macros, blank, List.filterMap_map, List.map_filterMap]
  refine List.filterMap_congr fun d _ => ?_
  cases d <;> rfl

theorem methods_eraseMacros (p : Program) : p.eraseMacros.methods = p.methods := by
  rw [methods, methods, eraseMacros, List.filterMap_map]
  refine List.filterMap_congr fun d _ => ?_
  cases d <;> rfl

theorem agreeWith_blank (p : Program) : p.declarations.AgreeWith p.blank.declarations := by
  apply agreeWith_of_map_eq
  · rfl
  · rw [types_blank]
  · rw [methods_blank, List.map_map]
    rfl
  · rw [macros_blank, List.map_map]
    rfl

theorem erasesTo_blank (p : Program) (options : ExpandOptions) :
    (p.expansion options).ErasesTo (p.blank.expansion options) where
  path := rfl
  macros n := by
    change p.blank.declarations.macros.get? n =
      (p.declarations.macros.get? n).map MacroDecl.erase
    rw [get?_macros, get?_macros, macros_blank, ← List.map_reverse, List.find?_map]
    rfl
  options := rfl

/-- Expanding the blank program expands to the blank result. -/
theorem sameOutcome_expand (p : Program) (options : ExpandOptions) :
    SameOutcome blank (p.expand options).result (p.blank.expand options).result := by
  have hdecls := Logged.sameOutcome_mapM (p.erasesTo_blank options).decl p.decls
  simp only [expand, Logged.result_bind]
  exact hdecls.bind fun decls => .ok { p with decls }

/-- Checking the blank program yields the same annotated methods. -/
theorem sameOutcome_check (p : Program) {options : CheckOptions} (h : options.annotate = true) :
    SameOutcome eraseMacros (p.check options).result (p.blank.check options).result := by
  have hds : p.blank.declarations.checkDecl = p.declarations.checkDecl :=
    funext fun d => (p.agreeWith_blank.checkDecl_eq d).symm
  have hdecls := Logged.sameOutcome_mapM p.declarations.sameOutcome_checkDecl p.decls
  simp only [check_eq, Logged.result_bind, hds, h, if_true]
  exact hdecls.bind fun decls => .ok { p with decls }

theorem sameOutcome_analyze (p : Program) {options : AnalysisOptions}
    (h : options.check.annotate = true) :
    SameOutcome eraseMacros (p.analyze options).result (p.blank.analyze options).result := by
  simp only [analyze, Logged.result_bind]
  exact (p.sameOutcome_expand options.expand).bind fun q => q.sameOutcome_check h

/-- Types that are left in slots never influence analysis: programs that differ in nothing else are
both accepted, with the same annotated methods, or both refused, with diagnostics of one kind at
one place. -/
theorem analyze_ignores_stale_slots (options : AnalysisOptions) (hslots : p.blank = q.blank)
    (hannotate : options.check.annotate = true) :
    (∃ r s, (p.analyze options).outcome p.path = .ok r ∧
        (q.analyze options).outcome q.path = .ok s ∧ r.methods = s.methods) ∨
      ∃ d e, (p.analyze options).outcome p.path = .error d ∧
        (q.analyze options).outcome q.path = .error e ∧
        d.kind = e.kind ∧ d.path = e.path ∧ d.span = e.span := by
  have hp := p.sameOutcome_analyze hannotate
  have hq := q.sameOutcome_analyze hannotate
  rw [← hslots] at hq
  obtain ⟨r, s, hr, hs, hrs⟩ | ⟨e, e', he, he', hkind, hspan, hfile⟩ := hp.cases_of_common hq
  · refine .inl ⟨r, s, ?_, ?_, ?_⟩
    · rw [Logged.outcome, hr, Except.mapError]
    · rw [Logged.outcome, hs, Except.mapError]
    · rw [← methods_eraseMacros r, hrs, methods_eraseMacros]
  · have hblank : p.blank.path = q.blank.path := by rw [hslots]
    have hpath : (e.diagnostic p.path).path = (e'.diagnostic q.path).path :=
      congrArg₂ Option.getD hfile hblank
    refine .inr ⟨e.diagnostic p.path, e'.diagnostic q.path, ?_, ?_, hkind, hpath, hspan⟩
    · rw [Logged.outcome, he, Except.mapError]
    · rw [Logged.outcome, he', Except.mapError]

/-- A macro whose body holds the types `slot`, and a method that calls it. -/
def doubling (slot : Option Ty) : Program where
  path := "doubling.while"
  decls :=
    [.macroDecl ⟨"twice", [⟨"x", {}⟩],
        .binary ⟨{}, slot⟩ .add (.var ⟨{}, slot⟩ "x") (.var ⟨{}, slot⟩ "x"), {}⟩,
      .method ⟨"main", .int, [],
        [.ret {} (some (.call ⟨{}, slot⟩ "twice" [.const ⟨{}, slot⟩ (.int 1)]))], {}⟩]

/-- Slots that say `string` where the types are `int` change nothing. -/
theorem doubling_analyzed_alike :
    (doubling none).blank = (doubling (some .string)).blank ∧
      ∃ r s, ((doubling none).analyze).outcome "doubling.while" = .ok r ∧
        ((doubling (some .string)).analyze).outcome "doubling.while" = .ok s ∧
        r.methods = s.methods := by
  have hslots : (doubling none).blank = (doubling (some .string)).blank := rfl
  refine ⟨hslots, ?_⟩
  obtain h | ⟨d, e, hd, _⟩ := analyze_ignores_stale_slots {} hslots rfl
  · exact h
  · cases hd

end Program

end WhileStatics
