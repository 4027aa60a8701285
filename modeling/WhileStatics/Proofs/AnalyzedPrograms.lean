import WhileStatics.Analysis
import WhileStatics.Proofs.ExpandedPrograms
import WhileStatics.Proofs.Signatures

/-!
# Analysis of programs

Analysis yields a program that neither pass changes any more. Checking fills in
slots, which expansion does not look at, so an expanded program stays expanded;
and slots have no part in typing, so a checked program is checked again with the
same result. Calls of macros that stay in place are calls of methods to the
checker and get their types like others.
-/

namespace WhileStatics

/-! ### Slots in expanded programs -/

theorem Place.Admits.of_erase_eq {place : Place} {e e' : Expr} (h : place.Admits e)
    (he : e'.erase = e.erase) : place.Admits e' := by
  cases place with
  | value => trivial
  | target =>
      have hlvalue : e.isLvalue = true := h
      rwa [← Expr.isLvalue_erase, ← he, Expr.isLvalue_erase] at hlvalue
  | guard =>
      have hconst : e.isConst = true := h
      rwa [← Expr.isConst_erase, ← he, Expr.isConst_erase] at hconst

namespace Expansion

/-- Any change to an expression that has nothing left to expand. -/
def settled (x : Expansion) : Change :=
  fun place _ _ e' => x.IsNormal x.options.depthLimit e' ∧ place.Admits e'

/-- Filling in the slots of what expansion yields leaves nothing to expand. -/
theorem composes_annotating (x : Expansion) (ds : Declarations) :
    Change.Composes x.change (.annotating ds) x.settled := by
  intro place Γ e f g hf hg
  exact ⟨hf.1.isNormal.of_erase_eq hg.1, hf.2.of_erase_eq hg.1⟩

theorem settles_settled (x : Expansion) : Change.Settles x.settled x.change :=
  fun _ _ _ _ h => ⟨h.1.expands, h.2⟩

end Expansion

namespace Program

variable {p q r : Program}

theorem expand_of_isAnnotationOf {options : ExpandOptions}
    (hr : (p.expand options).result = .ok r) (hq : q.IsAnnotationOf r) :
    (q.expand options).result = .ok q := by
  rw [expand_eq_ok_iff] at hr
  rw [isAnnotationOf_iff] at hq
  have hpq := hr.trans (Expansion.composes_annotating _ _) hq
  exact hpq.expand_self (Expansion.settles_settled _)

/-! ### Analysis -/

/-- Checking an annotation gives it back unchanged. -/
theorem check_of_isAnnotationOf (hp : p.WellTyped) (hq : q.IsAnnotationOf p) :
    q.check.result = .ok q :=
  check_eq_ok_iff.2 ⟨hq.wellTyped hp, hq.self⟩

/-- The options decide only whether the annotation or the program itself comes back. -/
theorem check_eq_ok_iff_exists {options : CheckOptions} :
    (p.check options).result = .ok q ↔
      ∃ r, (p.WellTyped ∧ r.IsAnnotationOf p) ∧ (if options.annotate then r else p) = q := by
  simp only [← check_eq_ok_iff, result_check_eq_ok_iff]
  constructor
  · rintro ⟨decls, hdecls, hq⟩
    exact ⟨_, ⟨decls, hdecls, rfl⟩, hq⟩
  · rintro ⟨_, ⟨decls, hdecls, rfl⟩, hq⟩
    exact ⟨decls, hdecls, hq⟩

/-- Analysis succeeds when the program expands to a well-typed one. -/
theorem analyze_eq_ok_iff {options : AnalysisOptions} :
    (p.analyze options).result = .ok q ↔
      ∃ r s, (p.expand options.expand).result = .ok r ∧ r.WellTyped ∧ s.IsAnnotationOf r ∧
        (if options.check.annotate then s else r) = q := by
  simp only [analyze, Logged.result_bind, bind_eq_ok_iff, Logged.result_tell, true_and,
    exists_const, check_eq_ok_iff_exists, and_assoc, exists_and_left]

/-- Analysis fails with what its first failing pass fails with. -/
theorem analyze_eq_error_iff {options : AnalysisOptions} {f : Failure} :
    (p.analyze options).result = .error f ↔
      (p.expand options.expand).result = .error f ∨
        ∃ r, (p.expand options.expand).result = .ok r ∧
          (r.check options.check).result = .error f := by
  simp [analyze, bind_eq_error_iff]

/-- An analyzed program is well typed and comes from the given one by a change that leaves nothing
to expand, whether or not it is annotated. -/
theorem wellTyped_and_settled_of_analyze {options : AnalysisOptions}
    (h : (p.analyze options).result = .ok q) :
    q.WellTyped ∧ ∃ R : Change, p.Pointwise R q ∧
      R.Settles (p.expansion options.expand).change := by
  obtain ⟨r, s, hr, htyped, hs, rfl⟩ := analyze_eq_ok_iff.1 h
  have hpr := expand_eq_ok_iff.1 hr
  cases options.check.annotate with
  | false => exact ⟨htyped, _, hpr, Expansion.settles_change _⟩
  | true =>
      have hps := hpr.trans (Expansion.composes_annotating _ _) (isAnnotationOf_iff.1 hs)
      exact ⟨hs.wellTyped htyped, _, hps, Expansion.settles_settled _⟩

theorem exists_analyze_eq_ok_iff {options : AnalysisOptions} :
    (∃ q, (p.analyze options).result = .ok q) ↔
      ∃ r, (p.expand options.expand).result = .ok r ∧ r.WellTyped := by
  simp only [analyze_eq_ok_iff]
  constructor
  · rintro ⟨q, r, s, hr, htyped, _⟩
    exact ⟨r, hr, htyped⟩
  · rintro ⟨r, hr, htyped⟩
    obtain ⟨s, hs⟩ := htyped.exists_annotated
    exact ⟨_, r, s, hr, htyped, hs, rfl⟩

/-- Analysis yields a program that it leaves unchanged, and so do both of its passes. The option of
checking decides which program comes back, not whether one does. -/
theorem analyze_yields_fixed_points_of_both_passes (p : Program) (options : AnalysisOptions) :
    (∀ q, (p.analyze options).result = .ok q →
      (q.analyze options).result = .ok q ∧ (q.expand options.expand).result = .ok q ∧
        (options.check.annotate = true → q.check.result = .ok q) ∧
        (options.check.annotate = false → (p.expand options.expand).result = .ok q)) ∧
      ((∃ q, (p.analyze ⟨options.expand, ⟨false⟩⟩).result = .ok q) ↔
        ∃ q, (p.analyze ⟨options.expand, ⟨true⟩⟩).result = .ok q) := by
  refine ⟨fun q hq => ?_, by rw [exists_analyze_eq_ok_iff, exists_analyze_eq_ok_iff]⟩
  obtain ⟨r, s, hr, htyped, hs, hq⟩ := analyze_eq_ok_iff.1 hq
  cases hannotate : options.check.annotate with
  | false =>
      obtain rfl : r = q := by simpa [hannotate] using hq
      have hexpand : (r.expand options.expand).result = .ok r :=
        (expand_eq_ok_iff.1 hr).expand_self (Expansion.settles_change _)
      have hanalyze : (r.analyze options).result = .ok r :=
        analyze_eq_ok_iff.2 ⟨r, s, hexpand, htyped, hs, by simp [hannotate]⟩
      exact ⟨hanalyze, hexpand, by simp, fun _ => hr⟩
  | true =>
      obtain rfl : s = q := by simpa [hannotate] using hq
      have hexpand : (s.expand options.expand).result = .ok s := expand_of_isAnnotationOf hr hs
      have hanalyze : (s.analyze options).result = .ok s :=
        analyze_eq_ok_iff.2 ⟨s, s, hexpand, hs.wellTyped htyped, hs.self, by simp [hannotate]⟩
      exact ⟨hanalyze, hexpand, fun _ => check_of_isAnnotationOf htyped hs, by simp⟩

/-- The program `readings` after analysis, in which the call that stays has a type like others. -/
def readingsAnalyzed : Program where
  path := "readings"
  decls := readings.decls.take 4 ++ [
    .method { name := "first", ret := .int, params := [{ name := "xs", ty := .array .int }],
              body := [
                .print {} (.unary { ty := some .int } .neg
                  (.binary { ty := some .int } .add (.const { ty := some .int } (.int 2))
                    (.const { ty := some .int } (.int 1)))),
                .ret {} (some (.binary { ty := some .int } .add
                  (.call { ty := some .int } "first" [.var { ty := some (.array .int) } "xs"])
                  (.const { ty := some .int } (.int 1))))] }]

theorem analyze_readingsAnalyzed :
    (readings.analyze ⟨⟨2, false⟩, ⟨true⟩⟩).result = .ok readingsAnalyzed ∧
      (readingsAnalyzed.analyze ⟨⟨2, false⟩, ⟨true⟩⟩).result = .ok readingsAnalyzed ∧
      (readingsAnalyzed.expand ⟨2, false⟩).result = .ok readingsAnalyzed ∧
      readingsAnalyzed.check.result = .ok readingsAnalyzed := by
  have h : (readings.analyze ⟨⟨2, false⟩, ⟨true⟩⟩).result = .ok readingsAnalyzed := by rfl
  obtain ⟨hanalyze, hexpand, hcheck, _⟩ :=
    (analyze_yields_fixed_points_of_both_passes readings _).1 readingsAnalyzed h
  exact ⟨h, hanalyze, hexpand, hcheck rfl⟩

end Program

end WhileStatics
