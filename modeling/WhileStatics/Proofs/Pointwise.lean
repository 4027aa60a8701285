import WhileStatics.Proofs.Outcomes
import WhileStatics.Proofs.Sites
import WhileStatics.Proofs.Tables
import Mathlib.Data.Option.Basic

/-!
# Statements related expression by expression

A pass over a method body rebuilds its statements and changes the expressions in
them. `Pointwise R` says this of two statements: they have the same form, and
where one holds an expression the other holds one related to it by `R`, which
may look at the place of the expression and at the variables in scope there.
Facts about expressions are lifted to method bodies through this relation.
-/

namespace WhileStatics

/-- The places in statements that expressions stand in. -/
inductive Place where
  | value
  | target
  | guard

/-- A relation between the expressions that two statements hold at one place. -/
abbrev Change := Place → Context → Expr → Expr → Prop

/-- The initial values are related and nothing else differs. -/
def VarDecl.Pointwise (R : Change) (Γ : Context) (d d' : VarDecl) : Prop :=
  ∃ init, Option.Rel (R .value Γ) d.init init ∧ d' = { d with init }

namespace Stmt

mutual

/-- The statements have the same form, and the expressions in them are related. -/
def Pointwise (R : Change) (Γ : Context) : Stmt → Stmt → Prop
  | .assertion span c, s => ∃ c', R .value Γ c c' ∧ s = .assertion span c'
  | .print span e, s => ∃ e', R .value Γ e e' ∧ s = .print span e'
  | .assign span t e, s => ∃ t' e', R .target Γ t t' ∧ R .value Γ e e' ∧ s = .assign span t' e'
  | .ret span e, s => ∃ e', Option.Rel (R .value Γ) e e' ∧ s = .ret span e'
  | .jump span j, s => s = .jump span j
  | .decl d, s => ∃ d', d.Pointwise R Γ d' ∧ s = .decl d'
  | .branch span c yes no, s => ∃ c' yes' no', R .value Γ c c' ∧
      BlockPointwise R Γ yes yes' ∧ BlockPointwise R Γ no no' ∧ s = .branch span c' yes' no'
  | .forLoop span d c step body, s => ∃ d' c' step' body', d.Pointwise R Γ d' ∧
      R .value (d.extend Γ) c c' ∧ Pointwise R (d.extend Γ) step step' ∧
      BlockPointwise R (step.extend (d.extend Γ)) body body' ∧
      s = .forLoop span d' c' step' body'
  | .loop span test c body, s => ∃ c' body', R .value Γ c c' ∧
      BlockPointwise R Γ body body' ∧ s = .loop span test c' body'
  | .switch span e cs, s => ∃ e' cs', R .value Γ e e' ∧ CasesPointwise R Γ cs cs' ∧
      s = .switch span e' cs'
  | .call span n as, s => ∃ as', List.Forall₂ (R .value Γ) as as' ∧ s = .call span n as'

/-- The same for blocks, statement by statement. -/
def BlockPointwise (R : Change) (Γ : Context) : List Stmt → List Stmt → Prop
  | [], block => block = []
  | s :: ss, block => ∃ s' ss', Pointwise R Γ s s' ∧ BlockPointwise R (s.extend Γ) ss ss' ∧
      block = s' :: ss'

/-- The same for cases, guards and bodies. -/
def CasesPointwise (R : Change) (Γ : Context) : List Case → List Case → Prop
  | [], cases => cases = []
  | .mk span g body :: cs, cases => ∃ g' body' cs', Option.Rel (R .guard Γ) g g' ∧
      BlockPointwise R Γ body body' ∧ CasesPointwise R Γ cs cs' ∧
      cases = .mk span g' body' :: cs'

end

end Stmt

variable {R S T : Change} {Γ : Context}

/-! ### The context after a related statement -/

theorem VarDecl.Pointwise.extend_eq {d d' : VarDecl} (h : d.Pointwise R Γ d') (Δ : Context) :
    d'.extend Δ = d.extend Δ := by
  obtain ⟨init, _, rfl⟩ := h
  rfl

theorem Stmt.Pointwise.extend_eq {s s' : Stmt} (h : s.Pointwise R Γ s') (Δ : Context) :
    s'.extend Δ = s.extend Δ := by
  cases s with
  | decl d =>
      obtain ⟨d', hd, rfl⟩ := h
      exact hd.extend_eq Δ
  | _ => grind [Stmt.Pointwise, Stmt.extend]

/-! ### Reversal -/

/-- The relation the other way round. -/
def Change.flip (R : Change) : Change := fun place Γ e e' => R place Γ e' e

theorem option_rel_flip {α β : Type} {r : α → β → Prop} {a : Option α} {b : Option β}
    (h : Option.Rel r a b) : Option.Rel (fun b a => r a b) b a := by
  cases h with
  | some h => exact .some h
  | none => exact .none

theorem VarDecl.Pointwise.symm {d d' : VarDecl} (h : d.Pointwise R Γ d') :
    d'.Pointwise R.flip Γ d := by
  obtain ⟨init, hinit, rfl⟩ := h
  exact ⟨d.init, option_rel_flip hinit, rfl⟩

namespace Stmt

mutual

theorem Pointwise.symm {Γ : Context} :
    {s s' : Stmt} → s.Pointwise R Γ s' → s'.Pointwise R.flip Γ s
  | .assertion _ c, _, ⟨_, hc, rfl⟩ => ⟨c, hc, rfl⟩
  | .print _ e, _, ⟨_, he, rfl⟩ => ⟨e, he, rfl⟩
  | .assign _ t e, _, ⟨_, _, ht, he, rfl⟩ => ⟨t, e, ht, he, rfl⟩
  | .ret _ e, _, ⟨_, he, rfl⟩ => ⟨e, option_rel_flip he, rfl⟩
  | .jump _ _, _, rfl => rfl
  | .decl d, _, ⟨_, hd, rfl⟩ => ⟨d, hd.symm, rfl⟩
  | .branch _ c yes no, _, ⟨_, _, _, hc, hyes, hno, rfl⟩ =>
      ⟨c, yes, no, hc, hyes.symm, hno.symm, rfl⟩
  | .forLoop _ d c step body, _, ⟨_, _, _, _, hd, hc, hstep, hbody, rfl⟩ => by
      refine ⟨d, c, step, body, hd.symm, ?_, ?_, ?_, rfl⟩
      · rw [hd.extend_eq]
        exact hc
      · rw [hd.extend_eq]
        exact hstep.symm
      · rw [hd.extend_eq, hstep.extend_eq]
        exact hbody.symm
  | .loop _ _ c body, _, ⟨_, _, hc, hbody, rfl⟩ => ⟨c, body, hc, hbody.symm, rfl⟩
  | .switch _ e cs, _, ⟨_, _, he, hcs, rfl⟩ => ⟨e, cs, he, hcs.symm, rfl⟩
  | .call _ _ as, _, ⟨_, has, rfl⟩ => ⟨as, has.flip, rfl⟩

theorem BlockPointwise.symm {Γ : Context} :
    {ss ss' : List Stmt} → BlockPointwise R Γ ss ss' → BlockPointwise R.flip Γ ss' ss
  | [], _, rfl => rfl
  | s :: ss, _, ⟨_, _, hs, hss, rfl⟩ => by
      refine ⟨s, ss, hs.symm, ?_, rfl⟩
      rw [hs.extend_eq]
      exact hss.symm

theorem CasesPointwise.symm {Γ : Context} :
    {cs cs' : List Case} → CasesPointwise R Γ cs cs' → CasesPointwise R.flip Γ cs' cs
  | [], _, rfl => rfl
  | .mk _ g body :: cs, _, ⟨_, _, _, hg, hbody, hcs, rfl⟩ =>
      ⟨g, body, cs, option_rel_flip hg, hbody.symm, hcs.symm, rfl⟩

end

end Stmt

/-! ### A result with itself -/

/-- Whatever `R` leads to is related to itself by `S`. -/
def Change.Settles (R S : Change) : Prop :=
  ∀ place Γ ⦃e e'⦄, R place Γ e e' → S place Γ e' e'

theorem option_rel_right {α : Type} {r s : α → α → Prop} (hs : ∀ ⦃a b⦄, r a b → s b b)
    {o o' : Option α} (h : Option.Rel r o o') : Option.Rel s o' o' := by
  cases h with
  | some h => exact .some (hs h)
  | none => exact .none

theorem forall₂_right {α : Type} {r s : α → α → Prop} (hs : ∀ ⦃a b⦄, r a b → s b b)
    {as bs : List α} (h : List.Forall₂ r as bs) : List.Forall₂ s bs bs := by
  induction h with
  | nil => exact .nil
  | cons h _ ih => exact .cons (hs h) ih

theorem VarDecl.Pointwise.right (hS : Change.Settles R S) {d d' : VarDecl}
    (h : d.Pointwise R Γ d') : d'.Pointwise S Γ d' := by
  obtain ⟨init, hinit, rfl⟩ := h
  exact ⟨init, option_rel_right (hS _ _) hinit, rfl⟩

namespace Stmt

mutual

theorem Pointwise.right (hS : Change.Settles R S) {Γ : Context} :
    {s s' : Stmt} → s.Pointwise R Γ s' → s'.Pointwise S Γ s'
  | .assertion .., _, ⟨_, hc, rfl⟩ => ⟨_, hS _ _ hc, rfl⟩
  | .print .., _, ⟨_, he, rfl⟩ => ⟨_, hS _ _ he, rfl⟩
  | .assign .., _, ⟨_, _, ht, he, rfl⟩ => ⟨_, _, hS _ _ ht, hS _ _ he, rfl⟩
  | .ret .., _, ⟨_, he, rfl⟩ => ⟨_, option_rel_right (hS _ _) he, rfl⟩
  | .jump .., _, rfl => rfl
  | .decl _, _, ⟨_, hd, rfl⟩ => ⟨_, hd.right hS, rfl⟩
  | .branch .., _, ⟨_, _, _, hc, hyes, hno, rfl⟩ =>
      ⟨_, _, _, hS _ _ hc, hyes.right hS, hno.right hS, rfl⟩
  | .forLoop .., _, ⟨_, _, _, _, hd, hc, hstep, hbody, rfl⟩ => by
      refine ⟨_, _, _, _, hd.right hS, ?_, ?_, ?_, rfl⟩
      · rw [hd.extend_eq]
        exact hS _ _ hc
      · rw [hd.extend_eq]
        exact hstep.right hS
      · rw [hd.extend_eq, hstep.extend_eq]
        exact hbody.right hS
  | .loop .., _, ⟨_, _, hc, hbody, rfl⟩ => ⟨_, _, hS _ _ hc, hbody.right hS, rfl⟩
  | .switch .., _, ⟨_, _, he, hcs, rfl⟩ => ⟨_, _, hS _ _ he, hcs.right hS, rfl⟩
  | .call .., _, ⟨_, has, rfl⟩ => ⟨_, forall₂_right (hS _ _) has, rfl⟩

theorem BlockPointwise.right (hS : Change.Settles R S) {Γ : Context} :
    {ss ss' : List Stmt} → BlockPointwise R Γ ss ss' → BlockPointwise S Γ ss' ss'
  | [], _, rfl => rfl
  | _ :: _, _, ⟨_, _, hs, hss, rfl⟩ => by
      refine ⟨_, _, hs.right hS, ?_, rfl⟩
      rw [hs.extend_eq]
      exact hss.right hS

theorem CasesPointwise.right (hS : Change.Settles R S) {Γ : Context} :
    {cs cs' : List Case} → CasesPointwise R Γ cs cs' → CasesPointwise S Γ cs' cs'
  | [], _, rfl => rfl
  | .mk .. :: _, _, ⟨_, _, _, hg, hbody, hcs, rfl⟩ =>
      ⟨_, _, _, option_rel_right (hS _ _) hg, hbody.right hS, hcs.right hS, rfl⟩

end

end Stmt

/-! ### Composition -/

/-- A change by `R` and then by `S` is one by `T`. -/
def Change.Composes (R S T : Change) : Prop :=
  ∀ place Γ ⦃a b c⦄, R place Γ a b → S place Γ b c → T place Γ a c

theorem option_rel_trans {α : Type} {r s t : α → α → Prop}
    (ht : ∀ ⦃a b c⦄, r a b → s b c → t a c) {a b c : Option α} (hab : Option.Rel r a b)
    (hbc : Option.Rel s b c) : Option.Rel t a c := by
  cases hab with
  | some hab =>
      cases hbc with
      | some hbc => exact .some (ht hab hbc)
  | none =>
      cases hbc with
      | none => exact .none

theorem forall₂_trans {α : Type} {r s t : α → α → Prop} (ht : ∀ ⦃a b c⦄, r a b → s b c → t a c)
    {as bs cs : List α} (hab : List.Forall₂ r as bs) (hbc : List.Forall₂ s bs cs) :
    List.Forall₂ t as cs := by
  induction hab generalizing cs with
  | nil =>
      cases hbc with
      | nil => exact .nil
  | cons hab _ ih =>
      cases hbc with
      | cons hbc hbcs => exact .cons (ht hab hbc) (ih hbcs)

theorem VarDecl.Pointwise.trans (hT : Change.Composes R S T) {d₁ d₂ d₃ : VarDecl}
    (h : d₁.Pointwise R Γ d₂) (h' : d₂.Pointwise S Γ d₃) : d₁.Pointwise T Γ d₃ := by
  obtain ⟨init, hinit, rfl⟩ := h
  obtain ⟨init', hinit', rfl⟩ := h'
  exact ⟨init', option_rel_trans (hT _ _) hinit hinit', rfl⟩

namespace Stmt

mutual

theorem Pointwise.trans (hT : Change.Composes R S T) {Γ : Context} :
    {s₁ s₂ s₃ : Stmt} → s₁.Pointwise R Γ s₂ → s₂.Pointwise S Γ s₃ → s₁.Pointwise T Γ s₃
  | .assertion .., _, _, ⟨_, hc, rfl⟩, ⟨_, hc', rfl⟩ => ⟨_, hT _ _ hc hc', rfl⟩
  | .print .., _, _, ⟨_, he, rfl⟩, ⟨_, he', rfl⟩ => ⟨_, hT _ _ he he', rfl⟩
  | .assign .., _, _, ⟨_, _, ht, he, rfl⟩, ⟨_, _, ht', he', rfl⟩ =>
      ⟨_, _, hT _ _ ht ht', hT _ _ he he', rfl⟩
  | .ret .., _, _, ⟨_, he, rfl⟩, ⟨_, he', rfl⟩ => ⟨_, option_rel_trans (hT _ _) he he', rfl⟩
  | .jump .., _, _, rfl, rfl => rfl
  | .decl _, _, _, ⟨_, hd, rfl⟩, ⟨_, hd', rfl⟩ => ⟨_, hd.trans hT hd', rfl⟩
  | .branch .., _, _, ⟨_, _, _, hc, hyes, hno, rfl⟩, ⟨_, _, _, hc', hyes', hno', rfl⟩ =>
      ⟨_, _, _, hT _ _ hc hc', hyes.trans hT hyes', hno.trans hT hno', rfl⟩
  | .forLoop .., _, _, ⟨_, _, _, _, hd, hc, hstep, hbody, rfl⟩,
      ⟨_, _, _, _, hd', hc', hstep', hbody', rfl⟩ => by
      rw [hd.extend_eq] at hc' hstep' hbody'
      rw [hstep.extend_eq] at hbody'
      exact ⟨_, _, _, _, hd.trans hT hd', hT _ _ hc hc', hstep.trans hT hstep',
        hbody.trans hT hbody', rfl⟩
  | .loop .., _, _, ⟨_, _, hc, hbody, rfl⟩, ⟨_, _, hc', hbody', rfl⟩ =>
      ⟨_, _, hT _ _ hc hc', hbody.trans hT hbody', rfl⟩
  | .switch .., _, _, ⟨_, _, he, hcs, rfl⟩, ⟨_, _, he', hcs', rfl⟩ =>
      ⟨_, _, hT _ _ he he', hcs.trans hT hcs', rfl⟩
  | .call .., _, _, ⟨_, has, rfl⟩, ⟨_, has', rfl⟩ => ⟨_, forall₂_trans (hT _ _) has has', rfl⟩

theorem BlockPointwise.trans (hT : Change.Composes R S T) {Γ : Context} :
    {ss₁ ss₂ ss₃ : List Stmt} → BlockPointwise R Γ ss₁ ss₂ → BlockPointwise S Γ ss₂ ss₃ →
      BlockPointwise T Γ ss₁ ss₃
  | [], _, _, rfl, rfl => rfl
  | _ :: _, _, _, ⟨_, _, hs, hss, rfl⟩, ⟨_, _, hs', hss', rfl⟩ => by
      rw [hs.extend_eq] at hss'
      exact ⟨_, _, hs.trans hT hs', hss.trans hT hss', rfl⟩

theorem CasesPointwise.trans (hT : Change.Composes R S T) {Γ : Context} :
    {cs₁ cs₂ cs₃ : List Case} → CasesPointwise R Γ cs₁ cs₂ → CasesPointwise S Γ cs₂ cs₃ →
      CasesPointwise T Γ cs₁ cs₃
  | [], _, _, rfl, rfl => rfl
  | .mk .. :: _, _, _, ⟨_, _, _, hg, hbody, hcs, rfl⟩, ⟨_, _, _, hg', hbody', hcs', rfl⟩ =>
      ⟨_, _, _, option_rel_trans (hT _ _) hg hg', hbody.trans hT hbody', hcs.trans hT hcs', rfl⟩

end

end Stmt

/-! ### Sites -/

/-- The sites have one context, and what stands there is related, whatever the place. -/
def Change.AtSites (R : Change) (site site' : Context × Expr) : Prop :=
  site'.1 = site.1 ∧ ∃ place, R place site.1 site.2 site'.2

theorem forall₂_optionSites {place : Place} {o o' : Option Expr}
    (h : Option.Rel (R place Γ) o o') :
    List.Forall₂ R.AtSites (o.toList.map (Γ, ·)) (o'.toList.map (Γ, ·)) := by
  cases h with
  | some h => exact .cons ⟨rfl, place, h⟩ .nil
  | none => exact .nil

namespace Stmt

mutual

/-- Related statements have related expressions at their sites, one by one. -/
theorem Pointwise.forall₂_sites {Γ : Context} :
    {s s' : Stmt} → s.Pointwise R Γ s' → List.Forall₂ R.AtSites (s.sites Γ) (s'.sites Γ)
  | .assertion .., _, ⟨_, hc, rfl⟩ => .cons ⟨rfl, _, hc⟩ .nil
  | .print .., _, ⟨_, he, rfl⟩ => .cons ⟨rfl, _, he⟩ .nil
  | .assign .., _, ⟨_, _, ht, he, rfl⟩ => .cons ⟨rfl, _, ht⟩ (.cons ⟨rfl, _, he⟩ .nil)
  | .ret .., _, ⟨_, he, rfl⟩ => forall₂_optionSites he
  | .jump .., _, rfl => .nil
  | .decl _, _, ⟨_, ⟨_, hinit, rfl⟩, rfl⟩ => forall₂_optionSites hinit
  | .branch .., _, ⟨_, _, _, hc, hyes, hno, rfl⟩ =>
      .cons ⟨rfl, _, hc⟩ (List.rel_append hyes.forall₂_sites hno.forall₂_sites)
  | .forLoop .., _, ⟨_, _, _, _, hd, hc, hstep, hbody, rfl⟩ => by
      simp only [sites, hd.extend_eq, hstep.extend_eq]
      obtain ⟨_, hinit, rfl⟩ := hd
      refine List.rel_append (forall₂_optionSites hinit) (.cons ⟨rfl, _, hc⟩ ?_)
      exact List.rel_append hstep.forall₂_sites hbody.forall₂_sites
  | .loop .., _, ⟨_, _, hc, hbody, rfl⟩ => .cons ⟨rfl, _, hc⟩ hbody.forall₂_sites
  | .switch .., _, ⟨_, _, he, hcs, rfl⟩ => .cons ⟨rfl, _, he⟩ hcs.forall₂_sites
  | .call .., _, ⟨_, has, rfl⟩ => by
      simp only [sites, List.forall₂_map_left_iff, List.forall₂_map_right_iff]
      exact has.imp fun _ _ h => ⟨rfl, _, h⟩

theorem BlockPointwise.forall₂_sites {Γ : Context} : {ss ss' : List Stmt} →
    BlockPointwise R Γ ss ss' → List.Forall₂ R.AtSites (blockSites Γ ss) (blockSites Γ ss')
  | [], _, rfl => .nil
  | _ :: _, _, ⟨_, _, hs, hss, rfl⟩ => by
      simp only [blockSites, hs.extend_eq]
      exact List.rel_append hs.forall₂_sites hss.forall₂_sites

theorem CasesPointwise.forall₂_sites {Γ : Context} : {cs cs' : List Case} →
    CasesPointwise R Γ cs cs' → List.Forall₂ R.AtSites (caseSites Γ cs) (caseSites Γ cs')
  | [], _, rfl => .nil
  | .mk .. :: _, _, ⟨_, _, _, hg, hbody, hcs, rfl⟩ =>
      List.rel_append (forall₂_optionSites hg)
        (List.rel_append hbody.forall₂_sites hcs.forall₂_sites)

end

end Stmt

/-! ### Images under a function -/

section Images

variable {f : Expr → Expr} {P : Context → Expr → Prop}

theorem option_rel_map {α β : Type} {r : α → β → Prop} {g : α → β} {o : Option α}
    (h : ∀ a ∈ o, r a (g a)) : Option.Rel r o (o.map g) := by
  cases o with
  | none => exact .none
  | some a => exact .some (h a rfl)

theorem forall₂_map {α β : Type} {r : α → β → Prop} {g : α → β} {as : List α}
    (h : ∀ a ∈ as, r a (g a)) : List.Forall₂ r as (as.map g) :=
  List.forall₂_map_right_iff.2 (List.forall₂_same.2 h)

theorem option_map_eq_of_rel {α β : Type} {r : α → α → Prop} {g : α → β}
    (hr : ∀ ⦃a b⦄, r a b → g b = g a) {o o' : Option α} (h : Option.Rel r o o') :
    o'.map g = o.map g := by
  cases h with
  | some h => simp [hr h]
  | none => rfl

theorem map_eq_of_forall₂ {α β : Type} {r : α → α → Prop} {g : α → β}
    (hr : ∀ ⦃a b⦄, r a b → g b = g a) {as bs : List α} (h : List.Forall₂ r as bs) :
    bs.map g = as.map g := by
  induction h with
  | nil => rfl
  | cons hab _ ih => simp [hr hab, ih]

/-- Related expressions have one image under `f`. -/
def Change.Preserves (R : Change) (f : Expr → Expr) : Prop :=
  ∀ place Γ ⦃e e'⦄, R place Γ e e' → f e' = f e

/-- Whatever `R` leads to has the property `P`. -/
def Change.Ensures (R : Change) (P : Context → Expr → Prop) : Prop :=
  ∀ place Γ ⦃e e'⦄, R place Γ e e' → P Γ e'

theorem VarDecl.Pointwise.mapExprs_eq (hR : R.Preserves f) {d d' : VarDecl}
    (h : d.Pointwise R Γ d') : d'.mapExprs f = d.mapExprs f := by
  obtain ⟨init, hinit, rfl⟩ := h
  simp only [VarDecl.mapExprs, option_map_eq_of_rel (hR _ _) hinit]

/-- The expressions agree under `f`, and the second one has the property `P`. -/
def Change.agreeing (f : Expr → Expr) (P : Context → Expr → Prop) : Change :=
  fun _ Γ e e' => f e' = f e ∧ P Γ e'

/-- The expression has the property `P`, and the other one is its image under `f`. -/
def Change.image (f : Expr → Expr) (P : Context → Expr → Prop) : Change :=
  fun _ Γ e e' => P Γ e ∧ e' = f e

theorem VarDecl.pointwise_mapExprs {d : VarDecl}
    (h : ∀ site ∈ d.init.toList.map (Γ, ·), P site.1 site.2) :
    d.Pointwise (Change.image f P) Γ (d.mapExprs f) :=
  ⟨_, option_rel_map fun e he => ⟨h (Γ, e) (by simpa using he), rfl⟩, rfl⟩

namespace Stmt

mutual

theorem pointwise_mapExprs {Γ : Context} : {s : Stmt} →
    (∀ site ∈ s.sites Γ, P site.1 site.2) → s.Pointwise (Change.image f P) Γ (s.mapExprs f)
  | .assertion _ c, h => ⟨_, ⟨h (Γ, c) (by simp [sites]), rfl⟩, rfl⟩
  | .print _ e, h => ⟨_, ⟨h (Γ, e) (by simp [sites]), rfl⟩, rfl⟩
  | .assign _ t e, h =>
      ⟨_, _, ⟨h (Γ, t) (by simp [sites]), rfl⟩, ⟨h (Γ, e) (by simp [sites]), rfl⟩, rfl⟩
  | .ret _ _, h => ⟨_, option_rel_map fun e he => ⟨h (Γ, e) (by simpa [sites] using he), rfl⟩, rfl⟩
  | .jump .., _ => rfl
  | .decl _, h => ⟨_, VarDecl.pointwise_mapExprs h, rfl⟩
  | .branch .., h => by
      simp only [sites, List.forall_mem_cons, List.forall_mem_append] at h
      exact ⟨_, _, _, ⟨h.1, rfl⟩, blockPointwise_mapExprs h.2.1, blockPointwise_mapExprs h.2.2, rfl⟩
  | .forLoop .., h => by
      simp only [sites, List.forall_mem_cons, List.forall_mem_append] at h
      exact ⟨_, _, _, _, VarDecl.pointwise_mapExprs h.1, ⟨h.2.1, rfl⟩, pointwise_mapExprs h.2.2.1,
        blockPointwise_mapExprs h.2.2.2, rfl⟩
  | .loop .., h => by
      simp only [sites, List.forall_mem_cons] at h
      exact ⟨_, _, ⟨h.1, rfl⟩, blockPointwise_mapExprs h.2, rfl⟩
  | .switch .., h => by
      simp only [sites, List.forall_mem_cons] at h
      exact ⟨_, _, ⟨h.1, rfl⟩, casesPointwise_mapExprs h.2, rfl⟩
  | .call _ _ _, h => ⟨_, forall₂_map fun e he => ⟨h (Γ, e) (by simpa [sites] using he), rfl⟩, rfl⟩

theorem blockPointwise_mapExprs {Γ : Context} : {ss : List Stmt} →
    (∀ site ∈ blockSites Γ ss, P site.1 site.2) →
      BlockPointwise (Change.image f P) Γ ss (mapExprsBlock f ss)
  | [], _ => rfl
  | _ :: _, h => by
      simp only [blockSites, List.forall_mem_append] at h
      exact ⟨_, _, pointwise_mapExprs h.1, blockPointwise_mapExprs h.2, rfl⟩

theorem casesPointwise_mapExprs {Γ : Context} : {cs : List Case} →
    (∀ site ∈ caseSites Γ cs, P site.1 site.2) →
      CasesPointwise (Change.image f P) Γ cs (mapExprsCases f cs)
  | [], _ => rfl
  | .mk _ _ _ :: _, h => by
      simp only [caseSites, List.forall_mem_append] at h
      exact ⟨_, _, _, option_rel_map fun e he => ⟨h.1 (Γ, e) (by simpa using he), rfl⟩,
        blockPointwise_mapExprs h.2.1, casesPointwise_mapExprs h.2.2, rfl⟩

end

mutual

theorem Pointwise.mapExprs_eq (hR : R.Preserves f) {Γ : Context} :
    {s s' : Stmt} → s.Pointwise R Γ s' → s'.mapExprs f = s.mapExprs f
  | .assertion .., _, ⟨_, hc, rfl⟩ => by simp only [mapExprs, hR _ _ hc]
  | .print .., _, ⟨_, he, rfl⟩ => by simp only [mapExprs, hR _ _ he]
  | .assign .., _, ⟨_, _, ht, he, rfl⟩ => by simp only [mapExprs, hR _ _ ht, hR _ _ he]
  | .ret .., _, ⟨_, he, rfl⟩ => by simp only [mapExprs, option_map_eq_of_rel (hR _ _) he]
  | .jump .., _, rfl => rfl
  | .decl _, _, ⟨_, hd, rfl⟩ => by simp only [mapExprs, hd.mapExprs_eq hR]
  | .branch .., _, ⟨_, _, _, hc, hyes, hno, rfl⟩ => by
      simp only [mapExprs, hR _ _ hc, hyes.mapExprs_eq hR, hno.mapExprs_eq hR]
  | .forLoop .., _, ⟨_, _, _, _, hd, hc, hstep, hbody, rfl⟩ => by
      simp only [mapExprs, hd.mapExprs_eq hR, hR _ _ hc, hstep.mapExprs_eq hR,
        hbody.mapExprs_eq hR]
  | .loop .., _, ⟨_, _, hc, hbody, rfl⟩ => by
      simp only [mapExprs, hR _ _ hc, hbody.mapExprs_eq hR]
  | .switch .., _, ⟨_, _, he, hcs, rfl⟩ => by
      simp only [mapExprs, hR _ _ he, hcs.mapExprs_eq hR]
  | .call .., _, ⟨_, has, rfl⟩ => by simp only [mapExprs, map_eq_of_forall₂ (hR _ _) has]

theorem BlockPointwise.mapExprs_eq (hR : R.Preserves f) {Γ : Context} :
    {ss ss' : List Stmt} → BlockPointwise R Γ ss ss' → mapExprsBlock f ss' = mapExprsBlock f ss
  | [], _, rfl => rfl
  | _ :: _, _, ⟨_, _, hs, hss, rfl⟩ => by
      simp only [mapExprsBlock, hs.mapExprs_eq hR, hss.mapExprs_eq hR]

theorem CasesPointwise.mapExprs_eq (hR : R.Preserves f) {Γ : Context} :
    {cs cs' : List Case} → CasesPointwise R Γ cs cs' → mapExprsCases f cs' = mapExprsCases f cs
  | [], _, rfl => rfl
  | .mk .. :: _, _, ⟨_, _, _, hg, hbody, hcs, rfl⟩ => by
      simp only [mapExprsCases, option_map_eq_of_rel (hR _ _) hg, hbody.mapExprs_eq hR,
        hcs.mapExprs_eq hR]

end

theorem BlockPointwise.forall_sites (hR : R.Ensures P) {ss ss' : List Stmt}
    (h : BlockPointwise R Γ ss ss') : ∀ site ∈ blockSites Γ ss', P site.1 site.2 := by
  refine forall_mem_of_forall₂ h.forall₂_sites ?_
  rintro ⟨Δ, e⟩ _ ⟨_, e'⟩ ⟨rfl, place, he⟩
  exact hR place _ he

/-- Blocks are related by agreement under `f` exactly when they have one image. -/
theorem blockPointwise_agreeing_iff {ss ss' : List Stmt} :
    BlockPointwise (Change.agreeing f P) Γ ss ss' ↔
      mapExprsBlock f ss' = mapExprsBlock f ss ∧ ∀ site ∈ blockSites Γ ss', P site.1 site.2 := by
  constructor
  · intro h
    exact ⟨h.mapExprs_eq fun _ _ _ _ h => h.1, h.forall_sites fun _ _ _ _ h => h.2⟩
  · rintro ⟨heq, hP⟩
    have hleft : BlockPointwise (Change.image f fun _ _ => True) Γ ss (mapExprsBlock f ss) :=
      blockPointwise_mapExprs (by simp)
    have hright : BlockPointwise (Change.image f P) Γ ss' (mapExprsBlock f ss') :=
      blockPointwise_mapExprs hP
    rw [heq] at hright
    refine hleft.trans ?_ hright.symm
    rintro _ _ e _ e' ⟨_, rfl⟩ ⟨hP', he⟩
    exact ⟨he.symm, hP'⟩

end Stmt

end Images

/-! ### Programs -/

/-- The bodies of methods are related, and other declarations are the same. -/
def Decl.Pointwise (R : Change) : Decl → Decl → Prop
  | .method m, d => ∃ body, Stmt.BlockPointwise R m.context m.body body ∧
      d = .method { m with body }
  | .type t, d => d = .type t
  | .macroDecl m, d => d = .macroDecl m

/-- The declarations are related one by one. -/
def Program.Pointwise (R : Change) (p q : Program) : Prop :=
  ∃ decls, List.Forall₂ (Decl.Pointwise R) p.decls decls ∧ q = { p with decls }

/-- Only the bodies of methods differ. -/
theorem Decl.Pointwise.eq_or_method : {d d' : Decl} → d.Pointwise R d' →
    d' = d ∨ ∃ m body, d = .method m ∧ d' = .method { m with body }
  | .method m, _, ⟨body, _, rfl⟩ => .inr ⟨m, body, rfl, rfl⟩
  | .type _, _, rfl => .inl rfl
  | .macroDecl _, _, rfl => .inl rfl

theorem Decl.Pointwise.right (hS : Change.Settles R S) :
    {d d' : Decl} → d.Pointwise R d' → d'.Pointwise S d'
  | .method _, _, ⟨_, hbody, rfl⟩ => ⟨_, hbody.right hS, rfl⟩
  | .type _, _, rfl => rfl
  | .macroDecl _, _, rfl => rfl

theorem Decl.Pointwise.trans (hT : Change.Composes R S T) :
    {d₁ d₂ d₃ : Decl} → d₁.Pointwise R d₂ → d₂.Pointwise S d₃ → d₁.Pointwise T d₃
  | .method _, _, _, ⟨_, hbody, rfl⟩, ⟨_, hbody', rfl⟩ => ⟨_, hbody.trans hT hbody', rfl⟩
  | .type _, _, _, rfl, rfl => rfl
  | .macroDecl _, _, _, rfl, rfl => rfl

theorem Decl.Pointwise.symm : {d d' : Decl} → d.Pointwise R d' → d'.Pointwise R.flip d
  | .method m, _, ⟨_, hbody, rfl⟩ => ⟨m.body, hbody.symm, rfl⟩
  | .type _, _, rfl => rfl
  | .macroDecl _, _, rfl => rfl

namespace Program.Pointwise

variable {p q r : Program}

theorem symm (h : p.Pointwise R q) : q.Pointwise R.flip p := by
  obtain ⟨decls, hdecls, rfl⟩ := h
  refine ⟨p.decls, hdecls.flip.imp ?_, rfl⟩
  intro d d' hd
  exact Decl.Pointwise.symm hd

/-- Every method of the second program is one of the first with a related body. -/
theorem exists_method (h : p.Pointwise R q) {m : Method} (hm : m ∈ q.methods) :
    ∃ m₀ ∈ p.methods, ∃ body, Stmt.BlockPointwise R m₀.context m₀.body body ∧
      m = { m₀ with body } := by
  obtain ⟨decls, hdecls, rfl⟩ := h
  obtain ⟨d, hd, hmethod⟩ := exists_mem_of_forall₂ hdecls (mem_methods.1 hm)
  cases d with
  | method m₀ =>
      obtain ⟨body, hbody, heq⟩ := hmethod
      exact ⟨m₀, mem_methods.2 hd, body, hbody, Decl.method.inj heq⟩
  | type _ => cases hmethod
  | macroDecl _ => cases hmethod

/-- Every expression in the second program comes from one in the first. -/
theorem exists_site (h : p.Pointwise R q) {m : Method} (hm : m ∈ q.methods)
    {site : Context × Expr} (hsite : site ∈ m.sites) :
    ∃ m₀ ∈ p.methods, ∃ site₀ ∈ m₀.sites, R.AtSites site₀ site := by
  obtain ⟨m₀, hm₀, body, hbody, rfl⟩ := h.exists_method hm
  exact ⟨m₀, hm₀, exists_mem_of_forall₂ hbody.forall₂_sites hsite⟩

/-- What the relation ensures of an expression holds at every site of the second program. -/
theorem forall_sites {P : Context → Expr → Prop} (hR : R.Ensures P) (h : p.Pointwise R q) :
    ∀ m ∈ q.methods, ∀ site ∈ m.sites, P site.1 site.2 := by
  rintro m hm ⟨Γ, e⟩ hsite
  obtain ⟨_, _, ⟨_, e₀⟩, _, rfl, place, he⟩ := h.exists_site hm hsite
  exact hR place _ he

theorem right (hS : Change.Settles R S) (h : p.Pointwise R q) : q.Pointwise S q := by
  obtain ⟨decls, hdecls, rfl⟩ := h
  refine ⟨decls, forall₂_right ?_ hdecls, rfl⟩
  intro d d' hd
  exact hd.right hS

theorem trans (hT : Change.Composes R S T) (h : p.Pointwise R q) (h' : q.Pointwise S r) :
    p.Pointwise T r := by
  obtain ⟨decls, hdecls, rfl⟩ := h
  obtain ⟨decls', hdecls', rfl⟩ := h'
  refine ⟨decls', forall₂_trans ?_ hdecls hdecls', rfl⟩
  intro d₁ d₂ d₃ h h'
  exact Decl.Pointwise.trans hT h h'

theorem filterMap_eq_of_forall₂ {α β : Type} {r : α → α → Prop} {g : α → Option β}
    (hr : ∀ ⦃a b⦄, r a b → g b = g a) {as bs : List α} (h : List.Forall₂ r as bs) :
    bs.filterMap g = as.filterMap g := by
  induction h with
  | nil => rfl
  | cons hab _ ih => rw [List.filterMap_cons, List.filterMap_cons, hr hab, ih]

theorem path_eq (h : p.Pointwise R q) : q.path = p.path := by
  obtain ⟨decls, _, rfl⟩ := h
  rfl

/-- Related programs have the same macros. -/
theorem macros_eq (h : p.Pointwise R q) : q.macros = p.macros := by
  obtain ⟨decls, hdecls, rfl⟩ := h
  refine filterMap_eq_of_forall₂ ?_ hdecls
  intro d d' hd
  obtain rfl | ⟨m, body, rfl, rfl⟩ := hd.eq_or_method <;> rfl

/-- Related programs have the same types. -/
theorem types_eq (h : p.Pointwise R q) : q.types = p.types := by
  obtain ⟨decls, hdecls, rfl⟩ := h
  refine filterMap_eq_of_forall₂ ?_ hdecls
  intro d d' hd
  obtain rfl | ⟨m, body, rfl, rfl⟩ := hd.eq_or_method <;> rfl

end Program.Pointwise

section Erasure

variable {P : Context → Expr → Prop}

theorem Decl.pointwise_agreeing_erase_iff {d d' : Decl} :
    d.Pointwise (.agreeing Expr.erase P) d' ↔
      d'.erase = d.erase ∧ ∀ m ∈ d'.method?, ∀ site ∈ m.sites, P site.1 site.2 := by
  cases d with
  | method m =>
      cases d' with
      | method m' =>
          simp only [Decl.Pointwise, Stmt.blockPointwise_agreeing_iff, Decl.erase, Decl.method?,
            Decl.method.injEq, Option.mem_some_iff, forall_eq']
          constructor
          · rintro ⟨body, ⟨herase, hsites⟩, rfl⟩
            exact ⟨congrArg (fun body => { m with body }) herase, hsites⟩
          · rintro ⟨herase, hsites⟩
            obtain ⟨name, ret, params, body, span⟩ := m
            obtain ⟨name', ret', params', body', span'⟩ := m'
            obtain ⟨rfl, rfl, rfl, hbody, rfl⟩ := Method.mk.inj herase
            exact ⟨body', ⟨hbody, hsites⟩, rfl⟩
      | _ => simp [Decl.Pointwise, Decl.erase]
  | type t => cases d' <;> simp [Decl.Pointwise, Decl.erase, Decl.method?]
  | macroDecl m => cases d' <;> simp [Decl.Pointwise, Decl.erase, Decl.method?]

theorem forall₂_pointwise_agreeing_erase_iff {decls decls' : List Decl} :
    List.Forall₂ (Decl.Pointwise (.agreeing Expr.erase P)) decls decls' ↔
      decls'.map Decl.erase = decls.map Decl.erase ∧
        ∀ m ∈ decls'.filterMap Decl.method?, ∀ site ∈ m.sites, P site.1 site.2 := by
  induction decls generalizing decls' with
  | nil => cases decls' <;> simp
  | cons d decls ih =>
      cases decls' with
      | nil => simp
      | cons d' decls' =>
          rw [List.forall₂_cons, ih, Decl.pointwise_agreeing_erase_iff]
          simp only [List.map_cons, List.cons.injEq, List.mem_filterMap, List.mem_cons,
            Option.mem_def]
          constructor
          · rintro ⟨⟨hd, hm⟩, hdecls, hms⟩
            refine ⟨⟨hd, hdecls⟩, ?_⟩
            rintro m ⟨e, rfl | he, hme⟩
            · exact hm m hme
            · exact hms m ⟨e, he, hme⟩
          · rintro ⟨⟨hd, hdecls⟩, hms⟩
            exact ⟨⟨hd, fun m hm => hms m ⟨d', .inl rfl, hm⟩⟩, hdecls,
              fun m ⟨e, he, hm⟩ => hms m ⟨e, .inr he, hm⟩⟩

/-- Programs are related by agreement up to slots exactly when they erase to one program. -/
theorem Program.pointwise_agreeing_erase_iff {p q : Program} :
    p.Pointwise (.agreeing Expr.erase P) q ↔
      q.erase = p.erase ∧ ∀ m ∈ q.methods, ∀ site ∈ m.sites, P site.1 site.2 := by
  obtain ⟨path, decls⟩ := p
  obtain ⟨path', decls'⟩ := q
  simp only [Program.Pointwise, forall₂_pointwise_agreeing_erase_iff, Program.erase,
    Program.methods, Program.mk.injEq]
  constructor
  · rintro ⟨_, ⟨hdecls, hsites⟩, rfl, rfl⟩
    exact ⟨⟨rfl, hdecls⟩, hsites⟩
  · rintro ⟨⟨rfl, hdecls⟩, hsites⟩
    exact ⟨decls', ⟨hdecls, hsites⟩, rfl, rfl⟩

end Erasure

end WhileStatics
