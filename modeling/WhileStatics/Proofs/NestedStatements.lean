import WhileStatics.Proofs.Pointwise
import WhileStatics.Proofs.TypingRules

/-!
# Statements in statements

The parts of a statement are the statement itself and those of the blocks in it,
each with the context that it stands in. The variable of a `for` loop counts as
a declaration of its own. What holds of a method body as a whole, that it is the
result of a pass or well typed, holds of each of its parts in its context.
-/

namespace WhileStatics

variable {R : Change} {ds : Declarations} {ret : Ty}

namespace Stmt

mutual

/-- The statements in a statement, itself first, each with its context. -/
def parts (Γ : Context) : Stmt → List (Context × Stmt)
  | .branch span c yes no =>
      (Γ, .branch span c yes no) :: (blockParts Γ yes ++ blockParts Γ no)
  | .forLoop span d c step body =>
      (Γ, .forLoop span d c step body) :: (Γ, .decl d) ::
        (parts (d.extend Γ) step ++ blockParts (step.extend (d.extend Γ)) body)
  | .loop span test c body => (Γ, .loop span test c body) :: blockParts Γ body
  | .switch span e cs => (Γ, .switch span e cs) :: caseParts Γ cs
  | s => [(Γ, s)]

/-- The same for the statements of a block. -/
def blockParts (Γ : Context) : List Stmt → List (Context × Stmt)
  | [] => []
  | s :: ss => parts Γ s ++ blockParts (s.extend Γ) ss

/-- The same for the bodies of cases. -/
def caseParts (Γ : Context) : List Case → List (Context × Stmt)
  | [] => []
  | .mk _ _ body :: cs => blockParts Γ body ++ caseParts Γ cs

end

/-! ### Expressions of the parts -/

mutual

/-- The expressions in a part stand in the whole, in the same context. -/
theorem sites_subset_of_mem_parts {Γ : Context} : (s : Stmt) →
    ∀ part ∈ s.parts Γ, part.2.sites part.1 ⊆ s.sites Γ
  | .assertion .. | .print .. | .assign .. | .ret .. | .jump .. | .decl _ | .call .. => by
      simp [parts]
  | .branch _ _ yes no => by
      simp only [parts, List.forall_mem_cons, List.forall_mem_append]
      refine ⟨List.Subset.refl _, fun part hpart => ?_, fun part hpart => ?_⟩
      · exact List.Subset.trans (blockSites_subset_of_mem_parts yes part hpart) (by simp [sites])
      · exact List.Subset.trans (blockSites_subset_of_mem_parts no part hpart) (by simp [sites])
  | .forLoop _ d _ step body => by
      simp only [parts, List.forall_mem_cons, List.forall_mem_append]
      refine ⟨List.Subset.refl _, by simp [sites], fun part hpart site hsite => ?_,
        fun part hpart site hsite => ?_⟩
      · simp [sites, sites_subset_of_mem_parts step part hpart hsite]
      · simp [sites, blockSites_subset_of_mem_parts body part hpart hsite]
  | .loop _ _ _ body => by
      simp only [parts, List.forall_mem_cons]
      refine ⟨List.Subset.refl _, fun part hpart => ?_⟩
      exact List.Subset.trans (blockSites_subset_of_mem_parts body part hpart) (by simp [sites])
  | .switch _ _ cs => by
      simp only [parts, List.forall_mem_cons]
      refine ⟨List.Subset.refl _, fun part hpart => ?_⟩
      exact List.Subset.trans (caseSites_subset_of_mem_parts cs part hpart) (by simp [sites])

theorem blockSites_subset_of_mem_parts {Γ : Context} : (ss : List Stmt) →
    ∀ part ∈ blockParts Γ ss, part.2.sites part.1 ⊆ blockSites Γ ss
  | [] => by simp [blockParts]
  | s :: ss => by
      simp only [blockParts, List.forall_mem_append]
      refine ⟨fun part hpart => ?_, fun part hpart => ?_⟩
      · exact List.Subset.trans (sites_subset_of_mem_parts s part hpart) (by simp [blockSites])
      · exact List.Subset.trans (blockSites_subset_of_mem_parts ss part hpart)
          (by simp [blockSites])

theorem caseSites_subset_of_mem_parts {Γ : Context} : (cs : List Case) →
    ∀ part ∈ caseParts Γ cs, part.2.sites part.1 ⊆ caseSites Γ cs
  | [] => by simp [caseParts]
  | .mk _ _ body :: cs => by
      simp only [caseParts, List.forall_mem_append]
      refine ⟨fun part hpart => ?_, fun part hpart => ?_⟩
      · exact List.Subset.trans (blockSites_subset_of_mem_parts body part hpart)
          (by simp [caseSites])
      · exact List.Subset.trans (caseSites_subset_of_mem_parts cs part hpart) (by simp [caseSites])

end

end Stmt

/-! ### Parts of related statements -/

/-- The parts have one context, and the statements there are related. -/
def Change.AtParts (R : Change) (part part' : Context × Stmt) : Prop :=
  part'.1 = part.1 ∧ part.2.Pointwise R part.1 part'.2

namespace Stmt

mutual

/-- The parts of related statements are related one by one. -/
theorem Pointwise.forall₂_parts {Γ : Context} :
    {s s' : Stmt} → s.Pointwise R Γ s' → List.Forall₂ R.AtParts (s.parts Γ) (s'.parts Γ)
  | .assertion .., _, h@⟨_, _, rfl⟩ | .print .., _, h@⟨_, _, rfl⟩ | .ret .., _, h@⟨_, _, rfl⟩
  | .decl _, _, h@⟨_, _, rfl⟩ | .call .., _, h@⟨_, _, rfl⟩ => .cons ⟨rfl, h⟩ .nil
  | .assign .., _, h@⟨_, _, _, _, rfl⟩ => .cons ⟨rfl, h⟩ .nil
  | .jump .., _, h@rfl => .cons ⟨rfl, h⟩ .nil
  | .branch .., _, h@⟨_, _, _, _, hyes, hno, rfl⟩ =>
      .cons ⟨rfl, h⟩ (List.rel_append hyes.forall₂_parts hno.forall₂_parts)
  | .forLoop .., _, h@⟨_, _, _, _, hd, _, hstep, hbody, rfl⟩ => by
      simp only [parts, hd.extend_eq, hstep.extend_eq]
      refine .cons ⟨rfl, h⟩ (.cons ⟨rfl, _, hd, rfl⟩ ?_)
      exact List.rel_append hstep.forall₂_parts hbody.forall₂_parts
  | .loop .., _, h@⟨_, _, _, hbody, rfl⟩ => .cons ⟨rfl, h⟩ hbody.forall₂_parts
  | .switch .., _, h@⟨_, _, _, hcs, rfl⟩ => .cons ⟨rfl, h⟩ hcs.forall₂_parts

theorem BlockPointwise.forall₂_parts {Γ : Context} : {ss ss' : List Stmt} →
    BlockPointwise R Γ ss ss' → List.Forall₂ R.AtParts (blockParts Γ ss) (blockParts Γ ss')
  | [], _, rfl => .nil
  | _ :: _, _, ⟨_, _, hs, hss, rfl⟩ => by
      simp only [blockParts, hs.extend_eq]
      exact List.rel_append hs.forall₂_parts hss.forall₂_parts

theorem CasesPointwise.forall₂_parts {Γ : Context} : {cs cs' : List Case} →
    CasesPointwise R Γ cs cs' → List.Forall₂ R.AtParts (caseParts Γ cs) (caseParts Γ cs')
  | [], _, rfl => .nil
  | .mk .. :: _, _, ⟨_, _, _, _, hbody, hcs, rfl⟩ =>
      List.rel_append hbody.forall₂_parts hcs.forall₂_parts

end

/-! ### Places of a result -/

theorem Pointwise.exists_target {Γ : Context} {s : Stmt} {span : Span} {t e : Expr}
    (h : s.Pointwise R Γ (.assign span t e)) : ∃ t₀, R .target Γ t₀ t := by
  cases s with
  | assign span' t' e' =>
      obtain ⟨t₁, e₁, ht, _, heq⟩ := h
      cases heq
      exact ⟨t', ht⟩
  | _ => simp [Pointwise] at h

theorem CasesPointwise.exists_guard {Γ : Context} : {cs cs' : List Case} →
    CasesPointwise R Γ cs cs' → ∀ c ∈ cs', ∀ g ∈ c.guard, ∃ g₀, R .guard Γ g₀ g
  | [], _, rfl => by simp
  | .mk _ o body :: cs, _, ⟨o', _, _, ho, _, hcs, rfl⟩ => by
      rw [List.forall_mem_cons]
      refine ⟨fun g hg => ?_, hcs.exists_guard⟩
      obtain rfl : o' = some g := hg
      cases ho with
      | @some g₀ _ hg₀ => exact ⟨g₀, hg₀⟩

theorem Pointwise.exists_guard {Γ : Context} {s : Stmt} {span : Span} {e : Expr} {cs : List Case}
    (h : s.Pointwise R Γ (.switch span e cs)) :
    ∀ c ∈ cs, ∀ g ∈ c.guard, ∃ g₀, R .guard Γ g₀ g := by
  cases s with
  | switch span' e' cs' =>
      obtain ⟨e₁, cs₁, _, hcs, heq⟩ := h
      cases heq
      exact hcs.exists_guard
  | _ => simp [Pointwise] at h

end Stmt

/-! ### Parts of a well-typed statement -/

mutual

/-- Every part of a well-typed statement is well typed in its context. -/
theorem StmtTyped.of_mem_parts {Γ : Context} : {s : Stmt} → StmtTyped ds ret Γ s →
    ∀ part ∈ s.parts Γ, StmtTyped ds ret part.1 part.2
  | _, h@(.assertion _) | _, h@(.print _) | _, h@(.assign ..) | _, h@(.ret _) | _, h@.jump
  | _, h@(.decl _) | _, h@(.call _) => by simpa [Stmt.parts] using h
  | _, h@(.branch _ hyes hno) => by
      simp only [Stmt.parts, List.forall_mem_cons, List.forall_mem_append]
      exact ⟨h, hyes.of_mem_parts, hno.of_mem_parts⟩
  | _, h@(.forLoop hd _ hstep hbody) => by
      simp only [Stmt.parts, List.forall_mem_cons, List.forall_mem_append]
      exact ⟨h, .decl hd, hstep.of_mem_parts, hbody.of_mem_parts⟩
  | _, h@(.loop _ hbody) => by
      simp only [Stmt.parts, List.forall_mem_cons]
      exact ⟨h, hbody.of_mem_parts⟩
  | _, h@(.switch _ hcs) => by
      simp only [Stmt.parts, List.forall_mem_cons]
      exact ⟨h, hcs.of_mem_parts⟩

theorem BlockTyped.of_mem_parts {Γ : Context} : {ss : List Stmt} → BlockTyped ds ret Γ ss →
    ∀ part ∈ Stmt.blockParts Γ ss, StmtTyped ds ret part.1 part.2
  | _, .nil => by simp [Stmt.blockParts]
  | _, .cons hs hss => by
      simp only [Stmt.blockParts, List.forall_mem_append]
      exact ⟨hs.of_mem_parts, hss.of_mem_parts⟩

theorem CasesTyped.of_mem_parts {on : Ty} {Γ : Context} : {cs : List Case} →
    CasesTyped ds ret on Γ cs → ∀ part ∈ Stmt.caseParts Γ cs, StmtTyped ds ret part.1 part.2
  | _, .nil => by simp [Stmt.caseParts]
  | _, .cons _ hbody hcs => by
      simp only [Stmt.caseParts, List.forall_mem_append]
      exact ⟨hbody.of_mem_parts, hcs.of_mem_parts⟩

end

/-! ### Methods -/

/-- The statements in the body of a method, each with its context. -/
def Method.parts (m : Method) : List (Context × Stmt) := Stmt.blockParts m.context m.body

theorem Method.sites_subset_of_mem_parts {m : Method} {part : Context × Stmt}
    (hpart : part ∈ m.parts) : part.2.sites part.1 ⊆ m.sites :=
  Stmt.blockSites_subset_of_mem_parts m.body part hpart

/-- Every statement in the second program comes from one in the first. -/
theorem Program.Pointwise.exists_part {p q : Program} (h : p.Pointwise R q) {m : Method}
    (hm : m ∈ q.methods) {part : Context × Stmt} (hpart : part ∈ m.parts) :
    ∃ m₀ ∈ p.methods, ∃ part₀ ∈ m₀.parts, R.AtParts part₀ part := by
  obtain ⟨m₀, hm₀, body, hbody, rfl⟩ := h.exists_method hm
  exact ⟨m₀, hm₀, exists_mem_of_forall₂ hbody.forall₂_parts hpart⟩

theorem MethodTyped.of_mem_parts {m : Method} (h : MethodTyped ds m) {part : Context × Stmt}
    (hpart : part ∈ m.parts) : StmtTyped ds m.ret part.1 part.2 :=
  h.body.of_mem_parts part hpart

end WhileStatics
