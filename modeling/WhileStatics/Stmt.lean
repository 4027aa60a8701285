import WhileStatics.Expr.Basic

/-!
# Statements

Statements own blocks of statements, so the type of statements and that of
switch cases are declared together. `while` and `do … while` loops differ only
in where the condition is tested.
-/

namespace WhileStatics

/-- The declaration of a local variable. -/
structure VarDecl where
  ty : Ty
  name : String
  init : Option Expr := none
  span : Span := {}
  deriving DecidableEq, Inhabited

/-- The two ways to leave the body of a loop early. -/
inductive Jump where
  | exit
  | again
  deriving DecidableEq, Inhabited

/-- Where a loop tests its condition. -/
inductive LoopTest where
  | before
  | after
  deriving DecidableEq, Inhabited

mutual

/-- A statement. -/
inductive Stmt where
  | assertion (span : Span) (cond : Expr)
  | print (span : Span) (value : Expr)
  | assign (span : Span) (target value : Expr)
  | ret (span : Span) (value : Option Expr)
  | jump (span : Span) (jump : Jump)
  | decl (decl : VarDecl)
  | branch (span : Span) (cond : Expr) (yes no : List Stmt)
  | forLoop (span : Span) (decl : VarDecl) (cond : Expr) (step : Stmt) (body : List Stmt)
  | loop (span : Span) (test : LoopTest) (cond : Expr) (body : List Stmt)
  | switch (span : Span) (scrutinee : Expr) (cases : List Case)
  | call (span : Span) (name : String) (args : List Expr)

/-- A case of a `switch`; the default case has no guard. -/
inductive Case where
  | mk (span : Span) (guard : Option Expr) (body : List Stmt)

end

instance : Inhabited Stmt := ⟨.jump {} .exit⟩

instance : Inhabited Case := ⟨.mk {} none []⟩

namespace Case

/-- The span of the whole case. -/
def span : Case → Span
  | .mk span _ _ => span

/-- The constant that selects the case, absent for the default. -/
def guard : Case → Option Expr
  | .mk _ guard _ => guard

/-- The statements of the case. -/
def body : Case → List Stmt
  | .mk _ _ body => body

end Case

namespace Stmt

/-- Induction on statements with a hypothesis for every statement of every nested block. -/
@[elab_as_elim, induction_eliminator]
theorem induction {motive : Stmt → Prop}
    (assertion : ∀ span cond, motive (.assertion span cond))
    (print : ∀ span value, motive (.print span value))
    (assign : ∀ span target value, motive (.assign span target value))
    (ret : ∀ span value, motive (.ret span value))
    (jump : ∀ span j, motive (.jump span j))
    (decl : ∀ d, motive (.decl d))
    (branch : ∀ span cond yes no, (∀ s ∈ yes, motive s) → (∀ s ∈ no, motive s) →
      motive (.branch span cond yes no))
    (forLoop : ∀ span d cond step body, motive step → (∀ s ∈ body, motive s) →
      motive (.forLoop span d cond step body))
    (loop : ∀ span test cond body, (∀ s ∈ body, motive s) →
      motive (.loop span test cond body))
    (switch : ∀ span scrutinee cases, (∀ c ∈ cases, ∀ s ∈ Case.body c, motive s) →
      motive (.switch span scrutinee cases))
    (call : ∀ span name args, motive (.call span name args))
    (s : Stmt) : motive s :=
  @Stmt.rec motive (fun c => ∀ s ∈ c.body, motive s) (fun block => ∀ s ∈ block, motive s)
    (fun cases => ∀ c ∈ cases, ∀ s ∈ Case.body c, motive s)
    assertion print assign ret jump decl branch forLoop loop switch call
    (fun _ _ _ h => h)
    (fun _ h => nomatch h) (fun _ _ hd tl => List.forall_mem_cons.2 ⟨hd, tl⟩)
    (fun _ h => nomatch h) (fun _ _ hd tl => List.forall_mem_cons.2 ⟨hd, tl⟩) s

mutual

/-- Structural comparison of statements. -/
def same : Stmt → Stmt → Bool
  | .assertion p a, .assertion q b => p == q && a == b
  | .print p a, .print q b => p == q && a == b
  | .assign p a b, .assign q c d => p == q && a == c && b == d
  | .ret p a, .ret q b => p == q && a == b
  | .jump p i, .jump q j => p == q && i == j
  | .decl d, .decl e => d == e
  | .branch p a s t, .branch q b u v => p == q && a == b && sameBlock s u && sameBlock t v
  | .forLoop p d a s t, .forLoop q e b u v =>
      p == q && d == e && a == b && same s u && sameBlock t v
  | .loop p i a s, .loop q j b t => p == q && i == j && a == b && sameBlock s t
  | .switch p a s, .switch q b t => p == q && a == b && sameCases s t
  | .call p m a, .call q n b => p == q && m == n && a == b
  | _, _ => false

/-- Structural comparison of blocks. -/
def sameBlock : List Stmt → List Stmt → Bool
  | [], [] => true
  | s :: ss, t :: ts => same s t && sameBlock ss ts
  | _, _ => false

/-- Structural comparison of case lists. -/
def sameCases : List Case → List Case → Bool
  | [], [] => true
  | .mk p a s :: cs, .mk q b t :: ds => p == q && a == b && sameBlock s t && sameCases cs ds
  | _, _ => false

end

theorem sameBlock_iff {ss ts : List Stmt} (h : ∀ s ∈ ss, ∀ t, same s t = true ↔ s = t) :
    sameBlock ss ts = true ↔ ss = ts := by
  induction ss generalizing ts with
  | nil => cases ts <;> simp [sameBlock]
  | cons s ss ih =>
      cases ts with
      | nil => simp [sameBlock]
      | cons t ts =>
          simp [sameBlock, h s (by simp) t, @ih ts fun u hu => h u (by simp [hu])]

theorem sameCases_iff {cs ds : List Case}
    (h : ∀ c ∈ cs, ∀ s ∈ Case.body c, ∀ t, same s t = true ↔ s = t) :
    sameCases cs ds = true ↔ cs = ds := by
  induction cs generalizing ds with
  | nil => cases ds <;> simp [sameCases]
  | cons c cs ih =>
      obtain ⟨p, a, s⟩ := c
      cases ds with
      | nil => simp [sameCases]
      | cons d ds =>
          obtain ⟨q, b, t⟩ := d
          have hs : sameBlock s t = true ↔ s = t :=
            sameBlock_iff fun u hu => h (.mk p a s) (by simp) u hu
          simp [sameCases, hs, @ih ds fun e he => h e (by simp [he]), and_assoc]

theorem same_iff {s t : Stmt} : same s t = true ↔ s = t := by
  induction s generalizing t with
  | branch p a yes no ihy ihn =>
      cases t <;> simp [same, sameBlock_iff fun s hs t => @ihy s hs t,
        sameBlock_iff fun s hs t => @ihn s hs t, and_assoc]
  | forLoop p d a step body ihs ihb =>
      cases t <;> simp [same, ihs, sameBlock_iff fun s hs t => @ihb s hs t, and_assoc]
  | loop p i a body ih =>
      cases t <;> simp [same, sameBlock_iff fun s hs t => @ih s hs t, and_assoc]
  | switch p a cs ih =>
      cases t <;> simp [same, sameCases_iff fun c hc s hs t => @ih c hc s hs t, and_assoc]
  | _ => cases t <;> simp [same, and_assoc]

instance : DecidableEq Stmt := fun s t => decidable_of_iff (same s t = true) same_iff

end Stmt
end WhileStatics
