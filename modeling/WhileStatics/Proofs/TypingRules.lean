import WhileStatics.Proofs.Sites
import WhileStatics.Proofs.WellFormed
import WhileStatics.Typing.Expr
import Mathlib.Data.List.Forall2

/-!
# Typing rules

The rules that well-typed programs follow, as relations without an algorithm. A
judgement about an expression says nothing of the slots in it. Blocks open a
context of their own, a declaration is in scope from the next statement on, and
a name in scope cannot be declared again.

## Implementation notes

Premises about types are those that the operations on types decide: being below
another type, having a shape, and the least upper bound. A call goes to the
method that the tables hold under its name, which is the last one declared.
-/

namespace WhileStatics

/-- The type resolves to one of the given shape. -/
def Ty.IsA (types : TypeTable) (shape : Shape) (t : Ty) : Prop :=
  ∃ u, t.resolve types = .ok u ∧ u.shape? = some shape

/-- The types of the operands of a binary operator and of its result. -/
inductive BinaryOp.Rule (types : TypeTable) : BinaryOp → Ty → Ty → Ty → Prop
  | logical {op s t} (hop : op ∈ [.and, .or]) (hs : s.IsA types .bool)
      (ht : t.IsA types .bool) : Rule types op s t .bool
  | arithmetic {op s t} (hop : op ∈ [.add, .sub, .mul, .div, .rem]) (hs : s.IsA types .int)
      (ht : t.IsA types .int) : Rule types op s t .int
  | ordering {op s t} (hop : op ∈ [.lt, .ltEq, .gt, .gtEq]) (hs : s.IsA types .int)
      (ht : t.IsA types .int) : Rule types op s t .bool
  | equality {op s t} (hop : op ∈ [.eq, .notEq])
      (h : Ty.comparable types s t = .ok true) : Rule types op s t .bool

/-- The types of the operand of a unary operator and of its result. -/
inductive UnaryOp.Rule (types : TypeTable) : UnaryOp → Ty → Ty → Prop
  | not {t} (ht : t.IsA types .bool) : Rule types .not t .bool
  | neg {t} (ht : t.IsA types .int) : Rule types .neg t .int
  | lengthOfArray {t} (ht : t.IsA types .array) : Rule types .lengthOf t .int
  | lengthOfString {t} (ht : t.IsA types .string) : Rule types .lengthOf t .int

/-- The expression has the type in the context. -/
inductive HasType (ds : Declarations) (Γ : Context) : Expr → Ty → Prop
  | binary {i op l r s t u} (hl : HasType ds Γ l s) (hr : HasType ds Γ r t)
      (h : op.Rule ds.types s t u) : HasType ds Γ (.binary i op l r) u
  | unary {i op x t u} (hx : HasType ds Γ x t) (h : op.Rule ds.types t u) :
      HasType ds Γ (.unary i op x) u
  | const {i v t} (h : v.typeOf ds.types = .ok t) : HasType ds Γ (.const i v) t
  | var {i n t} (h : Γ.lookup n = some t) : HasType ds Γ (.var i n) t
  | element {i s p a t u} (hs : HasType ds Γ s a) (hp : HasType ds Γ p t)
      (ha : a.resolve ds.types = .ok (.array u)) (ht : t.IsA ds.types .int) :
      HasType ds Γ (.index i s p) u
  | character {i s p a t} (hs : HasType ds Γ s a) (hp : HasType ds Γ p t)
      (ha : a.IsA ds.types .string) (ht : t.IsA ds.types .int) :
      HasType ds Γ (.index i s p) .char
  | call {i n m as ts} (hm : ds.methods.get? n = some m)
      (has : List.Forall₂ (HasType ds Γ) as ts)
      (hts : List.Forall₂ (fun p t => Ty.isSubtype ds.types p.ty t = .ok true) m.params ts) :
      HasType ds Γ (.call i n as) m.ret
  | generate {i v c t u} (hv : HasType ds Γ v t) (hc : HasType ds Γ c u)
      (hu : u.IsA ds.types .int) : HasType ds Γ (.generate i v c) (.array t)
  | array {i es ts t} (hes : List.Forall₂ (HasType ds Γ) es ts)
      (ht : Ty.leastUpperBound ds.types ts = .ok t) : HasType ds Γ (.array i es) (.array t)
  | access {i s f a fs t} (hs : HasType ds Γ s a)
      (ha : a.resolve ds.types = .ok (.record fs)) (hf : fs.lookup f = some t) :
      HasType ds Γ (.access i s f) t
  | record {i} {fs : List (String × Expr)} {ts}
      (hfs : List.Forall₂ (HasType ds Γ) (fs.map Prod.snd) ts)
      (hnames : (fs.map Prod.fst).Nodup) :
      HasType ds Γ (.record i fs) (.record ((fs.map Prod.fst).zip ts))

/-- The expression is a condition. -/
def IsCondition (ds : Declarations) (Γ : Context) (e : Expr) : Prop :=
  ∃ t, HasType ds Γ e t ∧ t.IsA ds.types .bool

/-- The expression has a type below the given one. -/
def Fits (ds : Declarations) (Γ : Context) (sup : Ty) (e : Expr) : Prop :=
  ∃ t, HasType ds Γ e t ∧ Ty.isSubtype ds.types sup t = .ok true

/-- The arguments of a call fit the parameters of the method it goes to. -/
def CallFits (ds : Declarations) (Γ : Context) (name : String) (args : List Expr) : Prop :=
  ∃ m, ds.methods.get? name = some m ∧
    List.Forall₂ (fun p a => Fits ds Γ p.ty a) m.params args

/-- A variable may be declared: its type is well formed, its name is free, and its initial value
fits. -/
structure DeclFits (ds : Declarations) (Γ : Context) (d : VarDecl) : Prop where
  wellFormed : d.ty.WellFormed ds.types
  free : Γ.lookup d.name = none
  init : ∀ e ∈ d.init, Fits ds Γ d.ty e

mutual

/-- The statement is well typed in a method that returns `ret`. -/
inductive StmtTyped (ds : Declarations) (ret : Ty) : Context → Stmt → Prop
  | assertion {Γ span c} (hc : IsCondition ds Γ c) : StmtTyped ds ret Γ (.assertion span c)
  | print {Γ span e t} (he : HasType ds Γ e t) : StmtTyped ds ret Γ (.print span e)
  | assign {Γ span target value t} (hlvalue : target.isLvalue = true)
      (ht : HasType ds Γ target t) (hv : Fits ds Γ t value) :
      StmtTyped ds ret Γ (.assign span target value)
  | ret {Γ span} {e : Option Expr} (he : ∀ v ∈ e, Fits ds Γ ret v) :
      StmtTyped ds ret Γ (.ret span e)
  | jump {Γ span j} : StmtTyped ds ret Γ (.jump span j)
  | decl {Γ d} (hd : DeclFits ds Γ d) : StmtTyped ds ret Γ (.decl d)
  | branch {Γ span c yes no} (hc : IsCondition ds Γ c) (hyes : BlockTyped ds ret Γ yes)
      (hno : BlockTyped ds ret Γ no) : StmtTyped ds ret Γ (.branch span c yes no)
  | forLoop {Γ span d c step body} (hd : DeclFits ds Γ d)
      (hc : IsCondition ds (d.extend Γ) c) (hstep : StmtTyped ds ret (d.extend Γ) step)
      (hbody : BlockTyped ds ret (step.extend (d.extend Γ)) body) :
      StmtTyped ds ret Γ (.forLoop span d c step body)
  | loop {Γ span test c body} (hc : IsCondition ds Γ c) (hbody : BlockTyped ds ret Γ body) :
      StmtTyped ds ret Γ (.loop span test c body)
  | switch {Γ span e t cs} (he : HasType ds Γ e t) (hcs : CasesTyped ds ret t Γ cs) :
      StmtTyped ds ret Γ (.switch span e cs)
  | call {Γ span n as} (h : CallFits ds Γ n as) : StmtTyped ds ret Γ (.call span n as)

/-- The statements of a block are well typed, each in the context that those before it leave. -/
inductive BlockTyped (ds : Declarations) (ret : Ty) : Context → List Stmt → Prop
  | nil {Γ} : BlockTyped ds ret Γ []
  | cons {Γ s ss} (hs : StmtTyped ds ret Γ s) (hss : BlockTyped ds ret (s.extend Γ) ss) :
      BlockTyped ds ret Γ (s :: ss)

/-- The guards of the cases fit the type `on`, and their bodies are well typed. -/
inductive CasesTyped (ds : Declarations) (ret : Ty) : (on : Ty) → Context → List Case → Prop
  | nil {on Γ} : CasesTyped ds ret on Γ []
  | cons {on Γ span cs body} {g : Option Expr} (hg : ∀ v ∈ g, Fits ds Γ on v)
      (hbody : BlockTyped ds ret Γ body) (hcs : CasesTyped ds ret on Γ cs) :
      CasesTyped ds ret on Γ (.mk span g body :: cs)

end

/-- The types in the signature are well formed, the parameters have different names, and the body
is well typed. -/
structure MethodTyped (ds : Declarations) (m : Method) : Prop where
  ret : m.ret.WellFormed ds.types
  params : ∀ p ∈ m.params, p.ty.WellFormed ds.types
  names : (m.params.map Param.name).Nodup
  body : BlockTyped ds m.ret m.context m.body

/-- A well-typed declaration; macros are not subject to typing. -/
inductive DeclTyped (ds : Declarations) : Decl → Prop
  | method {m} (h : MethodTyped ds m) : DeclTyped ds (.method m)
  | type {t : TypeDecl} (h : t.ty.WellFormed ds.types) : DeclTyped ds (.type t)
  | macroDecl {m} : DeclTyped ds (.macroDecl m)

/-- All declarations of the program are well typed under its tables. -/
def Program.WellTyped (p : Program) : Prop :=
  ∀ d ∈ p.decls, DeclTyped p.declarations d

/-- Every node holds the type that it has in the context. -/
def Expr.Annotated (ds : Declarations) (Γ : Context) (e : Expr) : Prop :=
  ∀ n, IsNode n e → ∃ t, n.ty = some t ∧ HasType ds Γ n t

/-- `q` is the program `p` with the types of all nodes in its method bodies filled in. -/
structure Program.IsAnnotationOf (q p : Program) : Prop where
  erase_eq : q.erase = p.erase
  annotated : ∀ m ∈ q.methods, ∀ site ∈ m.sites, site.2.Annotated p.declarations site.1

end WhileStatics
