import WhileStatics.Span
import WhileStatics.Ty.Basic
import WhileStatics.Value.Basic

/-!
# Expressions

Every expression node carries its span and a slot for its type. The slot is
empty in a program as written and filled in by type checking.
-/

namespace WhileStatics

/-- The operators with two operands. -/
inductive BinaryOp where
  | and
  | or
  | add
  | sub
  | mul
  | div
  | rem
  | eq
  | notEq
  | lt
  | ltEq
  | gt
  | gtEq
  deriving DecidableEq, Inhabited

/-- The operator as it is written. -/
def BinaryOp.symbol : BinaryOp → String
  | and => "&&"
  | or => "||"
  | add => "+"
  | sub => "-"
  | mul => "*"
  | div => "/"
  | rem => "%"
  | eq => "=="
  | notEq => "!="
  | lt => "<"
  | ltEq => "<="
  | gt => ">"
  | gtEq => ">="

/-- All operators with two operands, each once. -/
def BinaryOp.all : List BinaryOp :=
  [and, or, add, sub, mul, div, rem, eq, notEq, lt, ltEq, gt, gtEq]

/-- The operator with the given symbol. -/
def BinaryOp.ofSymbol? (s : String) : Option BinaryOp :=
  all.find? fun op => op.symbol == s

/-- Reading the symbol of an operator gives the operator back. -/
theorem BinaryOp.ofSymbol?_symbol (op : BinaryOp) : ofSymbol? op.symbol = some op := by
  cases op <;> decide

/-- The operators with one operand. -/
inductive UnaryOp where
  | not
  | neg
  | lengthOf
  deriving DecidableEq, Inhabited

/-- The operator as it is written, with dots in the place of an enclosed operand. -/
def UnaryOp.symbol : UnaryOp → String
  | not => "!"
  | neg => "-"
  | lengthOf => "|..|"

/-- All operators with one operand, each once. -/
def UnaryOp.all : List UnaryOp := [not, neg, lengthOf]

/-- The operator with the given symbol. -/
def UnaryOp.ofSymbol? (s : String) : Option UnaryOp :=
  all.find? fun op => op.symbol == s

/-- Reading the symbol of an operator gives the operator back. -/
theorem UnaryOp.ofSymbol?_symbol (op : UnaryOp) : ofSymbol? op.symbol = some op := by
  cases op <;> decide

/-- What every expression node carries besides its own parts. -/
structure Info where
  span : Span := {}
  ty : Option Ty := none
  deriving DecidableEq, Inhabited

/-- An expression. -/
inductive Expr where
  | binary (info : Info) (op : BinaryOp) (lhs rhs : Expr)
  | unary (info : Info) (op : UnaryOp) (operand : Expr)
  | const (info : Info) (value : Value)
  | var (info : Info) (name : String)
  | index (info : Info) (source position : Expr)
  | call (info : Info) (name : String) (args : List Expr)
  | generate (info : Info) (value count : Expr)
  | array (info : Info) (items : List Expr)
  | access (info : Info) (source : Expr) (field : String)
  | record (info : Info) (fields : List (String × Expr))
  deriving Inhabited

namespace Expr

/-- Induction on expressions with a hypothesis for every argument, item and field. -/
@[elab_as_elim, induction_eliminator]
theorem induction {motive : Expr → Prop}
    (binary : ∀ info op lhs rhs, motive lhs → motive rhs → motive (.binary info op lhs rhs))
    (unary : ∀ info op operand, motive operand → motive (.unary info op operand))
    (const : ∀ info value, motive (.const info value))
    (var : ∀ info name, motive (.var info name))
    (index : ∀ info source position, motive source → motive position →
      motive (.index info source position))
    (call : ∀ info name args, (∀ a ∈ args, motive a) → motive (.call info name args))
    (generate : ∀ info value count, motive value → motive count →
      motive (.generate info value count))
    (array : ∀ info items, (∀ e ∈ items, motive e) → motive (.array info items))
    (access : ∀ info source field, motive source → motive (.access info source field))
    (record : ∀ info fields, (∀ f ∈ fields, motive f.2) → motive (.record info fields))
    (e : Expr) : motive e :=
  @Expr.rec motive (fun es => ∀ e ∈ es, motive e) (fun fields => ∀ f ∈ fields, motive f.2)
    (fun f => motive f.2) binary unary const var index call generate array access record
    (fun _ h => nomatch h) (fun _ _ hd tl => List.forall_mem_cons.2 ⟨hd, tl⟩)
    (fun _ h => nomatch h) (fun _ _ hd tl => List.forall_mem_cons.2 ⟨hd, tl⟩)
    (fun _ _ h => h) e

mutual

/-- Structural comparison of expressions, spans and type slots included. -/
def same : Expr → Expr → Bool
  | .binary i o a b, .binary j p c d => i == j && o == p && same a c && same b d
  | .unary i o a, .unary j p b => i == j && o == p && same a b
  | .const i u, .const j v => i == j && u == v
  | .var i m, .var j n => i == j && m == n
  | .index i a b, .index j c d => i == j && same a c && same b d
  | .call i m as, .call j n bs => i == j && m == n && sameList as bs
  | .generate i a b, .generate j c d => i == j && same a c && same b d
  | .array i as, .array j bs => i == j && sameList as bs
  | .access i a m, .access j b n => i == j && same a b && m == n
  | .record i fs, .record j gs => i == j && sameFields fs gs
  | _, _ => false

/-- Structural comparison of expression lists. -/
def sameList : List Expr → List Expr → Bool
  | [], [] => true
  | a :: as, b :: bs => same a b && sameList as bs
  | _, _ => false

/-- Structural comparison of field lists. -/
def sameFields : List (String × Expr) → List (String × Expr) → Bool
  | [], [] => true
  | (m, a) :: fs, (n, b) :: gs => m == n && same a b && sameFields fs gs
  | _, _ => false

end

theorem sameList_iff {as bs : List Expr}
    (h : ∀ a ∈ as, ∀ b, same a b = true ↔ a = b) :
    sameList as bs = true ↔ as = bs := by
  induction as generalizing bs with
  | nil => cases bs <;> simp [sameList]
  | cons a as ih =>
      cases bs with
      | nil => simp [sameList]
      | cons b bs =>
          simp [sameList, h a (by simp) b, @ih bs fun c hc => h c (by simp [hc])]

theorem sameFields_iff {fs gs : List (String × Expr)}
    (h : ∀ f ∈ fs, ∀ b, same f.2 b = true ↔ f.2 = b) :
    sameFields fs gs = true ↔ fs = gs := by
  induction fs generalizing gs with
  | nil => cases gs <;> simp [sameFields]
  | cons f fs ih =>
      obtain ⟨m, a⟩ := f
      cases gs with
      | nil => simp [sameFields]
      | cons g gs =>
          obtain ⟨n, b⟩ := g
          have ha : same a b = true ↔ a = b := h (m, a) (by simp) b
          simp [sameFields, ha, @ih gs fun f hf => h f (by simp [hf])]

theorem same_iff {a b : Expr} : same a b = true ↔ a = b := by
  induction a generalizing b with
  | binary i o l r ihl ihr => cases b <;> simp [same, ihl, ihr, and_assoc]
  | unary i o x ih => cases b <;> simp [same, ih, and_assoc]
  | index i s p ihs ihp => cases b <;> simp [same, ihs, ihp, and_assoc]
  | call i n as ih =>
      cases b <;> simp [same, sameList_iff fun a ha b => @ih a ha b, and_assoc]
  | generate i v c ihv ihc => cases b <;> simp [same, ihv, ihc, and_assoc]
  | array i es ih => cases b <;> simp [same, sameList_iff fun a ha b => @ih a ha b]
  | access i s f ih => cases b <;> simp [same, ih, and_assoc]
  | record i fs ih => cases b <;> simp [same, sameFields_iff fun f hf b => @ih f hf b]
  | _ => cases b <;> simp [same]

instance : DecidableEq Expr := fun a b => decidable_of_iff (same a b = true) same_iff

/-- What the root node carries. -/
def info : Expr → Info
  | .binary i .. | .unary i .. | .const i .. | .var i .. | .index i .. | .call i ..
  | .generate i .. | .array i .. | .access i .. | .record i .. => i

/-- The span of the root node. -/
def span (e : Expr) : Span := e.info.span

/-- The type slot of the root node. -/
def ty (e : Expr) : Option Ty := e.info.ty

/-- The name of a bare variable. -/
def varName? : Expr → Option String
  | .var _ name => some name
  | _ => none

/-- Variables, indexed sources and field accesses can be assigned to. -/
def isLvalue : Expr → Bool
  | .var .. | .index .. | .access .. => true
  | _ => false

/-- A constant, and nothing that merely evaluates to one. -/
def isConst : Expr → Bool
  | .const .. => true
  | _ => false

theorem varName?_eq_some_iff {e : Expr} {n : String} :
    e.varName? = some n ↔ ∃ i, e = .var i n := by
  cases e <;> simp [varName?]

end Expr
end WhileStatics
