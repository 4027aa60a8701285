import WhileStatics.Proofs.Scopes
import Mathlib.Data.List.Induction
import Mathlib.Data.List.Nodup
import Mathlib.Logic.Function.Iterate

/-!
# Runs of operations on a scope

Blocks are opened and closed and variables are declared in any order, also
closing more blocks than were opened. No run binds a name twice, and what a scope
knows of a variable can be read off the run: a declaration counts until the block
it stands in is closed.

## Implementation notes

What is bound in the frames further out is what is left after closing the inner
ones, so the statement about a run speaks of the scope after `k` more closings.
-/

namespace WhileStatics

/-- What is done to a scope on the way through a method body. -/
inductive ScopeOp where
  | push
  | pop
  | declare (name : String) (ty : Ty)
  deriving DecidableEq

namespace ScopeOp

variable {ops : List ScopeOp} {name : String} {ty : Ty}

/-- A block that was open before the operations has not been closed by them: at no point have they
closed more blocks than they opened. -/
def StaysOpen (ops : List ScopeOp) : Prop :=
  ∀ start, start <+: ops → start.count .pop ≤ start.count .push

/-- The operations close exactly the blocks that they open. -/
def IsWellNested (ops : List ScopeOp) : Prop :=
  StaysOpen ops ∧ ops.count .pop = ops.count .push

theorem staysOpen_nil : StaysOpen [] := by
  intro start h
  rw [List.prefix_nil.1 h]
  exact Nat.le_refl _

theorem staysOpen_concat_iff {op : ScopeOp} :
    StaysOpen (ops ++ [op]) ↔
      StaysOpen ops ∧ (ops ++ [op]).count .pop ≤ (ops ++ [op]).count .push := by
  simp only [StaysOpen, List.prefix_concat_iff]
  constructor
  · intro h
    exact ⟨fun start hstart => h start (.inr hstart), h _ (.inl rfl)⟩
  · rintro ⟨h, hlast⟩ start (rfl | hstart)
    · exact hlast
    · exact h start hstart

theorem StaysOpen.count_le (h : StaysOpen ops) : ops.count .pop ≤ ops.count .push :=
  h ops (List.prefix_refl ops)

/-- The block stays open, and so do `k` blocks that were opened inside it. -/
def Leaves (ops : List ScopeOp) (k : Nat) : Prop :=
  StaysOpen ops ∧ ops.count .pop + k ≤ ops.count .push

theorem leaves_zero_iff : Leaves ops 0 ↔ StaysOpen ops :=
  ⟨fun h => h.1, fun h => ⟨h, h.count_le⟩⟩

theorem leaves_nil_iff {k : Nat} : Leaves [] k ↔ k = 0 := by
  simp [Leaves, staysOpen_nil]

theorem leaves_concat_iff {op : ScopeOp} {k : Nat} :
    Leaves (ops ++ [op]) k ↔
      StaysOpen ops ∧ (ops ++ [op]).count .pop + k ≤ (ops ++ [op]).count .push := by
  rw [Leaves, staysOpen_concat_iff, and_assoc]
  exact and_congr_right fun _ => and_iff_right_of_imp (Nat.le_trans (Nat.le_add_right _ _))

theorem leaves_push_zero_iff : Leaves (ops ++ [.push]) 0 ↔ Leaves ops 0 := by
  rw [leaves_concat_iff, leaves_zero_iff, and_iff_left_iff_imp]
  intro h
  simpa using Nat.le_add_right_of_le h.count_le

theorem leaves_push_succ_iff {k : Nat} : Leaves (ops ++ [.push]) (k + 1) ↔ Leaves ops k := by
  rw [leaves_concat_iff, Leaves]
  simp [← Nat.add_assoc]

theorem leaves_pop_iff {k : Nat} : Leaves (ops ++ [.pop]) k ↔ Leaves ops (k + 1) := by
  rw [leaves_concat_iff, Leaves]
  simp [Nat.add_assoc, Nat.add_comm 1 k]

theorem leaves_declare_iff {k : Nat} : Leaves (ops ++ [.declare name ty]) k ↔ Leaves ops k := by
  rw [leaves_concat_iff, Leaves]
  simp

end ScopeOp

namespace Scope

open ScopeOp

variable {s : Scope} {ops : List ScopeOp} {name : String} {ty : Ty}

/-- The scope after an operation; a declaration of a name in scope changes nothing. -/
def step (s : Scope) : ScopeOp → Scope
  | .push => s.push
  | .pop => s.pop
  | .declare name ty => s.declare name ty

/-- The scope after operations one after another. -/
def run (s : Scope) (ops : List ScopeOp) : Scope := ops.foldl step s

theorem run_append (s : Scope) (ops more : List ScopeOp) :
    s.run (ops ++ more) = (s.run ops).run more :=
  List.foldl_append

theorem run_concat (s : Scope) (ops : List ScopeOp) (op : ScopeOp) :
    s.run (ops ++ [op]) = (s.run ops).step op :=
  List.foldl_concat step s op ops

/-- The parameters of a method are declared like variables of its outermost block. -/
theorem ofParams_eq_run (params : List Param) :
    ofParams params = empty.run (params.map fun p => .declare p.name p.ty) := by
  rw [run, List.foldl_map]
  rfl

/-! ### Declarations -/

theorem lookup_eq_none_iff : s.lookup name = none ↔ s.contains name = false := by
  rw [contains, Option.isSome_eq_false_iff, Option.isNone_iff_eq_none]

theorem isSome_declare?_iff : (s.declare? name ty).isSome = true ↔ s.lookup name = none := by
  rw [Option.isSome_iff_ne_none, ne_eq, declare?_eq_none_iff, Bool.not_eq_true,
    lookup_eq_none_iff]

theorem lookup_declare_eq_some_iff {other : String} {u : Ty} :
    (s.declare name ty).lookup other = some u ↔
      (ScopeOp.declare name ty = .declare other u ∧ (s.declare? other u).isSome = true) ∨
        s.lookup other = some u := by
  rw [isSome_declare?_iff, ScopeOp.declare.injEq]
  by_cases hother : other = name
  · subst hother
    cases hname : s.lookup other with
    | none => simp [lookup_declare_self ty (lookup_eq_none_iff.1 hname)]
    | some v => simp [declare_of_contains ty (s := s) (by rw [contains, hname]; rfl), hname]
  · rw [lookup_declare_of_ne ty hother]
    simp [Ne.symm hother]

/-- What is declared in the innermost block is gone once the block is closed. -/
theorem pop_declare (s : Scope) (name : String) (ty : Ty) : (s.declare name ty).pop = s.pop := by
  unfold declare declare?
  split <;> rfl

/-! ### No shadowing -/

/-- No name is bound twice, be it in one frame or in two. -/
def IsDistinct (s : Scope) : Prop := (s.context.map Prod.fst).Nodup

theorem IsDistinct.pop (h : s.IsDistinct) : s.pop.IsDistinct := by
  obtain ⟨inner, outer⟩ := s
  cases outer with
  | nil => exact List.nodup_nil
  | cons frame rest =>
      have hcontext : (Scope.mk inner (frame :: rest)).context =
          inner ++ (Scope.mk frame rest).context := rfl
      rw [IsDistinct, hcontext, List.map_append] at h
      exact h.of_append_right

theorem IsDistinct.declare (h : s.IsDistinct) (name : String) (ty : Ty) :
    (s.declare name ty).IsDistinct := by
  cases hname : s.contains name with
  | true => rwa [declare_of_contains ty hname]
  | false =>
      rw [contains_eq_false_iff] at hname
      rw [IsDistinct, context_declare ty hname, List.map_cons, List.nodup_cons]
      refine ⟨fun hmem => ?_, h⟩
      obtain ⟨binding, hbinding, rfl⟩ := List.mem_map.1 hmem
      simpa using List.lookup_eq_none_iff.1 hname binding hbinding

theorem IsDistinct.step (h : s.IsDistinct) (op : ScopeOp) : (s.step op).IsDistinct := by
  cases op with
  | push => exact h
  | pop => exact h.pop
  | declare name ty => exact h.declare name ty

/-- No run binds a name twice. -/
theorem isDistinct_run (ops : List ScopeOp) : (empty.run ops).IsDistinct := by
  induction ops using List.reverseRecOn with
  | nil => exact List.nodup_nil
  | append_singleton ops op ih =>
      rw [run_concat]
      exact ih.step op

theorem IsDistinct.disjoint_frames (h : s.IsDistinct) :
    (s.frames.map fun frame => frame.map Prod.fst).Pairwise List.Disjoint := by
  rw [IsDistinct, context, List.map_flatten] at h
  exact (List.nodup_flatten.1 h).2

/-! ### What a run leaves in scope -/

/-- The run declares the variable, not in vain, and leaves `k` blocks inside of that of the
declaration. -/
def DeclaredIn (ops : List ScopeOp) (k : Nat) (name : String) (ty : Ty) : Prop :=
  ∃ before later, ops = before ++ .declare name ty :: later ∧
    ((empty.run before).declare? name ty).isSome = true ∧ Leaves later k

/-- The declaration is the last operation of a run, or it is one of the run before it. -/
theorem declaredIn_concat_iff {op : ScopeOp} {k : Nat} :
    DeclaredIn (ops ++ [op]) k name ty ↔
      (op = .declare name ty ∧ ((empty.run ops).declare? name ty).isSome = true ∧ k = 0) ∨
      ∃ before later, ops = before ++ .declare name ty :: later ∧
        ((empty.run before).declare? name ty).isSome = true ∧ Leaves (later ++ [op]) k := by
  constructor
  · rintro ⟨before, later, hops, hnew, hk⟩
    induction later using List.reverseRecOn with
    | nil =>
        obtain ⟨rfl, hlast⟩ := List.append_inj' hops rfl
        exact .inl ⟨by simpa using hlast, hnew, leaves_nil_iff.1 hk⟩
    | append_singleton later last _ =>
        rw [← List.cons_append, ← List.append_assoc] at hops
        obtain ⟨rfl, hlast⟩ := List.append_inj' hops rfl
        obtain rfl : op = last := by simpa using hlast
        exact .inr ⟨before, later, rfl, hnew, hk⟩
  · rintro (⟨rfl, hnew, rfl⟩ | ⟨before, later, rfl, hnew, hk⟩)
    · exact ⟨ops, [], rfl, hnew, leaves_nil_iff.2 rfl⟩
    · exact ⟨before, later ++ [op], by simp, hnew, hk⟩

/-- After closing `k` more blocks, those variables are in scope that the run declared in a block
that is open then. -/
theorem lookup_iterate_pop_run (ops : List ScopeOp) (k : Nat) :
    (pop^[k] (empty.run ops)).lookup name = some ty ↔ DeclaredIn ops k name ty := by
  induction ops using List.reverseRecOn generalizing k with
  | nil =>
      have hempty : pop^[k] empty = empty := Function.iterate_fixed rfl k
      rw [run, List.foldl_nil, hempty, lookup_eq_lookup_context]
      simp [DeclaredIn]
  | append_singleton ops op ih =>
      rw [run_concat, declaredIn_concat_iff]
      cases op with
      | push =>
          cases k with
          | zero =>
              simp only [leaves_push_zero_iff]
              rw [step, Function.iterate_zero_apply, lookup_push]
              simpa [DeclaredIn] using ih 0
          | succ k =>
              simp only [leaves_push_succ_iff]
              rw [step, Function.iterate_succ_apply, pop_push]
              simpa [DeclaredIn] using ih k
      | pop =>
          simp only [leaves_pop_iff]
          rw [step, ← Function.iterate_succ_apply]
          simpa [DeclaredIn] using ih (k + 1)
      | declare n u =>
          simp only [leaves_declare_iff]
          cases k with
          | zero =>
              rw [step, Function.iterate_zero_apply, lookup_declare_eq_some_iff]
              simpa [DeclaredIn] using or_congr Iff.rfl (ih 0)
          | succ k =>
              rw [step, Function.iterate_succ_apply, pop_declare, ← Function.iterate_succ_apply]
              simpa [DeclaredIn] using ih (k + 1)

theorem lookup_run_eq_some_iff (ops : List ScopeOp) :
    (empty.run ops).lookup name = some ty ↔
      ∃ before later, ops = before ++ .declare name ty :: later ∧
        ((empty.run before).declare? name ty).isSome = true ∧ StaysOpen later := by
  have hdeclared := @lookup_iterate_pop_run name ty ops 0
  simpa only [Function.iterate_zero_apply, DeclaredIn, leaves_zero_iff] using hdeclared

/-! ### Blocks -/

/-- Closing the blocks that a run leaves open, and the one around it, restores the scope. -/
theorem iterate_pop_run_push (s : Scope) {k : Nat} (hopen : StaysOpen ops)
    (hk : ops.count .pop + k = ops.count .push) : pop^[k + 1] (s.push.run ops) = s := by
  induction ops using List.reverseRecOn generalizing k with
  | nil =>
      obtain rfl : k = 0 := by simpa using hk
      rfl
  | append_singleton ops op ih =>
      obtain ⟨hbefore, -⟩ := staysOpen_concat_iff.1 hopen
      rw [run_concat]
      cases op with
      | push =>
          cases k with
          | zero =>
              -- A block that the run opens last is open at its end.
              have hcount := hbefore.count_le
              simp at hk
              omega
          | succ k =>
              rw [step, Function.iterate_succ_apply, pop_push]
              exact ih hbefore (by simpa [← Nat.add_assoc] using hk)
      | pop =>
          rw [step, ← Function.iterate_succ_apply]
          exact ih hbefore (by simpa [Nat.add_assoc, Nat.add_comm 1 k] using hk)
      | declare n u =>
          rw [step, Function.iterate_succ_apply, pop_declare, ← Function.iterate_succ_apply]
          exact ih hbefore (by simpa using hk)

/-- A block that is opened, worked in and closed leaves no trace. -/
theorem run_block (s : Scope) (h : IsWellNested ops) : s.run (.push :: ops ++ [.pop]) = s := by
  rw [run_concat]
  exact iterate_pop_run_push s h.1 (k := 0) h.2

/-- The scope that operations leave of the parameters of a method. -/
def after (params : List Param) (ops : List ScopeOp) : Scope := (ofParams params).run ops

theorem after_eq_run (params : List Param) (ops : List ScopeOp) :
    after params ops = empty.run ((params.map fun p => .declare p.name p.ty) ++ ops) := by
  rw [after, ofParams_eq_run, run_append]

/-- After any operations a scope has a frame and binds no name in two frames. It accepts a
declaration exactly of a name that it does not know, and no other one changes it. It knows those
variables that were declared, not in vain, in a block that has not been closed since, parameters
included. Whatever is done in a nested block leaves it as it was. -/
theorem runs_bind_names_once_in_open_blocks (params : List Param) (ops : List ScopeOp) :
    0 < (after params ops).frames.length ∧
    ((after params ops).frames.map fun frame => frame.map Prod.fst).Pairwise List.Disjoint ∧
    (∀ name ty,
      (((after params ops).declare? name ty).isSome = true ↔
        (after params ops).lookup name = none) ∧
      ((after params ops).lookup name ≠ none →
        (after params ops).declare name ty = after params ops)) ∧
    (∀ name ty, (after params ops).lookup name = some ty ↔
      ∃ before later,
        (params.map fun p => ScopeOp.declare p.name p.ty) ++ ops =
          before ++ .declare name ty :: later ∧
        ((empty.run before).declare? name ty).isSome = true ∧ StaysOpen later) ∧
    ∀ block, IsWellNested block →
      (after params ops).run (.push :: block ++ [.pop]) = after params ops := by
  refine ⟨Nat.succ_pos _, ?_, fun name ty => ?_, fun name ty => ?_, fun block => run_block _⟩
  · rw [after_eq_run]
    exact (isDistinct_run _).disjoint_frames
  · refine ⟨isSome_declare?_iff, fun hname => declare_of_contains ty ?_⟩
    rwa [contains, Option.isSome_iff_ne_none]
  · rw [after_eq_run, lookup_run_eq_some_iff]

/-- Closing the outermost block drops the parameters, and their names can be declared again. -/
example :
    (after [⟨"n", .int, {}⟩] [.pop, .declare "n" .bool, .push, .declare "n" .int]).lookup "n" =
      some .bool := by
  decide

end Scope
end WhileStatics
