import WhileStatics.Logged
import WhileStatics.Scope

/-!
# Walks

A walk is a logged computation that goes through the statements of a method
body and works on the scope as it goes.

## Implementation notes

The scope outlives a failure. A nested block is closed on every path, and that
this restores the scope is a fact about walks rather than a convention of them.
-/

namespace WhileStatics

variable {α β : Type}

/-- A computation that takes the scope before it to its outcome and the scope after it. -/
def Walk (α : Type) := Scope → Logged α × Scope

namespace Walk

/-- Goes on with the value of a walk, in the scope it leaves. -/
def bind (w : Walk α) (f : α → Walk β) : Walk β := fun scope =>
  match w scope with
  | (⟨.ok a, es⟩, after) =>
      let next := f a after
      (⟨next.1.result, es ++ next.1.events⟩, next.2)
  | (⟨.error e, es⟩, after) => (⟨.error e, es⟩, after)

instance : Monad Walk where
  pure a := fun scope => (pure a, scope)
  bind := bind

/-- The result of a walk from a scope. -/
def result (w : Walk α) (scope : Scope) : Except Failure α := (w scope).1.result

/-- The scope that a walk leaves. -/
def scopeAfter (w : Walk α) (scope : Scope) : Scope := (w scope).2

/-- Asks a question about the scope without changing it. -/
def read (f : Scope → Logged α) : Walk α := fun scope => (f scope, scope)

/-- Asks a question about the scope that tells no events. -/
def ask (f : Scope → Except Failure α) : Walk α := read fun scope => Logged.ofExcept (f scope)

/-- Fails with a fault at a span of the file at `path`. -/
def fail (fault : Fault) (span : Span) (path : String) : Walk α :=
  read fun _ => Logged.fail fault span path

/-- Binds a variable in the innermost block, unless it is in scope already. -/
def declare (name : String) (ty : Ty) : Walk Unit := fun scope =>
  (pure (), scope.declare name ty)

/-- Walks through a nested block and closes it, whether or not the walk fails. -/
def inBlock (w : Walk α) : Walk α := fun scope =>
  let out := w scope.push
  (out.1, out.2.pop)

@[simp] theorem result_pure (a : α) (scope : Scope) :
    result (pure a) scope = .ok a := rfl

@[simp] theorem scopeAfter_pure (a : α) (scope : Scope) :
    scopeAfter (pure a) scope = scope := rfl

theorem result_bind (w : Walk α) (f : α → Walk β) (scope : Scope) :
    result (w >>= f) scope =
      (result w scope).bind fun a => result (f a) (scopeAfter w scope) := by
  change result (bind w f) scope = _
  rcases h : w scope with ⟨⟨_ | a, es⟩, after⟩ <;>
    simp [result, scopeAfter, bind, h, Except.bind]

theorem scopeAfter_bind (w : Walk α) (f : α → Walk β) (scope : Scope) :
    scopeAfter (w >>= f) scope =
      match result w scope with
      | .ok a => scopeAfter (f a) (scopeAfter w scope)
      | .error _ => scopeAfter w scope := by
  change scopeAfter (bind w f) scope = _
  rcases h : w scope with ⟨⟨_ | a, es⟩, after⟩ <;> simp [result, scopeAfter, bind, h]

@[simp] theorem result_read (f : Scope → Logged α) (scope : Scope) :
    result (read f) scope = (f scope).result := rfl

@[simp] theorem scopeAfter_read (f : Scope → Logged α) (scope : Scope) :
    scopeAfter (read f) scope = scope := rfl

@[simp] theorem result_ask (f : Scope → Except Failure α) (scope : Scope) :
    result (ask f) scope = f scope := rfl

@[simp] theorem scopeAfter_ask (f : Scope → Except Failure α) (scope : Scope) :
    scopeAfter (ask f) scope = scope := rfl

@[simp] theorem result_fail (fault : Fault) (span : Span) (path : String) (scope : Scope) :
    result (fail fault span path : Walk α) scope = .error ⟨fault, span, path⟩ := rfl

@[simp] theorem scopeAfter_fail (fault : Fault) (span : Span) (path : String) (scope : Scope) :
    scopeAfter (fail fault span path : Walk α) scope = scope := rfl

@[simp] theorem result_declare (name : String) (ty : Ty) (scope : Scope) :
    result (declare name ty) scope = .ok () := rfl

@[simp] theorem scopeAfter_declare (name : String) (ty : Ty) (scope : Scope) :
    scopeAfter (declare name ty) scope = scope.declare name ty := rfl

@[simp] theorem result_inBlock (w : Walk α) (scope : Scope) :
    result (inBlock w) scope = result w scope.push := rfl

@[simp] theorem scopeAfter_inBlock (w : Walk α) (scope : Scope) :
    scopeAfter (inBlock w) scope = (scopeAfter w scope.push).pop := rfl

instance : LawfulMonad Walk := LawfulMonad.mk' Walk
  (fun w => by
    funext scope
    change bind w _ scope = w scope
    rcases h : w scope with ⟨⟨_ | a, es⟩, after⟩ <;> simp [bind, h, pure, Function.comp])
  (fun a f => by
    funext scope
    change bind (fun scope => (pure a, scope)) f scope = f a scope
    simp [bind, pure])
  (fun w f g => by
    funext scope
    change bind (bind w f) g scope = bind w (fun a => bind (f a) g) scope
    rcases h : w scope with ⟨⟨_ | a, es⟩, after⟩
    · simp [bind, h]
    · rcases hf : f a after with ⟨⟨_ | b, fs⟩, last⟩ <;> simp [bind, h, hf])

end Walk
end WhileStatics
