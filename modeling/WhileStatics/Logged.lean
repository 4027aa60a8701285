import WhileStatics.Event
import WhileStatics.Fault

/-!
# Logged computations

A logged computation either yields a value or fails, and in both cases keeps
the events it has told so far. `result_bind` erases the log: as far as results
go, logged computations compose like computations that only fail.
-/

namespace WhileStatics

variable {α β : Type}

/-- The result of a computation and the events told on the way. -/
structure Logged (α : Type) where
  result : Except Failure α
  events : List Event := []

namespace Logged

/-- Goes on with the value of a computation; a failure ends the log. -/
def bind (x : Logged α) (f : α → Logged β) : Logged β :=
  match x with
  | ⟨.ok a, es⟩ => let y := f a; ⟨y.result, es ++ y.events⟩
  | ⟨.error e, es⟩ => ⟨.error e, es⟩

instance : Monad Logged where
  pure a := ⟨.ok a, []⟩
  bind := bind

/-- Tells one event. -/
def tell (e : Event) : Logged Unit := ⟨.ok (), [e]⟩

/-- Tells several events. -/
def tellAll (es : List Event) : Logged Unit := ⟨.ok (), es⟩

/-- Fails with a fault at a span of the file at `path`. -/
def fail (fault : Fault) (span : Span) (path : String) : Logged α :=
  ⟨.error ⟨fault, span, path⟩, []⟩

/-- A computation that tells nothing. -/
def ofExcept (x : Except Failure α) : Logged α := ⟨x, []⟩

@[simp] theorem result_pure (a : α) : (pure a : Logged α).result = .ok a := rfl

@[simp] theorem result_bind (x : Logged α) (f : α → Logged β) :
    (x >>= f).result = x.result.bind fun a => (f a).result := by
  obtain ⟨_ | _, _⟩ := x <;> rfl

@[simp] theorem result_map (f : α → β) (x : Logged α) :
    (f <$> x).result = x.result.map f := by
  obtain ⟨_ | _, _⟩ := x <;> rfl

@[simp] theorem result_tell (e : Event) : (tell e).result = .ok () := rfl

@[simp] theorem result_tellAll (es : List Event) : (tellAll es).result = .ok () := rfl

@[simp] theorem result_fail (fault : Fault) (span : Span) (path : String) :
    (fail fault span path : Logged α).result = .error ⟨fault, span, path⟩ := rfl

@[simp] theorem result_ofExcept (x : Except Failure α) : (ofExcept x).result = x := rfl

instance : LawfulMonad Logged := LawfulMonad.mk' Logged
  (fun x => by
    obtain ⟨r, es⟩ := x
    change bind _ _ = _
    cases r <;> simp [bind])
  (fun a f => by
    change bind ⟨.ok a, []⟩ f = _
    simp [bind])
  (fun x f g => by
    obtain ⟨r, es⟩ := x
    change bind (bind _ _) _ = bind _ fun a => bind (f a) g
    cases r with
    | error e => rfl
    | ok a =>
        rcases h : f a with ⟨_ | b, fs⟩
        · simp [bind, h]
        · simp [bind, h, List.append_assoc])

end Logged
end WhileStatics
