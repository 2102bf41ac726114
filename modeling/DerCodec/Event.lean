/-!
# Events of a computation

Some readers report what they pass over. A `Logged` computation has a result and the events up to
it, in order; a failure keeps the events that came before.
-/

namespace DerCodec

inductive EventLevel where
  | trace
  | debug
  | warn
deriving DecidableEq, Repr

structure Event where
  level : EventLevel
  message : String
deriving DecidableEq, Repr

structure Logged (ε α : Type) where
  events : List Event
  result : Except ε α

namespace Logged

def ofExcept (result : Except ε α) : Logged ε α :=
  ⟨[], result⟩

def fail (e : ε) : Logged ε α :=
  ⟨[], .error e⟩

/-- Reports one event and goes on. -/
def emit (level : EventLevel) (message : String) : Logged ε Unit :=
  ⟨[⟨level, message⟩], .ok ()⟩

def bind (x : Logged ε α) (f : α → Logged ε β) : Logged ε β :=
  match x.result with
  | .error e => ⟨x.events, .error e⟩
  | .ok a =>
    let y := f a
    ⟨x.events ++ y.events, y.result⟩

instance : Monad (Logged ε) where
  pure a := ⟨[], .ok a⟩
  bind := bind

def mapError (f : ε → ε') (x : Logged ε α) : Logged ε' α :=
  ⟨x.events, x.result.mapError f⟩

/-- Reports the message of a failure as one last debug event. -/
def debugFailure (message : ε → String) (x : Logged ε α) : Logged ε α :=
  match x.result with
  | .error e => ⟨x.events ++ [⟨.debug, message e⟩], .error e⟩
  | .ok a => ⟨x.events, .ok a⟩

@[simp] theorem result_ofExcept (r : Except ε α) : (ofExcept r).result = r := rfl

@[simp] theorem events_ofExcept (r : Except ε α) : (ofExcept r).events = [] := rfl

@[simp] theorem result_pure (a : α) : (pure a : Logged ε α).result = .ok a := rfl

@[simp] theorem events_pure (a : α) : (pure a : Logged ε α).events = [] := rfl

@[simp] theorem result_bind (x : Logged ε α) (f : α → Logged ε β) :
    (x >>= f).result = x.result >>= fun a => (f a).result := by
  cases x with
  | mk events result => cases result <;> rfl

@[simp] theorem result_fail (e : ε) : (fail e : Logged ε α).result = .error e := rfl

@[simp] theorem result_emit (level : EventLevel) (message : String) :
    (emit level message : Logged ε Unit).result = .ok () := rfl

@[simp] theorem result_mapError (f : ε → ε') (x : Logged ε α) :
    (x.mapError f).result = x.result.mapError f := rfl

@[simp] theorem result_debugFailure (message : ε → String) (x : Logged ε α) :
    (x.debugFailure message).result = x.result := by
  cases x with
  | mk events result => cases result <;> rfl

end Logged

end DerCodec
