/-!
# Computations that leave a trace

A value and the list of events on the way to it, in order: passes of a loop, buffers asked for,
bytes read. The trace of a sequence is the trace of its parts, so what a program may do is read off
its text, and a bound on the trace is a bound on the run.
-/

namespace Traces

/-- A computation of `α` that emits events of `ω`. -/
structure Traced (ω α : Type) where
  events : List ω
  value : α

namespace Traced

variable {ω α β : Type}

instance : Monad (Traced ω) where
  pure a := ⟨[], a⟩
  bind x f := ⟨x.events ++ (f x.value).events, (f x.value).value⟩

/-- Emit one event. -/
def emit (event : ω) : Traced ω Unit := ⟨[event], ()⟩

@[simp] theorem events_pure (a : α) : (pure a : Traced ω α).events = [] := rfl

@[simp] theorem value_pure (a : α) : (pure a : Traced ω α).value = a := rfl

@[simp] theorem events_bind (x : Traced ω α) (f : α → Traced ω β) :
    (x >>= f).events = x.events ++ (f x.value).events := rfl

@[simp] theorem value_bind (x : Traced ω α) (f : α → Traced ω β) :
    (x >>= f).value = (f x.value).value := rfl

@[simp] theorem events_emit (event : ω) : (emit event).events = [event] := rfl

end Traced

end Traces
