/-!
# Computations on a part of a state

An analysis is a computation that changes a state and may stop with a fault, and what it changed
before the fault stays changed. `focus` runs a computation written for a part of the state on the
whole of it. So the type of an operation says what it can touch: whatever lies outside the part is
the same afterwards, with or without a fault.
-/

namespace ValueFlow
set_option autoImplicit false

/-- Runs a computation on the part that `part` finds in a state; `put` puts the changed part
back. -/
def focus {ε σ τ α : Type} (part : σ → τ) (put : τ → σ → σ) (act : EStateM ε τ α) :
    EStateM ε σ α :=
  fun state =>
    match act (part state) with
    | .ok value changed => .ok value (put changed state)
    | .error fault changed => .error fault (put changed state)

end ValueFlow
