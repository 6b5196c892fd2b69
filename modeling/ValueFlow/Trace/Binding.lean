import ValueFlow.Trace.Log

/-!
# Bound or unbound

Whether a variable is sure to be bound, or sure to be unbound, at one of its versions. A join
answers for its sources: the answer is sure where it is sure of all of them. Every other origin
answers for itself.

A join is recorded after its sources and so carries a greater version than any of them, which
bounds the descent. A source that is not older than its join would be no evidence, and none is
taken from it.
-/

namespace ValueFlow
set_option autoImplicit false

namespace Traces

/-- Every origin that a version may stand for, seen through the joins, has a property. -/
def everyLeaf (traces : Traces) (holds : Origin → Bool) (var : VarId) (version : Version) :
    Except Fault Bool :=
  match traces[(⟨var, version⟩ : TraceKey)]? with
  | none => throw (.missingTrace ⟨var, version⟩)
  | some trace =>
    match trace.origin with
    | .joined sources =>
      sources.allM fun source =>
        if _ : source < version then traces.everyLeaf holds var source else pure false
    | origin => pure (holds origin)
termination_by version

/-- An origin that leaves the variable bound. -/
def leavesBound : Origin → Bool
  | .bound => true
  | .assigned _ _ => true
  | _ => false

/-- An origin that leaves the variable unbound. -/
def leavesUnbound : Origin → Bool
  | .unbound _ => true
  | _ => false

/-- The variable is bound on every path to the version. -/
def isSurelyBound (traces : Traces) (key : TraceKey) : Except Fault Bool :=
  traces.everyLeaf leavesBound key.var key.version

/-- The variable is unbound on every path to the version. -/
def isSurelyUnbound (traces : Traces) (key : TraceKey) : Except Fault Bool :=
  traces.everyLeaf leavesUnbound key.var key.version

end Traces

end ValueFlow
