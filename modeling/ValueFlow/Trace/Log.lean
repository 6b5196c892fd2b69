import ValueFlow.Fault

/-!
# The log of traces

Operations on the trace table. The table is a log: a key is recorded once (`record`), and later
operations only add notes of use to what is there (`annotate`).
-/

namespace ValueFlow
set_option autoImplicit false

/-- A computation on the trace table. -/
abbrev TracesM := EStateM Fault Traces

namespace Traces

/-- The trace under a key. -/
def find (key : TraceKey) : TracesM Trace := do
  match (← get)[key]? with
  | some trace => pure trace
  | none => throw (.missingTrace key)

/-- Records the origin of a version that has no trace yet. -/
def record (key : TraceKey) (origin : Origin) : TracesM Unit := do
  if (← get).contains key then
    throw (.duplicateTrace key)
  else
    modify (·.insert key (.ofOrigin origin))

/-- Changes the notes of the trace under a key. -/
def annotate (key : TraceKey) (note : Trace → Trace) : TracesM Unit := do
  let trace ← find key
  modify (·.insert key (note trace))

/-- Notes that a version is released. -/
def noteRelease (key : TraceKey) : TracesM Unit := annotate key ({ · with released := true })

/-- Notes that the value of a version escapes. -/
def noteEscape (key : TraceKey) : TracesM Unit := annotate key ({ · with escaped := true })

/-- The traces of one variable with their versions, the oldest first. -/
def ofVariable (traces : Traces) (var : VarId) : List (TraceKey × Trace) :=
  traces.toList.filter (·.1.var == var)

end Traces

end ValueFlow
