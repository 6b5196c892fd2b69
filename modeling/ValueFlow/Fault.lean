import ValueFlow.Exit.Kind
import ValueFlow.Span
import ValueFlow.Trace.Basic

/-!
# Faults

What can go wrong in an analysis. A fault lies in the nodes or in the calls made, never in the
program under analysis: a read of an unbound variable is a fact about that program, which its
trace tells. On the way out of a walk a fault is marked once with the span of the innermost
statement around it (`Fault.within`).
-/

namespace ValueFlow
set_option autoImplicit false

/-- Why an analysis could not go on. -/
inductive Fault where
  /-- A trace was recorded under a key that has one. -/
  | duplicateTrace (key : TraceKey)
  /-- A version was named that has no trace. -/
  | missingTrace (key : TraceKey)
  /-- A variable was named that is not registered. -/
  | unregistered (var : VarId)
  /-- A loop was left, or continued, where none is open. -/
  | strayExit (kind : ExitKind)
  /-- A join was asked for without any incoming path. -/
  | emptyJoin
  /-- A node is not of the kind that its place demands. -/
  | wrongShape (node : NodeId) (expected : String)
  /-- A node lies below itself. -/
  | cyclicNesting (node : NodeId)
  /-- A fault met while the statement at a span was walked. -/
  | atStatement (span : Span) (cause : Fault)
deriving DecidableEq, Repr

namespace Fault

/-- A fault in words. -/
def message : Fault → String
  | .duplicateTrace key => s!"duplicate trace for variable {key.var} version {key.version}"
  | .missingTrace key => s!"no trace for variable {key.var} version {key.version}"
  | .unregistered var => s!"variable {var} is not registered"
  | .strayExit kind => s!"{kind.text} outside of any construct tracking it"
  | .emptyJoin => "merge of zero branches"
  | .wrongShape node expected => s!"node {node} is not {expected}"
  | .cyclicNesting node => s!"node {node} lies below itself"
  | .atStatement span cause => s!"problem with statement at {span.text}: {cause.message}"

/-- Marks a fault with the statement it was met in, unless an inner statement did so before. -/
def within (span : Span) : Fault → Fault
  | .atStatement inner cause => .atStatement inner cause
  | fault => .atStatement span fault

/-- The span of the statement that a fault is marked with. -/
def span? : Fault → Option Span
  | .atStatement span _ => some span
  | _ => none

/-- A fault without any mark. -/
def rootCause : Fault → Fault
  | .atStatement _ cause => cause.rootCause
  | fault => fault

end Fault

end ValueFlow
