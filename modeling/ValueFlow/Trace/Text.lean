import ValueFlow.Trace.Basic

/-!
# Traces in words

The form in which a trace appears in a listing: its origin, then each note of use that applies,
after a comma.
-/

namespace ValueFlow
set_option autoImplicit false

/-- An origin in words. -/
def Origin.text : Origin → String
  | .unbound none => "uninit"
  | .unbound (some previous) => s!"uninit (deleted, prev {previous})"
  | .bound => "init"
  | .unknown none => "unknown"
  | .unknown (some previous) => s!"unknown (prev {previous})"
  | .assigned node previous => s!"assign by node {node} (prev {previous})"
  | .joined sources => "merge of " ++ " <-> ".intercalate (sources.map toString)

namespace Trace

/-- The notes of use that apply, in the order in which they are listed. -/
def notes (trace : Trace) : List String :=
  (if trace.reads > 0 then [s!"{trace.reads} usages"] else []) ++
  (if trace.mayBeRead then ["potentially used"] else []) ++
  (if trace.released then ["released"] else []) ++
  (if trace.escaped then ["value escapes"] else [])

/-- A trace in words. -/
def text (trace : Trace) : String :=
  ", ".intercalate (trace.origin.text :: trace.notes)

end Trace

end ValueFlow
