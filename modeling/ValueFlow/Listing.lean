import ValueFlow.Analysis
import ValueFlow.Trace.Text

/-!
# Listings

The trace log and the current versions of a scope as text, one line for each entry, ordered by
variable and version.
-/

namespace ValueFlow
set_option autoImplicit false

/-- Lines of text, each ended by a line feed. -/
def textOfLines (lines : List String) : String := String.join (lines.map (· ++ "\n"))

namespace Analysis

/-- The line of the listing for one trace. -/
def traceLine (state : Analysis) (entry : TraceKey × Trace) : String :=
  let (key, trace) := entry
  s!"  {state.vars.nameOf key.var} ({key.var}) v{key.version}: {trace.text}"

/-- All traces. -/
def listing (state : Analysis) : String :=
  textOfLines ("Traces:" :: state.traces.toList.map state.traceLine)

/-- The line of the listing for a version that is current in a scope. -/
def activeLine (state : Analysis) (entry : VarId × Version) : String :=
  let (var, version) := entry
  let trace :=
    match state.traces[(⟨var, version⟩ : TraceKey)]? with
    | some trace => trace.text
    | none => "<missing>"
  s!"  {state.vars.nameOf var} v{version}: {trace}"

/-- The current versions of a scope, with the trace of each. -/
def activeListing (state : Analysis) (scope : Scope) : String :=
  textOfLines
    (s!"Active traces ({scope.label}):" :: scope.active.toList.map state.activeLine)

end Analysis

end ValueFlow
