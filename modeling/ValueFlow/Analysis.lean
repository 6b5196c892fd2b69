import ValueFlow.Edit
import ValueFlow.Exit.Registry
import ValueFlow.Focus
import ValueFlow.Trace.Binding
import ValueFlow.Trace.Reads

/-!
# The state of an analysis

What all scopes of one body share: the variable table with its version counters, the trace log,
the exit registries, the notices of edits, and whether names may be used that only the running
program knows. An operation here touches one of these and no scope.
-/

namespace ValueFlow
set_option autoImplicit false

/-- What an analysis may assume of the program's surroundings. `escapeCaptured` says that code
elsewhere may rebind a variable that a closure captures; `debug` is the value of the debug flag. -/
structure Options where
  escapeCaptured : Bool := true
  debug : Bool := true
deriving DecidableEq, Repr

/-- The state that all scopes of an analysis share. -/
structure Analysis where
  vars : Variables
  options : Options
  traces : Traces
  exits : Exits
  dynamicNames : Bool
  edits : EditLog

/-- A computation on the shared state. -/
abbrev AnalysisM := EStateM Fault Analysis

instance : MonadLift TracesM AnalysisM where
  monadLift := focus (·.traces) fun traces state => { state with traces }

namespace Analysis

/-- An analysis that has seen nothing yet. -/
def fresh (vars : Variables) (options : Options) : Analysis where
  vars := vars
  options := options
  traces := ∅
  exits := .closed
  dynamicNames := false
  edits := .empty

/-- What the storage class alone tells of a variable on entry. -/
def entryOrigin : Storage → Origin
  | .parameter => .bound
  | .localSlot => .unbound none
  | .temporary => .unbound none
  | .maybeLocal _ => .unknown none
  | .global => .unknown none

/-- The registered variable under an id. -/
def lookup (var : VarId) : AnalysisM Variable := do
  match (← get).vars.get? var with
  | some slot => pure slot
  | none => throw (.unregistered var)

/-- Records the state of a variable on entry. -/
def recordEntry (var : VarId) : AnalysisM Unit := do
  let slot ← lookup var
  Traces.record ⟨var, .entry⟩ (entryOrigin slot.storage)

/-- Hands out the next version of a variable. -/
def allocate (var : VarId) : AnalysisM Version := do
  match (← get).vars.allocate? var with
  | some (version, vars) => do
    modify ({ · with vars })
    pure version
  | none => throw (.unregistered var)

/-- Hands out the next version of a variable and records where its value comes from. -/
def recordNext (var : VarId) (origin : Origin) : AnalysisM Version := do
  let version ← allocate var
  Traces.record ⟨var, version⟩ origin
  pure version

/-- Enters an exit, taken at a scope, in the open registry of its kind. Outside a function a
return has nowhere to go and is passed over; a break or a continue outside a loop is a fault. -/
def recordExit (kind : ExitKind) (scope : Scope) : AnalysisM Unit := do
  let exits := (← get).exits
  match kind, exits.get kind with
  | _, some snapshots =>
    let snapshot := scope.fork kind.snapshotLabel
    modify ({ · with exits := exits.set kind (some (snapshots ++ [snapshot])) })
  | .ret, none => pure ()
  | kind, none => throw (.strayExit kind)

/-- Takes out the exits of one kind that the innermost construct collected. -/
def takeExits (caught : Catch) (kind : ExitKind) : AnalysisM (List Scope) := do
  let (snapshots, exits) := (← get).exits.take caught kind
  modify ({ · with exits })
  pure snapshots

/-- Notes that names may be read and bound that only the running program knows. -/
def assumeDynamicNames : AnalysisM Unit := modify ({ · with dynamicNames := true })

/-- Gives notice of an edit. -/
def signal (edit : Edit) (span : Span) : AnalysisM Unit :=
  modify fun state => { state with edits := state.edits.signal edit span }

end Analysis

end ValueFlow
