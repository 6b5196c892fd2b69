import ValueFlow.Analysis

/-!
# Reads and writes in a scope

The protocol by which a walk looks at variables and changes them. A look at a variable enters it
in the scope and records its entry state, if no trace does so yet. Every write (an assignment, a
delete, a loss of knowledge) records a new version derived from the current one and makes it
current; traces that are there already are never replaced.
-/

namespace ValueFlow
set_option autoImplicit false

/-- A scope together with the state it shares with the other scopes of the analysis. -/
structure Site where
  scope : Scope
  analysis : Analysis

/-- A computation at a scope. -/
abbrev SiteM := EStateM Fault Site

instance : MonadLift AnalysisM SiteM where
  monadLift := focus (·.analysis) fun analysis site => { site with analysis }

namespace Site

/-- The scope at hand. -/
def scopeHere : SiteM Scope := return (← get).scope

/-- Makes a version current. -/
def setVersion (var : VarId) (version : Version) : SiteM Unit :=
  modify fun site => { site with scope := site.scope.setVersion var version }

/-- The current version of a variable, entering it in the scope at the first look. -/
def currentVersion (var : VarId) : SiteM Version := do
  let site ← get
  match site.scope.active[var]? with
  | some version => pure version
  | none => do
    if !site.analysis.traces.contains ⟨var, .entry⟩ then
      Analysis.recordEntry var
    setVersion var .entry
    pure .entry

/-- The key of the current trace of a variable. -/
def currentKey (var : VarId) : SiteM TraceKey := return ⟨var, ← currentVersion var⟩

/-- The current trace of a variable, with its key. -/
def currentTrace (var : VarId) : SiteM (TraceKey × Trace) := do
  let key ← currentKey var
  return (key, ← Traces.find key)

/-- Records a write: a new version, whose origin may name the version before, becomes current.
Answers with the versions before and after. -/
def write (var : VarId) (origin : Version → Origin) : SiteM (Version × Version) := do
  let previous ← currentVersion var
  let version ← Analysis.recordNext var (origin previous)
  setVersion var version
  pure (previous, version)

/-- The assignment at a node binds a variable; the answer is its new version. -/
def assign (var : VarId) (node : NodeId) : SiteM Version :=
  return (← write var (.assigned node)).2

/-- A delete unbinds a variable; the answer is the key from before, which tells whether the delete
was sure to find the variable bound, or unbound. -/
def delete (var : VarId) : SiteM TraceKey :=
  return ⟨var, (← write var fun previous => .unbound (some previous)).1⟩

/-- Nothing is known of a variable any longer. -/
def forget (var : VarId) : SiteM Version :=
  return (← write var fun previous => .unknown (some previous)).2

/-- Notes that the current version of a variable is released. -/
def release (var : VarId) : SiteM TraceKey := do
  let key ← currentKey var
  Traces.noteRelease key
  pure key

/-- Notes that the current value of a variable escapes. -/
def contentEscapes (var : VarId) : SiteM Unit := do
  Traces.noteEscape (← currentKey var)

/-- Counts a read of the current version of a variable. -/
def read (var : VarId) : SiteM Unit := do
  Traces.noteRead (← currentKey var)

end Site

end ValueFlow
