import ValueFlow.Arena.Basic
import ValueFlow.Scope.Access

/-!
# Walks over an arena

The state of a walk is the arena, which it rewrites as it goes, and the scope at its position with
the state behind it. Three brackets bound what a part of a walk leaves behind, whether it ends well
or with a fault: `inFork` gives it a scope of its own, `catching` gives it registries of its own
for some kinds of exits, and `located` marks its faults with a statement.
-/

namespace ValueFlow
set_option autoImplicit false

/-- The state of a walk. -/
structure Walk extends Site where
  arena : Arena

/-- A computation that walks an arena. -/
abbrev WalkM := EStateM Fault Walk

instance : MonadLift SiteM WalkM where
  monadLift := focus (·.toSite) fun site walk => { walk with toSite := site }

namespace Walk

/-- The arena as it stands. -/
def arenaHere : WalkM Arena := return (← get).arena

/-- Edits the statement under an id. -/
def editStmt (id : NodeId) (edit : Stmt → Stmt) : WalkM Unit :=
  modify fun walk => { walk with arena := walk.arena.mapStmt id edit }

/-- Edits the expression under an id. -/
def editExpr (id : NodeId) (edit : Expr → Expr) : WalkM Unit :=
  modify fun walk => { walk with arena := walk.arena.mapExpr id edit }

/-- Adds a node that stands for the same source text as an old one. -/
def pushLike (old : NodeId) (node : Node) : WalkM NodeId := do
  let arena ← arenaHere
  modify ({ · with arena := arena.push node (arena.span old) })
  pure arena.size

/-- Gives notice of a rewrite of a node, if it made an edit. -/
def signal (id : NodeId) : Option Edit → WalkM Unit
  | some edit => do Analysis.signal edit ((← arenaHere).span id)
  | none => pure ()

/-- Runs a part of the walk in a fork of the scope, and answers with the fork as well. -/
def inFork {α : Type} (label : String) (act : WalkM α) : WalkM (α × Scope) := fun walk =>
  match act { walk with scope := walk.scope.fork label } with
  | .ok value after => .ok (value, after.scope) { after with scope := walk.scope }
  | .error fault after => .error fault { after with scope := walk.scope }

/-- The state with the registries of a construct replaced by those around it. -/
def leaveRegistries (walk : Walk) (caught : Catch) (outer : Exits) : Walk :=
  { walk with analysis :=
    { walk.analysis with exits := walk.analysis.exits.leave caught outer } }

/-- Runs a part of the walk inside a construct that catches some kinds of exits. -/
def catching {α : Type} (caught : Catch) (act : WalkM α) : WalkM α := fun walk =>
  let outer := walk.analysis.exits
  match act { walk with analysis := { walk.analysis with exits := outer.enter caught } } with
  | .ok value after => .ok value (after.leaveRegistries caught outer)
  | .error fault after => .error fault (after.leaveRegistries caught outer)

/-- Marks the faults of a part of the walk with the statement that is walked. -/
def located {α : Type} (span : Span) (act : WalkM α) : WalkM α := fun walk =>
  match act walk with
  | .ok value after => .ok value after
  | .error fault after => .error (fault.within span) after

end Walk

end ValueFlow
