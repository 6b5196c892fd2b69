import ValueFlow.Walk.Expression

/-!
# Simple statements

Statements without statements below them. An assignment evaluates its value before it binds its
target. A tolerant delete that is sure to find its variable unbound, and an expression statement
whose expression is a literal, have no effect and are removed.
-/

namespace ValueFlow
set_option autoImplicit false

namespace Walk

/-- The answer of a rewrite to a statement: the statement in its place, if there is one. -/
abbrev StmtAnswer := Rewritten (Option NodeId)

/-- The statement stays. -/
def stay (id : NodeId) : StmtAnswer := .unchanged (some id)

/-- The statement is removed. -/
def removed (message : String) : StmtAnswer := .changed none .statements message

/-- Binds the target to the value. -/
def rewriteAssign (id : NodeId) (target : VarId) (value : NodeId) : WalkM StmtAnswer := do
  let value ← walkExpr value
  let version ← Site.assign target id
  editStmt id (.withBound value version)
  pure (stay id)

/-- A delete has no effect: it is tolerant, and was sure to find its variable unbound. -/
def isIdleDelete (tolerant : Bool) (prior : TraceKey) : WalkM Bool := do
  if tolerant then
    ofExcept ((← get).analysis.traces.isSurelyUnbound prior)
  else
    pure false

/-- Unbinds the target, and removes the delete if it has no effect. -/
def rewriteDelete (id : NodeId) (target : VarId) (tolerant : Bool) : WalkM StmtAnswer := do
  let prior ← Site.delete target
  if ← isIdleDelete tolerant prior then
    pure (removed "Removed tolerant 'del' statement without effect.")
  else
    editStmt id (.withDeleted (← Site.scopeHere).active[target]?)
    pure (stay id)

/-- Notes the release of the target. -/
def rewriteRelease (id : NodeId) (target : VarId) : WalkM StmtAnswer := do
  discard <| Site.release target
  pure (stay id)

/-- Evaluates the expression, and removes the statement if only a literal is left of it. -/
def rewriteEffect (id : NodeId) (expr : NodeId) : WalkM StmtAnswer := do
  let expr ← walkExpr expr
  if ((← arenaHere).literal? expr).isSome then
    pure (removed "Removed statement without effect.")
  else
    editStmt id (.withEffect expr)
    pure (stay id)

/-- Evaluates the value of a return, if it has one. -/
def rewriteResult (id : NodeId) : Option NodeId → WalkM Unit
  | some value => do editStmt id (.withResult (← walkExpr value))
  | none => pure ()

/-- Enters an early exit at the scope it is taken from. -/
def rewriteExit (id : NodeId) (kind : ExitKind) : WalkM StmtAnswer := do
  Analysis.recordExit kind (← Site.scopeHere)
  pure (stay id)

end Walk

end ValueFlow
