import ValueFlow.Proofs.Integrity.Session
import ValueFlow.Proofs.Rework.Statement

/-!
# What a failing walk reports

A walk over nodes of which none lies below itself fails over one statement, wherever in an
expression, in a loop or behind a join the fault arose. The fault is marked with the span of that
statement, and is marked once (`Walk.Reports`). Ids may point nowhere, or at nodes of the wrong
class: these are among the causes. The log is never to blame, and neither is a join: behind the body
of a function there is a path to join, or nothing is joined.
-/

namespace ValueFlow
set_option autoImplicit false

namespace Walk

/-- The walk of a statement failed at `stmt` below it, over `cause`, and left the arena `last`. The
rewrite of `stmt` itself raised the cause, which carries no mark: a fault from any statement further
down would carry the mark of that one. -/
structure Reports (walk : Walk) (id : NodeId) (fault : Fault) (last : Arena) (stmt : NodeId) (cause : Fault) : Prop where
  marked : fault = .atStatement (last.span stmt) cause
  bare : cause.span? = none
  span : stmt < walk.arena.size → last.span stmt = walk.arena.span stmt
  below : walk.arena.Below id stmt
  told : walk.arena.StmtCause walk.analysis.vars stmt cause
  innermost : ∃ depth before stopped, rewriteStmt (walkStmtWithin depth) stmt before = .error cause stopped ∧ stopped.arena = last

variable {walk after : Walk} {id : NodeId} {fault : Fault}

end Walk

end ValueFlow
