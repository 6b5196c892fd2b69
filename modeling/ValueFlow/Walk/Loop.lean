import ValueFlow.Arena.Writes
import ValueFlow.Scope.Escape
import ValueFlow.Scope.Join
import ValueFlow.Walk.Simple

/-!
# Loops

A loop repeats its body until something leaves it, so only a break leads to the statement behind
it: the scope after the loop is the join of the scopes at its breaks, and without a break the scope
stays as it is, for nothing runs past the loop.

The body is walked once. A later round may start with anything that an earlier one wrote, so every
variable that the body writes is forgotten first. Continues and the end of the body lead back to the
head, not past the loop, and the snapshots taken at continues are dropped.

A continue at the very end of the body does what the end does and is removed. A loop whose body is
nothing but a break does nothing and is removed.
-/

namespace ValueFlow
set_option autoImplicit false

namespace Walk

/-- Walks the body of a loop in a scope of its own, and answers with the scopes at its breaks. -/
def walkLoopBody (visit : NodeId → WalkM (Option NodeId)) (body : NodeId) :
    WalkM (Option NodeId × List Scope) := do
  let written := (← arenaHere).variablesWritten body
  let (answer, _) ← inFork "loop" <| catching .byLoop do
    Site.forgetAll written
    let node ← visit body
    pure (node, ← Analysis.takeExits .byLoop .brk)
  pure answer

/-- What is left of a body after the continue at its end is removed. -/
def trimmed (node : Option NodeId) : StmtAnswer :=
  .changed node .statements "Removed useless terminal 'continue' as last statement of loop."

/-- Removes a continue at the end of a body, and the body if nothing else is in it. -/
def trimContinue (body : NodeId) : WalkM StmtAnswer := do
  let arena ← arenaHere
  let stmts := (arena.block? body).getD []
  if stmts.getLast?.bind arena.stmt? == some .cont then
    match stmts.dropLast with
    | [] => pure (trimmed none)
    | kept => do
      editStmt body (.withStmts kept)
      pure (trimmed (some body))
  else
    pure (stay body)

/-- Removes a continue at the end of what is left of a body. -/
def trimBody : Option NodeId → WalkM StmtAnswer
  | some body => trimContinue body
  | none => pure (.unchanged none)

/-- The body consists of a single break. -/
def isLoneBreak (arena : Arena) (body : NodeId) : Bool :=
  match arena.block? body with
  | some [only] => arena.stmt? only == some .brk
  | _ => false

/-- Goes on behind a loop with the join of the scopes at its breaks, if there is any. -/
def joinBreaks : List Scope → WalkM Unit
  | [] => pure ()
  | breaks => Site.join breaks

/-- Rewrites a loop, given the walk of its body, which must be a block. -/
def rewriteLoop (visit : NodeId → WalkM (Option NodeId)) (id : NodeId) :
    Option NodeId → WalkM StmtAnswer
  | none => pure (stay id)
  | some body => do
    if ((← arenaHere).block? body).isNone then
      throw (.wrongShape body "a statement sequence")
    let (node, breaks) ← walkLoopBody visit body
    let left ← trimBody node
    editStmt id (.withBody left.node)
    joinBreaks breaks
    if left.node.any (isLoneBreak (← arenaHere)) then
      pure (removed "Removed useless loop with immediate 'break' statement.")
    else
      pure ⟨some id, left.edit⟩

end Walk

end ValueFlow
