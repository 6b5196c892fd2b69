import ValueFlow.Arena.Completion
import ValueFlow.Walk.Simple

/-!
# Blocks

The statements of a block are walked in order. What is left of a statement stands in its place: a
block found there gives its statements to the block around it, and a removed statement gives
nothing. Behind a statement that control never runs past, nothing is walked and nothing is kept. A
block that is left without statements is removed.
-/

namespace ValueFlow
set_option autoImplicit false

namespace Walk

/-- Gives notice of the first of some statements that control never reaches, if there are any. -/
def signalDead : List NodeId → WalkM Unit
  | [] => pure ()
  | dead :: _ =>
    signal dead (some ⟨.statements, "Removed dead statements after aborting statement."⟩)

/-- Rewrites statements that stand in a row, given the walk of one, and answers with those kept. -/
def rewriteStmts (visit : NodeId → WalkM (Option NodeId)) : List NodeId → WalkM (List NodeId)
  | [] => pure []
  | stmt :: rest => do
    match ← visit stmt with
    | none => rewriteStmts visit rest
    | some node => do
      let arena ← arenaHere
      let own := (arena.block? node).getD [node]
      if arena.isAborting node then
        signalDead rest
        pure own
      else
        return own ++ (← rewriteStmts visit rest)

/-- Rewrites a block, given the walk of its statements. -/
def rewriteBlock (visit : NodeId → WalkM (Option NodeId)) (id : NodeId) (stmts : List NodeId) :
    WalkM StmtAnswer := do
  match ← rewriteStmts visit stmts with
  | [] => pure (removed "Removed empty statement sequence.")
  | kept => do
    editStmt id (.withStmts kept)
    pure (stay id)

end Walk

end ValueFlow
