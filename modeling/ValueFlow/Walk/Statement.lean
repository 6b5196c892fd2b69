import ValueFlow.Walk.Block
import ValueFlow.Walk.Branch
import ValueFlow.Walk.Loop

/-!
# Statements

The walk of any statement: it rewrites the statement by its kind, gives notice of the edit with the
statement's own span, and answers with the statement that takes its place, if there is one. A fault
is marked with the innermost statement under walk.
-/

namespace ValueFlow
set_option autoImplicit false

namespace Walk

/-- Rewrites a statement, given the walk of the statements below it. -/
def rewriteStmt (visit : NodeId → WalkM (Option NodeId)) (id : NodeId) : WalkM StmtAnswer := do
  match (← arenaHere).stmt? id with
  | none => throw (.wrongShape id "a statement")
  | some (.block stmts) => rewriteBlock visit id stmts
  | some (.assign target value _) => rewriteAssign id target value
  | some (.delete target tolerant _) => rewriteDelete id target tolerant
  | some (.release target) => rewriteRelease id target
  | some (.effect expr) => rewriteEffect id expr
  | some (.branch cond yes no) => rewriteBranch visit id cond yes no
  | some (.loop body) => rewriteLoop visit id body
  | some .brk => rewriteExit id .brk
  | some .cont => rewriteExit id .cont
  | some (.ret value) => do
    rewriteResult id value
    rewriteExit id .ret

/-- Walks a statement that is nested no deeper than `depth` levels. -/
def walkStmtWithin : Nat → NodeId → WalkM (Option NodeId)
  | 0, id => throw (.cyclicNesting id)
  | depth + 1, id => do
    located ((← arenaHere).span id) do
      let answer ← rewriteStmt (walkStmtWithin depth) id
      signal id answer.edit
      pure answer.node

/-- Walks a statement and answers with the one that takes its place. Nodes that do not lie below
themselves are nested no deeper than the arena is large. -/
def walkStmt (id : NodeId) : WalkM (Option NodeId) := do
  walkStmtWithin ((← arenaHere).size + 1) id

end Walk

end ValueFlow
