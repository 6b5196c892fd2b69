import ValueFlow.Scope.Escape
import ValueFlow.Walk.Basic

/-!
# Expressions

A walk of an expression walks its operands in the order of evaluation, replaces built-in names of
known value by literals, and notes at every read the version that it sees. A call may run any
code, so the variables of the scope that code elsewhere may rebind are forgotten after it; an
evaluation of source text may also name any variable.

A read is counted once the rewrite of its node is settled, so that a node which was rewritten to
something else is not taken for a read.
-/

namespace ValueFlow
set_option autoImplicit false

/-- The value of a built-in name that always has the same value. -/
def builtinValue? (options : Options) : String → Option Literal
  | "None" => some .none
  | "True" => some (.bool true)
  | "False" => some (.bool false)
  | "__debug__" => some (.bool options.debug)
  | "Ellipsis" => some .ellipsis
  | _ => none

namespace Walk

/-- Replaces a built-in name of known value by a literal. -/
def rewriteBuiltin (id : NodeId) (name : String) : WalkM (Rewritten NodeId) := do
  match builtinValue? (← get).analysis.options name with
  | none => pure (.unchanged id)
  | some value => do
    let folded ← pushLike id (.expr (.literal value))
    pure (.changed folded .constant s!"Built-in constant '{name}' resolved.")

/-- Rewrites an expression, given the walk of its operands. -/
def rewriteExpr (visit : NodeId → WalkM NodeId) (id : NodeId) : WalkM (Rewritten NodeId) := do
  match (← arenaHere).expr? id with
  | none => throw (.wrongShape id "an expression")
  | some (.literal _) => pure (.unchanged id)
  | some (.read var _) => do
    let version ← Site.currentVersion var
    editExpr id (.withSeen version)
    pure (.unchanged id)
  | some (.builtin name) => rewriteBuiltin id name
  | some (.call callee args) => do
    let callee ← visit callee
    let args ← args.mapM visit
    editExpr id (.withCall callee args)
    Site.escapeAll
    pure (.unchanged id)
  | some (.eval source) => do
    let source ← visit source
    editExpr id (.withSource source)
    Analysis.assumeDynamicNames
    Site.escapeAll
    pure (.unchanged id)

/-- The variable that is read where an unbound local is named. -/
def fallback? (var : VarId) : WalkM (Option VarId) :=
  return (← get).analysis.vars.get? var >>= (·.storage.fallback?)

/-- Counts the read that a node is, if it is one. -/
def countRead (id : NodeId) : WalkM Unit := do
  match (← arenaHere).expr? id with
  | some (.read var _) => do
    Site.read var
    match ← fallback? var with
    | some other => Site.read other
    | none => pure ()
  | _ => pure ()

/-- Walks an expression that is nested no deeper than `depth` levels. -/
def walkExprWithin : Nat → NodeId → WalkM NodeId
  | 0, id => throw (.cyclicNesting id)
  | depth + 1, id => do
    let answer ← rewriteExpr (walkExprWithin depth) id
    signal id answer.edit
    countRead answer.node
    pure answer.node

/-- Walks an expression and answers with the node that takes its place. Nodes that do not lie below
themselves are nested no deeper than the arena is large. -/
def walkExpr (id : NodeId) : WalkM NodeId := do
  walkExprWithin ((← arenaHere).size + 1) id

end Walk

end ValueFlow
