import ValueFlow.Walk.Statement

/-!
# Bodies

A body is the statement of a whole module or function, with a top scope of its own. A function
catches the returns below it, and its top scope afterwards is the join of the scopes at its returns
and of the one at its end, if control runs past the end. A module has nothing to return to.
-/

namespace ValueFlow
set_option autoImplicit false

/-- What a body is the body of. -/
inductive BodyKind where
  | moduleBody
  | functionBody
deriving DecidableEq, Repr

/-- The label of the top scope of a body. -/
def BodyKind.label : BodyKind → String
  | .moduleBody => "module"
  | .functionBody => "function"

/-- The top scope of a body that nothing was walked in, and a state that has seen nothing. -/
def Site.forBody (kind : BodyKind) (vars : Variables) (options : Options) : Site where
  scope := .fresh kind.label
  analysis := .fresh vars options

namespace Walk

/-- The scopes at which control leaves a function: those at its returns, then the one at its end
unless control never runs past what is left of its body. -/
def functionExits (node : Option NodeId) (returns : List Scope) : WalkM (List Scope) := do
  if node.any (← arenaHere).isAborting then
    pure returns
  else
    return returns ++ [(← Site.scopeHere).fork "fall through"]

/-- Walks the body of a function and joins its exits. -/
def walkFunction (body : NodeId) : WalkM (Option NodeId) := do
  let (node, returns) ← catching .byFunction do
    let node ← walkStmt body
    pure (node, ← Analysis.takeExits .byFunction .ret)
  match ← functionExits node returns with
  | [] => pure ()
  | exits => Site.join exits
  pure node

/-- Walks a body once and answers with what is left of it. -/
def walkBody : BodyKind → NodeId → WalkM (Option NodeId)
  | .moduleBody, body => walkStmt body
  | .functionBody, body => walkFunction body

end Walk

end ValueFlow
