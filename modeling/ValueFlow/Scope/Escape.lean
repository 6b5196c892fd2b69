import ValueFlow.Scope.Access

/-!
# Loss of knowledge

Where control leaves the walk's sight, those variables of the scope are forgotten that code
elsewhere may rebind: globals always, and variables captured by a closure where the options say so.
Before a loop body is walked, every variable that it writes is forgotten, since a later round may
see what an earlier one wrote.
-/

namespace ValueFlow
set_option autoImplicit false

/-- Code elsewhere may rebind the variable. -/
def Variable.mayBeRebound (slot : Variable) (options : Options) : Bool :=
  slot.isGlobal || options.escapeCaptured && slot.captured

namespace Site

/-- Forgets a variable of the scope if code elsewhere may rebind it. -/
def escape (var : VarId) : SiteM Unit := do
  let slot ← Analysis.lookup var
  if slot.mayBeRebound (← get).analysis.options then
    discard <| forget var

/-- Forgets every variable of the scope that code elsewhere may rebind. -/
def escapeAll : SiteM Unit := do
  (← scopeHere).activeVars.forM escape

/-- Forgets each of the listed variables. -/
def forgetAll (vars : List VarId) : SiteM Unit :=
  vars.forM fun var => discard <| forget var

end Site

end ValueFlow
