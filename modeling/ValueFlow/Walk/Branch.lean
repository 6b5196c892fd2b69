import ValueFlow.Arena.Completion
import ValueFlow.Scope.Join
import ValueFlow.Walk.Simple

/-!
# Conditionals

A condition that is a literal decides the conditional, and the arm it takes stands in its place.
Otherwise each arm is walked in a fork of the scope, and the scopes of the arms that control runs
past are joined. An absent arm stands for the scope before the arms, unless the other arm never
reaches the join: then there is nothing to join.
-/

namespace ValueFlow
set_option autoImplicit false

namespace Walk

/-- How an arm of a conditional reaches the join behind it. -/
inductive Arm where
  /-- There is no arm, and nothing changes on its path. -/
  | absent
  /-- Control does not run past the arm. -/
  | aborting
  /-- Control runs past the arm with this scope. -/
  | reached (scope : Scope)

/-- The scope that an arm brings to the join. -/
def Arm.scope? : Arm → Option Scope
  | .reached scope => some scope
  | _ => none

/-- Walks one arm in a fork of the scope. -/
def walkArm (visit : NodeId → WalkM (Option NodeId)) (label : String) :
    Option NodeId → WalkM (Option NodeId × Arm)
  | none => pure (none, .absent)
  | some arm => do
    let (node, scope) ← inFork label (visit arm)
    if node.any (← arenaHere).isAborting then
      pure (node, .aborting)
    else
      pure (node, .reached scope)

/-- Joins what the two arms bring. -/
def joinBehind : Arm → Arm → WalkM Unit
  | .aborting, .aborting => pure ()
  | .aborting, .absent => pure ()
  | .absent, .aborting => pure ()
  | .aborting, .reached only => Site.join [only]
  | .reached only, .aborting => Site.join [only]
  | yes, no => Site.joinArms yes.scope? no.scope?

/-- Goes on with the arm that a known condition takes. -/
def takeArm (visit : NodeId → WalkM (Option NodeId)) (truth : Bool) (yes no : Option NodeId) :
    WalkM StmtAnswer := do
  let node ← match if truth then yes else no with
    | some arm => visit arm
    | none => pure none
  pure (.changed node .statements
    s!"Condition for branch statement was predicted to be always {truth}.")

/-- Rewrites a conditional, given the walk of its arms. -/
def rewriteBranch (visit : NodeId → WalkM (Option NodeId)) (id cond : NodeId)
    (yes no : Option NodeId) : WalkM StmtAnswer := do
  let cond ← walkExpr cond
  match (← arenaHere).literal? cond with
  | some value => takeArm visit value.isTruthy yes no
  | none => do
    let (yes, yesArm) ← walkArm visit "branch yes" yes
    let (no, noArm) ← walkArm visit "branch no" no
    joinBehind yesArm noArm
    match yes, no with
    | none, none => do
      let effect ← pushLike id (.stmt (.effect cond))
      pure (.changed (some effect) .statements "Removed conditional statement without effect.")
    | yes, no => do
      editStmt id (.withArms cond yes no)
      pure (stay id)

end Walk

end ValueFlow
