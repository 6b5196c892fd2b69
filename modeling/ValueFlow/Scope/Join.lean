import Std.Data.ExtTreeSet
import ValueFlow.Scope.Access

/-!
# Joins

Where control paths meet, the scopes at their ends are joined into the scope that goes on. For each
variable that some path looked at, the versions at which the paths hold it are collected; a path
that did not look at it holds its entry version. If all agree, their version goes on. Otherwise a
new version is recorded that may be any of them.

The collected versions are a sorted set, so neither the order of the paths nor a repeated path
matters to the outcome.
-/

namespace ValueFlow
set_option autoImplicit false

namespace Scope

/-- The variables that some path looked at, in order of their ids. -/
def varsOf (paths : List Scope) : List VarId :=
  (Std.ExtTreeSet.ofList (paths.flatMap (·.activeVars))).toList

/-- The versions at which the paths hold a variable, in increasing order. -/
def versionsOf (paths : List Scope) (var : VarId) : List Version :=
  (Std.ExtTreeSet.ofList (paths.map (·.versionOf var))).toList

/-- Takes over the versions of another scope. -/
def adopt (scope path : Scope) : Scope := { scope with active := scope.active ∪ path.active }

end Scope

namespace Site

/-- Makes the version current that stands for all of the versions given. -/
def joinVersions (var : VarId) : List Version → SiteM Unit
  | [version] => setVersion var version
  | versions => do
    versions.forM fun version => discard <| Traces.find ⟨var, version⟩
    setVersion var (← Analysis.recordNext var (.joined versions))

/-- Joins the scopes at the ends of all paths into the scope at hand. -/
def join : List Scope → SiteM Unit
  | [] => throw .emptyJoin
  | [path] => modify fun site => { site with scope := site.scope.adopt path }
  | paths => do
    modify fun site => { site with scope := .fresh site.scope.label }
    (Scope.varsOf paths).forM fun var => joinVersions var (Scope.versionsOf paths var)

/-- Joins the ends of the two arms of a conditional. A missing arm changed nothing, so that the
scope at hand stands for it. -/
def joinArms : Option Scope → Option Scope → SiteM Unit
  | none, none => pure ()
  | some yes, some no => join [yes, no]
  | some path, none => do join [← scopeHere, path]
  | none, some path => do join [← scopeHere, path]

end Site

end ValueFlow
