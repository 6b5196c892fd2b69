import Std.Data.ExtTreeMap
import ValueFlow.Variable

/-!
# Scopes

A scope says which version of each variable is current at a point of the walk. A variable enters a
scope when it is first looked at; until then it stands at its entry version (`versionOf`). A fork
is a copy under another label. It shares nothing with the scope it was taken from, so it is as
good for a branch as for a snapshot.
-/

namespace ValueFlow
set_option autoImplicit false

/-- The current version of each variable that was looked at. -/
structure Scope where
  label : String
  active : Std.ExtTreeMap VarId Version

namespace Scope

/-- The scope in which no variable was looked at. -/
def fresh (label : String) : Scope := ⟨label, ∅⟩

/-- A copy under another label. -/
def fork (scope : Scope) (label : String) : Scope := ⟨label, scope.active⟩

/-- The variables that were looked at, in order of their ids. -/
def activeVars (scope : Scope) : List VarId := scope.active.keys

/-- The version at which a variable stands: its entry version if it was not looked at. -/
def versionOf (scope : Scope) (var : VarId) : Version := scope.active[var]?.getD .entry

/-- Makes a version current. -/
def setVersion (scope : Scope) (var : VarId) (version : Version) : Scope :=
  { scope with active := scope.active.insert var version }

theorem versionOf_setVersion (scope : Scope) (var other : VarId) (version : Version) :
    (scope.setVersion var version).versionOf other =
      if other = var then version else scope.versionOf other := by
  simp only [versionOf, setVersion, Std.ExtTreeMap.getElem?_insert]
  by_cases same : var = other
  · subst same
    simp
  · simp [same, Ne.symm same]

end Scope

end ValueFlow
