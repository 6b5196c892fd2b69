import ValueFlow.Exit.Kind
import ValueFlow.Scope.Basic

/-!
# Exit registries

A construct that absorbs early exits, a loop or a function, catches some kinds of exits while its
body is walked. For each kind that it catches a fresh registry takes the place of the outer one,
and every exit below is entered there as a snapshot of its scope. When the construct is left, the
registries of the kinds it caught are again what they were, and those of the other kinds keep
what was entered meanwhile.
-/

namespace ValueFlow
set_option autoImplicit false

/-- The kinds of exits that a construct catches. -/
structure Catch where
  breaks : Bool
  continues : Bool
  returns : Bool
deriving DecidableEq, Repr

namespace Catch

/-- A loop catches its own breaks and continues. -/
def byLoop : Catch := ⟨true, true, false⟩

/-- A function body catches returns. -/
def byFunction : Catch := ⟨false, false, true⟩

/-- Catches no exit. -/
def nothing : Catch := ⟨false, false, false⟩

/-- Exits of this kind are caught. -/
def catches (caught : Catch) : ExitKind → Bool
  | .brk => caught.breaks
  | .cont => caught.continues
  | .ret => caught.returns

end Catch

/-- The open registry of each kind of exit, if some construct catches the kind. -/
structure Exits where
  breaks : Option (List Scope)
  continues : Option (List Scope)
  returns : Option (List Scope)

namespace Exits

/-- No construct is open. -/
def closed : Exits := ⟨none, none, none⟩

/-- The registry of one kind. -/
def get (exits : Exits) : ExitKind → Option (List Scope)
  | .brk => exits.breaks
  | .cont => exits.continues
  | .ret => exits.returns

/-- Exchanges the registry of one kind. -/
def set (exits : Exits) (kind : ExitKind) (registry : Option (List Scope)) : Exits :=
  match kind with
  | .brk => { exits with breaks := registry }
  | .cont => { exits with continues := registry }
  | .ret => { exits with returns := registry }

/-- The registries inside a construct: empty ones for the kinds that it catches. -/
def enter (exits : Exits) (caught : Catch) : Exits where
  breaks := if caught.breaks then some [] else exits.breaks
  continues := if caught.continues then some [] else exits.continues
  returns := if caught.returns then some [] else exits.returns

/-- The registries after a construct: the outer ones for the kinds that it caught. -/
def leave (inner : Exits) (caught : Catch) (outer : Exits) : Exits where
  breaks := if caught.breaks then outer.breaks else inner.breaks
  continues := if caught.continues then outer.continues else inner.continues
  returns := if caught.returns then outer.returns else inner.returns

/-- Takes out the snapshots that a construct collected of one kind. A construct has none of a kind
that it does not catch. -/
def take (exits : Exits) (caught : Catch) (kind : ExitKind) : List Scope × Exits :=
  match caught.catches kind, exits.get kind with
  | true, some snapshots => (snapshots, exits.set kind (some []))
  | _, _ => ([], exits)

theorem get_set (exits : Exits) (kind other : ExitKind) (registry : Option (List Scope)) :
    (exits.set kind registry).get other = if other = kind then registry else exits.get other := by
  cases kind <;> cases other <;> simp [get, set]

theorem get_enter (exits : Exits) (caught : Catch) (kind : ExitKind) :
    (exits.enter caught).get kind = if caught.catches kind then some [] else exits.get kind := by
  cases kind <;> rfl

theorem get_leave (inner : Exits) (caught : Catch) (outer : Exits) (kind : ExitKind) :
    (inner.leave caught outer).get kind =
      if caught.catches kind then outer.get kind else inner.get kind := by
  cases kind <;> rfl

end Exits

end ValueFlow
