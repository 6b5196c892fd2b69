/-!
# Early exits

The three ways in which control leaves a statement other than by its end, with the words used for
them in messages and for the snapshots taken at them.
-/

namespace ValueFlow
set_option autoImplicit false

/-- An early exit: out of a loop, into its next round, or out of the function. -/
inductive ExitKind where
  | brk
  | cont
  | ret
deriving DecidableEq, Repr

namespace ExitKind

/-- The keyword of an exit. -/
def text : ExitKind → String
  | .brk => "break"
  | .cont => "continue"
  | .ret => "return"

/-- The label of a scope snapshot taken at an exit. -/
def snapshotLabel : ExitKind → String
  | .brk => "loop break"
  | .cont => "loop continue"
  | .ret => "return"

end ExitKind

end ValueFlow
