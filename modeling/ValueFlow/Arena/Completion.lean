import ValueFlow.Arena.Basic
import ValueFlow.Exit.Kind

/-!
# How control may leave a statement

Answers read off the shape of the nodes alone: by which early exits a statement may be left
(`mayExit`), and whether control can never run past its end (`isAborting`). A loop absorbs the
breaks and the continues below it and lets returns through, so a break is the only way past a
loop's end.

The recursion goes down at most as many levels as the arena has nodes. A chain of distinct nodes
is no longer than that, so on an arena without cycles the bound is never felt.
-/

namespace ValueFlow
set_option autoImplicit false

namespace Arena

/-- `mayExit` on the first `depth` levels below a node. -/
def mayExitWithin (arena : Arena) (kind : ExitKind) : Nat → NodeId → Bool
  | 0, _ => false
  | depth + 1, id =>
    match arena.stmt? id with
    | some .brk => kind == .brk
    | some .cont => kind == .cont
    | some (.ret _) => kind == .ret
    | some (.block stmts) => stmts.any (arena.mayExitWithin kind depth)
    | some (.branch _ yes no) =>
      yes.any (arena.mayExitWithin kind depth) || no.any (arena.mayExitWithin kind depth)
    | some (.loop body) => kind == .ret && body.any (arena.mayExitWithin kind depth)
    | _ => false

/-- Control may leave the statement by an exit of this kind. -/
def mayExit (arena : Arena) (kind : ExitKind) (id : NodeId) : Bool :=
  arena.mayExitWithin kind arena.size id

/-- The statement may break the innermost loop around it. -/
def mayBreak (arena : Arena) (id : NodeId) : Bool := arena.mayExit .brk id

/-- The statement may continue the innermost loop around it. -/
def mayContinue (arena : Arena) (id : NodeId) : Bool := arena.mayExit .cont id

/-- The statement may return from the function around it. -/
def mayReturn (arena : Arena) (id : NodeId) : Bool := arena.mayExit .ret id

/-- `isAborting` on the first `depth` levels below a node. -/
def isAbortingWithin (arena : Arena) : Nat → NodeId → Bool
  | 0, _ => false
  | depth + 1, id =>
    match arena.stmt? id with
    | some .brk => true
    | some .cont => true
    | some (.ret _) => true
    | some (.block stmts) => stmts.any (arena.isAbortingWithin depth)
    | some (.branch _ (some yes) (some no)) =>
      arena.isAbortingWithin depth yes && arena.isAbortingWithin depth no
    | some (.loop body) => !body.any arena.mayBreak
    | _ => false

/-- Control never runs past the end of the statement. -/
def isAborting (arena : Arena) (id : NodeId) : Bool :=
  arena.isAbortingWithin arena.size id

end Arena

end ValueFlow
