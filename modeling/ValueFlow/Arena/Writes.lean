import ValueFlow.Arena.Basic

/-!
# Variables that a statement may write

A scan of the shape of the nodes: every target of an assignment or a delete below a statement,
also in arms that never run, each once, in the order in which the targets stand in the text.

The scan keeps a stack of nodes still to visit, each with the number of levels it may still go
down. It ends because the stack's unfolding, the number of visits it stands for, falls by one at
every step. An arena without cycles is never deeper than it has nodes, so `variablesWritten` sees
all of it.
-/

namespace ValueFlow
set_option autoImplicit false

namespace Arena

/-- The visits that a scan makes below a node when it goes down `depth` levels. -/
def unfoldingSize (arena : Arena) : Nat → NodeId → Nat
  | 0, _ => 1
  | depth + 1, id =>
    match arena.stmt? id with
    | some stmt => stmt.children.foldr (fun child size => arena.unfoldingSize depth child + size) 1
    | none => 1

/-- A scan of nodes visits what it would from one visit on, and what is visited besides. -/
theorem foldr_unfoldingSize (arena : Arena) (depth : Nat) (nodes : List NodeId) (visits : Nat) :
    nodes.foldr (fun child size => arena.unfoldingSize depth child + size) 1 + visits =
      nodes.foldr (fun child size => arena.unfoldingSize depth child + size) visits + 1 := by
  induction nodes with
  | nil => exact Nat.add_comm ..
  | cons node rest ih =>
    simp only [List.foldr_cons, Nat.add_assoc]
    exact congrArg _ ih

/-- Appends a variable that is not in the list yet. -/
def addWritten (written : List VarId) : Option VarId → List VarId
  | some var => if var ∈ written then written else written ++ [var]
  | none => written

/-- Visits the nodes on the stack from its top, and appends each new target. -/
def scanWrites (arena : Arena) : List (Nat × NodeId) → List VarId → List VarId
  | [], written => written
  | (0, _) :: rest, written => arena.scanWrites rest written
  | (depth + 1, id) :: rest, written =>
    match _ : arena.stmt? id with
    | none => arena.scanWrites rest written
    | some stmt =>
      arena.scanWrites (stmt.children.map (depth, ·) ++ rest) (addWritten written stmt.target?)
termination_by stack => stack.foldr (fun entry size => arena.unfoldingSize entry.1 entry.2 + size) 0
decreasing_by
  · simp [unfoldingSize]
  · simp [unfoldingSize, *]
  · simp [unfoldingSize, *, List.foldr_map, foldr_unfoldingSize]

/-- The variables that an assignment or a delete anywhere below a node may write. -/
def variablesWritten (arena : Arena) (root : NodeId) : List VarId :=
  arena.scanWrites [(arena.size, root)] []

end Arena

end ValueFlow
