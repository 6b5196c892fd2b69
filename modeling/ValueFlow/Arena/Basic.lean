import ValueFlow.Span
import ValueFlow.Syntax

/-!
# The node arena

Nodes and their spans, addressed by position. An arena only grows: a replaced node stays where it
is, and its parent is made to name another one. An edit (`mapStmt`, `mapExpr`) keeps the span and
the class of the slot it touches, and does nothing to a slot of the other class or to an id past
the end (`span_mapStmt`, `span_mapExpr`).
-/

namespace ValueFlow
set_option autoImplicit false

/-- A node and the source text it stands for. -/
structure Slot where
  node : Node
  span : Span
deriving DecidableEq, Repr

/-- The nodes of a compilation unit. -/
structure Arena where
  slots : Array Slot
deriving DecidableEq, Repr

namespace Arena

/-- The arena without nodes. -/
def empty : Arena := ⟨#[]⟩

/-- The number of nodes, which is also the next id. -/
def size (arena : Arena) : Nat := arena.slots.size

/-- Adds a node; its id is the size before. -/
def push (arena : Arena) (node : Node) (span : Span) : Arena := ⟨arena.slots.push ⟨node, span⟩⟩

/-- The node under an id. -/
def node? (arena : Arena) (id : NodeId) : Option Node := arena.slots[id]?.map (·.node)

/-- The statement under an id, if a statement is there. -/
def stmt? (arena : Arena) (id : NodeId) : Option Stmt :=
  match arena.node? id with
  | some (.stmt stmt) => some stmt
  | _ => none

/-- The expression under an id, if an expression is there. -/
def expr? (arena : Arena) (id : NodeId) : Option Expr :=
  match arena.node? id with
  | some (.expr expr) => some expr
  | _ => none

/-- The span of a node, and the synthetic span past the end. -/
def span (arena : Arena) (id : NodeId) : Span :=
  match arena.slots[id]? with
  | some slot => slot.span
  | none => .synthetic

/-- The statements of a block. -/
def block? (arena : Arena) (id : NodeId) : Option (List NodeId) :=
  match arena.stmt? id with
  | some (.block stmts) => some stmts
  | _ => none

/-- The value of a literal. -/
def literal? (arena : Arena) (id : NodeId) : Option Literal :=
  match arena.expr? id with
  | some (.literal value) => some value
  | _ => none

/-- Applies an edit to the statement under an id. -/
def mapStmt (arena : Arena) (id : NodeId) (edit : Stmt → Stmt) : Arena :=
  ⟨arena.slots.modify id fun slot =>
    match slot.node with
    | .stmt stmt => { slot with node := .stmt (edit stmt) }
    | .expr _ => slot⟩

/-- Applies an edit to the expression under an id. -/
def mapExpr (arena : Arena) (id : NodeId) (edit : Expr → Expr) : Arena :=
  ⟨arena.slots.modify id fun slot =>
    match slot.node with
    | .expr expr => { slot with node := .expr (edit expr) }
    | .stmt _ => slot⟩

/-- Overwrites a slot with a node of the class it holds, and refuses any other. -/
def replace? (arena : Arena) (id : NodeId) : Node → Option Arena
  | .stmt stmt => if (arena.stmt? id).isSome then some (arena.mapStmt id fun _ => stmt) else none
  | .expr expr => if (arena.expr? id).isSome then some (arena.mapExpr id fun _ => expr) else none

@[simp] theorem size_push (arena : Arena) (node : Node) (span : Span) :
    (arena.push node span).size = arena.size + 1 := by
  simp [push, size]

@[simp] theorem size_mapStmt (arena : Arena) (id : NodeId) (edit : Stmt → Stmt) :
    (arena.mapStmt id edit).size = arena.size := by
  simp [mapStmt, size]

@[simp] theorem size_mapExpr (arena : Arena) (id : NodeId) (edit : Expr → Expr) :
    (arena.mapExpr id edit).size = arena.size := by
  simp [mapExpr, size]

theorem node?_push (arena : Arena) (node : Node) (span : Span) (id : NodeId) :
    (arena.push node span).node? id = if id = arena.size then some node else arena.node? id := by
  simp only [node?, push, Array.getElem?_push]
  by_cases last : id = arena.size
  · simp [last, size]
  · simp [last, show id ≠ arena.slots.size from last]

theorem node?_mapStmt (arena : Arena) (id other : NodeId) (edit : Stmt → Stmt) :
    (arena.mapStmt id edit).node? other =
      if other = id then (arena.stmt? id).map (.stmt ∘ edit) <|> arena.node? id
      else arena.node? other := by
  by_cases same : id = other
  · subst same
    simp only [node?, stmt?, mapStmt, Array.getElem?_modify]
    cases found : arena.slots[id]? with
    | none => simp
    | some slot => cases held : slot.node <;> simp [held]
  · simp [node?, mapStmt, Array.getElem?_modify, same, Ne.symm same]

theorem node?_mapExpr (arena : Arena) (id other : NodeId) (edit : Expr → Expr) :
    (arena.mapExpr id edit).node? other =
      if other = id then (arena.expr? id).map (.expr ∘ edit) <|> arena.node? id
      else arena.node? other := by
  by_cases same : id = other
  · subst same
    simp only [node?, expr?, mapExpr, Array.getElem?_modify]
    cases found : arena.slots[id]? with
    | none => simp
    | some slot => cases held : slot.node <;> simp [held]
  · simp [node?, mapExpr, Array.getElem?_modify, same, Ne.symm same]

theorem span_push_of_lt (arena : Arena) (node : Node) (span : Span) {id : NodeId}
    (inside : id < arena.size) :
    (arena.push node span).span id = arena.span id := by
  unfold Arena.span push
  rw [Array.getElem?_push_lt inside, Array.getElem?_eq_getElem inside]

@[simp] theorem span_mapStmt (arena : Arena) (id other : NodeId) (edit : Stmt → Stmt) :
    (arena.mapStmt id edit).span other = arena.span other := by
  by_cases same : id = other
  · subst same
    simp only [span, mapStmt, Array.getElem?_modify]
    cases found : arena.slots[id]? with
    | none => simp
    | some slot => cases held : slot.node <;> simp [held]
  · simp [span, mapStmt, Array.getElem?_modify, same]

@[simp] theorem span_mapExpr (arena : Arena) (id other : NodeId) (edit : Expr → Expr) :
    (arena.mapExpr id edit).span other = arena.span other := by
  by_cases same : id = other
  · subst same
    simp only [span, mapExpr, Array.getElem?_modify]
    cases found : arena.slots[id]? with
    | none => simp
    | some slot => cases held : slot.node <;> simp [held]
  · simp [span, mapExpr, Array.getElem?_modify, same]

end Arena

end ValueFlow
