import ValueFlow.Arena.Basic

/-!
# What edits of an arena leave at its nodes

The statement and the expression under an id after an edit or a push. An edit of the one class
leaves the other as it is.
-/

namespace ValueFlow
set_option autoImplicit false

/-- The statement that a node is. -/
def Node.stmt? : Node → Option Stmt
  | .stmt held => some held
  | .expr _ => none

/-- The expression that a node is. -/
def Node.expr? : Node → Option Expr
  | .expr held => some held
  | .stmt _ => none

namespace Arena

variable {arena : Arena} {id other : NodeId}

theorem stmt?_eq_some {stmt : Stmt} :
    arena.stmt? id = some stmt ↔ arena.node? id = some (.stmt stmt) := by
  unfold stmt?
  split <;> simp_all

theorem expr?_eq_some {expr : Expr} :
    arena.expr? id = some expr ↔ arena.node? id = some (.expr expr) := by
  unfold expr?
  split <;> simp_all

theorem block?_eq_some {stmts : List NodeId} :
    arena.block? id = some stmts ↔ arena.stmt? id = some (.block stmts) := by
  unfold block?
  split <;> simp_all

theorem node?_eq_none (past : arena.size ≤ id) : arena.node? id = none := by
  unfold node?
  rw [Array.getElem?_eq_none past]
  rfl

theorem lt_size_of_node? {node : Node} (found : arena.node? id = some node) : id < arena.size := by
  apply Nat.lt_of_not_le
  intro past
  rw [node?_eq_none past] at found
  cases found

theorem lt_size_of_stmt? {stmt : Stmt} (found : arena.stmt? id = some stmt) : id < arena.size :=
  lt_size_of_node? (stmt?_eq_some.1 found)

theorem lt_size_of_expr? {expr : Expr} (found : arena.expr? id = some expr) : id < arena.size :=
  lt_size_of_node? (expr?_eq_some.1 found)

theorem not_beyond_of_stmt? {stmt : Stmt} (found : arena.stmt? id = some stmt) :
    ¬ arena.size ≤ id :=
  Nat.not_le_of_lt (lt_size_of_stmt? found)

theorem not_beyond_of_expr? {expr : Expr} (found : arena.expr? id = some expr) :
    ¬ arena.size ≤ id :=
  Nat.not_le_of_lt (lt_size_of_expr? found)

/-- Under every id in range stands a statement or an expression. -/
theorem stmt_or_expr (inside : id < arena.size) :
    (∃ stmt, arena.stmt? id = some stmt) ∨ ∃ expr, arena.expr? id = some expr := by
  cases found : arena.node? id with
  | none =>
    simp [node?, Array.getElem?_eq_getElem (show id < arena.slots.size from inside)] at found
  | some node =>
    cases node with
    | stmt held => exact .inl ⟨held, stmt?_eq_some.2 found⟩
    | expr held => exact .inr ⟨held, expr?_eq_some.2 found⟩

/-- A node is of one class only. -/
theorem expr?_of_stmt? {stmt : Stmt} (found : arena.stmt? id = some stmt) :
    arena.expr? id = none := by
  unfold expr?
  rw [stmt?_eq_some.1 found]

theorem stmt?_of_expr? {expr : Expr} (found : arena.expr? id = some expr) :
    arena.stmt? id = none := by
  unfold stmt?
  rw [expr?_eq_some.1 found]

theorem stmt?_eq_bind (arena : Arena) (id : NodeId) :
    arena.stmt? id = (arena.node? id).bind Node.stmt? := by
  unfold stmt?
  cases arena.node? id with
  | none => rfl
  | some node => cases node <;> rfl

theorem expr?_eq_bind (arena : Arena) (id : NodeId) :
    arena.expr? id = (arena.node? id).bind Node.expr? := by
  unfold expr?
  cases arena.node? id with
  | none => rfl
  | some node => cases node <;> rfl

theorem stmt?_mapStmt (arena : Arena) (id other : NodeId) (edit : Stmt → Stmt) :
    (arena.mapStmt id edit).stmt? other = if other = id then (arena.stmt? id).map edit else
      arena.stmt? other := by
  simp only [stmt?_eq_bind, node?_mapStmt]
  by_cases same : other = id
  · rw [if_pos same, if_pos same]
    cases arena.node? id with
    | none => rfl
    | some node => cases node <;> rfl
  · rw [if_neg same, if_neg same]

@[simp] theorem expr?_mapStmt (arena : Arena) (id other : NodeId) (edit : Stmt → Stmt) :
    (arena.mapStmt id edit).expr? other = arena.expr? other := by
  simp only [expr?_eq_bind, node?_mapStmt]
  by_cases same : other = id
  · rw [if_pos same, same, stmt?_eq_bind]
    cases arena.node? id with
    | none => rfl
    | some node => cases node <;> rfl
  · rw [if_neg same]

theorem expr?_mapExpr (arena : Arena) (id other : NodeId) (edit : Expr → Expr) :
    (arena.mapExpr id edit).expr? other = if other = id then (arena.expr? id).map edit else
      arena.expr? other := by
  simp only [expr?_eq_bind, node?_mapExpr]
  by_cases same : other = id
  · rw [if_pos same, if_pos same]
    cases arena.node? id with
    | none => rfl
    | some node => cases node <;> rfl
  · rw [if_neg same, if_neg same]

@[simp] theorem stmt?_mapExpr (arena : Arena) (id other : NodeId) (edit : Expr → Expr) :
    (arena.mapExpr id edit).stmt? other = arena.stmt? other := by
  simp only [stmt?_eq_bind, node?_mapExpr]
  by_cases same : other = id
  · rw [if_pos same, same, expr?_eq_bind]
    cases arena.node? id with
    | none => rfl
    | some node => cases node <;> rfl
  · rw [if_neg same]

theorem node?_mapStmt_of_ne (arena : Arena) {id other : NodeId} (ne : other ≠ id)
    (edit : Stmt → Stmt) :
    (arena.mapStmt id edit).node? other = arena.node? other := by
  rw [node?_mapStmt, if_neg ne]

theorem node?_mapExpr_of_ne (arena : Arena) {id other : NodeId} (ne : other ≠ id)
    (edit : Expr → Expr) :
    (arena.mapExpr id edit).node? other = arena.node? other := by
  rw [node?_mapExpr, if_neg ne]

theorem stmt?_mapStmt_self {stmt : Stmt} (found : arena.stmt? id = some stmt) (edit : Stmt → Stmt) :
    (arena.mapStmt id edit).stmt? id = some (edit stmt) := by
  rw [stmt?_mapStmt, if_pos rfl, found]
  rfl

theorem expr?_mapExpr_self {expr : Expr} (found : arena.expr? id = some expr) (edit : Expr → Expr) :
    (arena.mapExpr id edit).expr? id = some (edit expr) := by
  rw [expr?_mapExpr, if_pos rfl, found]
  rfl

theorem stmt?_push (arena : Arena) (node : Node) (span : Span) (id : NodeId) :
    (arena.push node span).stmt? id = if id = arena.size then node.stmt? else arena.stmt? id := by
  simp only [stmt?_eq_bind, node?_push]
  by_cases last : id = arena.size
  · rw [if_pos last, if_pos last]
    rfl
  · rw [if_neg last, if_neg last]

theorem expr?_push (arena : Arena) (node : Node) (span : Span) (id : NodeId) :
    (arena.push node span).expr? id = if id = arena.size then node.expr? else arena.expr? id := by
  simp only [expr?_eq_bind, node?_push]
  by_cases last : id = arena.size
  · rw [if_pos last, if_pos last]
    rfl
  · rw [if_neg last, if_neg last]

end Arena

end ValueFlow
