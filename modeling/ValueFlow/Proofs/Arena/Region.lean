import ValueFlow.Proofs.Arena.Writes

/-!
# Regions of an arena

A region is a set of statements and a set of expressions, by their ids, with a bound on what they
do: which variables they write, and whether they run code that is not under analysis. An arena keeps
to a region (`Region.Encloses`) if every node in it has its children in it and stays within the
bound. This is a demand on each node for itself, so that an edit is checked at the node that it
touches and nowhere else.

Ids past the end belong to every region. A node that is added later needs only to have its own
children inside.
-/

namespace ValueFlow
set_option autoImplicit false

/-- The expressions directly below a statement. -/
def Stmt.operands : Stmt → List NodeId
  | .assign _ value _ => [value]
  | .effect expr => [expr]
  | .branch cond _ _ => [cond]
  | .ret value => value.toList
  | _ => []

/-- The expressions directly below an expression. -/
def Expr.operands : Expr → List NodeId
  | .call callee args => callee :: args
  | .eval source => [source]
  | _ => []

/-- The expression runs code that is not under analysis. -/
def Expr.runsCode : Expr → Bool
  | .call _ _ => true
  | .eval _ => true
  | _ => false

/-- The ids of some statements and expressions, and a bound on what these do. -/
structure Region where
  stmts : NodeId → Prop
  exprs : NodeId → Prop
  writes : VarId → Prop
  calls : Prop

namespace Region

variable (region : Region)

/-- The statement has its children inside and writes no variable out of bounds. -/
structure HasStmt (stmt : Stmt) : Prop where
  children : ∀ child ∈ stmt.children, region.stmts child
  operands : ∀ operand ∈ stmt.operands, region.exprs operand
  target : ∀ var ∈ stmt.target?, region.writes var

/-- The expression has its operands inside and runs code only if that is within bounds. -/
structure HasExpr (expr : Expr) : Prop where
  operands : ∀ operand ∈ expr.operands, region.exprs operand
  calls : expr.runsCode = true → region.calls

/-- All nodes of the region keep within it. -/
structure Encloses (arena : Arena) : Prop where
  beyond : ∀ id, arena.size ≤ id → region.stmts id ∧ region.exprs id
  stmt : ∀ id stmt, region.stmts id → arena.stmt? id = some stmt → region.HasStmt stmt
  expr : ∀ id expr, region.exprs id → arena.expr? id = some expr → region.HasExpr expr

/-- The region of all ids, in which nodes may do anything. -/
def everything : Region := ⟨fun _ => True, fun _ => True, fun _ => True, True⟩

theorem everything_encloses (arena : Arena) : everything.Encloses arena where
  beyond _ _ := ⟨trivial, trivial⟩
  stmt _ _ _ _ := ⟨fun _ _ => trivial, fun _ _ => trivial, fun _ _ => trivial⟩
  expr _ _ _ _ := ⟨fun _ _ => trivial, fun _ => trivial⟩

variable {region}

section Edits

variable {stmt : Stmt} {expr : Expr}

theorem HasStmt.withStmts {stmts : List NodeId} (has : region.HasStmt stmt)
    (fits : ∀ id ∈ stmts, region.stmts id) :
    region.HasStmt (stmt.withStmts stmts) := by
  cases stmt with
  | block old => exact ⟨fits, nofun, nofun⟩
  | _ => exact has

theorem HasStmt.withBound {value : NodeId} (has : region.HasStmt stmt) (fits : region.exprs value)
    (version : Version) : region.HasStmt (stmt.withBound value version) := by
  cases stmt with
  | assign target old note =>
    exact ⟨nofun, by simpa [Stmt.withBound, Stmt.operands] using fits, has.target⟩
  | _ => exact has

theorem HasStmt.withDeleted (has : region.HasStmt stmt) (version : Option Version) :
    region.HasStmt (stmt.withDeleted version) := by
  cases stmt with
  | delete target tolerant note => exact ⟨nofun, nofun, has.target⟩
  | _ => exact has

theorem HasStmt.withEffect {id : NodeId} (has : region.HasStmt stmt) (fits : region.exprs id) :
    region.HasStmt (stmt.withEffect id) := by
  cases stmt with
  | effect old => exact ⟨nofun, by simpa [Stmt.withEffect, Stmt.operands] using fits, nofun⟩
  | _ => exact has

theorem HasStmt.withArms {cond : NodeId} {yes no : Option NodeId} (has : region.HasStmt stmt)
    (fits : region.exprs cond) (fitsYes : ∀ id ∈ yes, region.stmts id)
    (fitsNo : ∀ id ∈ no, region.stmts id) :
    region.HasStmt (stmt.withArms cond yes no) := by
  cases stmt with
  | branch old oldYes oldNo =>
    refine ⟨fun child mem => ?_, by simpa [Stmt.withArms, Stmt.operands] using fits, nofun⟩
    rcases List.mem_append.1 mem with left | right
    · exact fitsYes child (Option.mem_toList.1 left)
    · exact fitsNo child (Option.mem_toList.1 right)
  | _ => exact has

theorem HasStmt.withBody {body : Option NodeId} (has : region.HasStmt stmt)
    (fits : ∀ id ∈ body, region.stmts id) :
    region.HasStmt (stmt.withBody body) := by
  cases stmt with
  | loop old => exact ⟨fun child mem => fits child (Option.mem_toList.1 mem), nofun, nofun⟩
  | _ => exact has

theorem HasStmt.withResult {value : NodeId} (has : region.HasStmt stmt)
    (fits : region.exprs value) :
    region.HasStmt (stmt.withResult value) := by
  cases stmt with
  | ret old => exact ⟨nofun, by simpa [Stmt.withResult, Stmt.operands] using fits, nofun⟩
  | _ => exact has

theorem HasExpr.withSeen (has : region.HasExpr expr) (version : Version) :
    region.HasExpr (expr.withSeen version) := by
  cases expr with
  | read var note => exact ⟨nofun, nofun⟩
  | _ => exact has

theorem HasExpr.withCall {callee : NodeId} {args : List NodeId} (has : region.HasExpr expr)
    (fits : region.exprs callee) (fitsArgs : ∀ arg ∈ args, region.exprs arg) :
    region.HasExpr (expr.withCall callee args) := by
  cases expr with
  | call old oldArgs =>
    exact ⟨by simpa [Expr.withCall, Expr.operands] using ⟨fits, fitsArgs⟩, has.calls⟩
  | _ => exact has

theorem HasExpr.withSource {source : NodeId} (has : region.HasExpr expr)
    (fits : region.exprs source) :
    region.HasExpr (expr.withSource source) := by
  cases expr with
  | eval old => exact ⟨by simpa [Expr.withSource, Expr.operands] using fits, has.calls⟩
  | _ => exact has

end Edits

namespace Encloses

variable {arena : Arena}

/-- An edit of a statement that keeps it within the region keeps the arena within it. -/
theorem mapStmt (encloses : region.Encloses arena) {id : NodeId} {edit : Stmt → Stmt}
    (keeps : ∀ stmt, region.HasStmt stmt → region.HasStmt (edit stmt)) :
    region.Encloses (arena.mapStmt id edit) where
  beyond other past := encloses.beyond other (by simpa using past)
  stmt other stmt mem found := by
    rw [Arena.stmt?_mapStmt] at found
    split at found
    · rename_i same
      obtain ⟨old, held, rfl⟩ := Option.map_eq_some_iff.1 found
      exact keeps old (encloses.stmt id old (same ▸ mem) held)
    · exact encloses.stmt other stmt mem found
  expr other expr mem found := encloses.expr other expr mem (by simpa using found)

/-- An edit of an expression that keeps it within the region keeps the arena within it. -/
theorem mapExpr (encloses : region.Encloses arena) {id : NodeId} {edit : Expr → Expr}
    (keeps : ∀ expr, region.HasExpr expr → region.HasExpr (edit expr)) :
    region.Encloses (arena.mapExpr id edit) where
  beyond other past := encloses.beyond other (by simpa using past)
  stmt other stmt mem found := encloses.stmt other stmt mem (by simpa using found)
  expr other expr mem found := by
    rw [Arena.expr?_mapExpr] at found
    split at found
    · rename_i same
      obtain ⟨old, held, rfl⟩ := Option.map_eq_some_iff.1 found
      exact keeps old (encloses.expr id old (same ▸ mem) held)
    · exact encloses.expr other expr mem found

/-- A node may be added if it keeps within the region. -/
theorem push (encloses : region.Encloses arena) {node : Node} (span : Span)
    (stmt : ∀ stmt ∈ node.stmt?, region.HasStmt stmt)
    (expr : ∀ expr ∈ node.expr?, region.HasExpr expr) :
    region.Encloses (arena.push node span) where
  beyond other past := encloses.beyond other (Nat.le_of_succ_le (by simpa using past))
  stmt other held mem found := by
    rw [Arena.stmt?_push] at found
    split at found
    · exact stmt held found
    · exact encloses.stmt other held mem found
  expr other held mem found := by
    rw [Arena.expr?_push] at found
    split at found
    · exact expr held found
    · exact encloses.expr other held mem found

/-- The statements of a block in the region are in it. -/
theorem block? (encloses : region.Encloses arena) {id : NodeId} {stmts : List NodeId}
    (mem : region.stmts id) (found : arena.block? id = some stmts) :
    ∀ stmt ∈ stmts, region.stmts stmt := by
  unfold Arena.block? at found
  split at found
  · rename_i held
    obtain rfl := Option.some.inj found
    exact (encloses.stmt id _ mem held).children
  · cases found

theorem writesWithin (encloses : region.Encloses arena) {var : VarId} {depth : Nat} {id : NodeId}
    (mem : region.stmts id) (writes : arena.WritesWithin var depth id) : region.writes var := by
  induction depth generalizing id with
  | zero => exact writes.elim
  | succ depth ih =>
    obtain ⟨stmt, found, here | ⟨child, held, below⟩⟩ := writes
    · exact (encloses.stmt id stmt mem found).target var here
    · exact ih ((encloses.stmt id stmt mem found).children child held) below

/-- The scan below a statement of the region finds variables that the region may write. -/
theorem variablesWritten (encloses : region.Encloses arena) {root : NodeId}
    (mem : region.stmts root) :
    ∀ var ∈ arena.variablesWritten root, region.writes var :=
  fun _ found => encloses.writesWithin mem (Arena.mem_variablesWritten.1 found)

end Encloses

end Region

namespace Arena

variable (arena : Arena)

/-- An expression lies below a statement. -/
inductive ExprBelow (root : NodeId) : NodeId → Prop
  | ofStmt {id operand : NodeId} {stmt : Stmt} (above : arena.Below root id) (found : arena.stmt? id = some stmt)
      (mem : operand ∈ stmt.operands) : ExprBelow root operand
  | ofExpr {id operand : NodeId} {expr : Expr} (above : ExprBelow root id) (found : arena.expr? id = some expr)
      (mem : operand ∈ expr.operands) : ExprBelow root operand

/-- A call or an evaluation lies below the statement. -/
def RunsCode (root : NodeId) : Prop :=
  ∃ id expr, arena.ExprBelow root id ∧ arena.expr? id = some expr ∧ expr.runsCode = true

/-- What lies below a statement, with what the scan for writes finds there. -/
def regionBelow (root : NodeId) : Region where
  stmts id := arena.Below root id ∨ arena.size ≤ id
  exprs id := arena.ExprBelow root id ∨ arena.size ≤ id
  writes var := var ∈ arena.variablesWritten root
  calls := arena.RunsCode root

/-- The scan for writes agrees with what the nodes do. -/
theorem regionBelow_encloses (root : NodeId) : (arena.regionBelow root).Encloses arena where
  beyond id past := ⟨.inr past, .inr past⟩
  stmt id stmt mem found := by
    rcases mem with below | past
    · exact ⟨fun child mem => .inl (.child below found mem),
        fun operand mem => .inl (.ofStmt below found mem), fun var target =>
        mem_variablesWritten_of_below below found target⟩
    · exact absurd (lt_size_of_stmt? found) (Nat.not_lt_of_le past)
  expr id expr mem found := by
    rcases mem with below | past
    · exact ⟨fun operand mem => .inl (.ofExpr below found mem),
        fun runs => ⟨id, expr, below, found, runs⟩⟩
    · exact absurd (lt_size_of_expr? found) (Nat.not_lt_of_le past)

end Arena

end ValueFlow
