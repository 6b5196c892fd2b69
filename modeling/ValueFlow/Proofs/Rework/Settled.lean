import ValueFlow.Proofs.WellFormed.Succeeds

/-!
# Settled expressions

An expression is settled if all that lies below it are expressions, and the variables that they read
are known (`Arena.Settled`). Whatever a walk leaves of an expression is settled, and it stays so: a
walk only adds nodes, and exchanges operands for settled ones. `Arena.Becomes` lists what an arena
has kept on the way to a later one, whatever happened between them.
-/

namespace ValueFlow
set_option autoImplicit false

namespace Arena

/-- An expression has another one directly below it. -/
def Operand (arena : Arena) (id other : NodeId) : Prop := ∃ expr, arena.expr? id = some expr ∧ other ∈ expr.operands

/-- All that lies below the id are expressions, and they read known variables only. -/
def Settled (arena : Arena) (known : VarId → Prop) (id : NodeId) : Prop :=
  ∀ other, Relation.ReflTransGen arena.Operand id other →
    ∃ expr, arena.expr? other = some expr ∧ ∀ var ∈ (Node.expr expr).named, known var

/-- What every later arena has kept: its nodes with their spans, literals and the expression
statements, and what was settled. -/
structure Becomes (known : VarId → Prop) (older newer : Arena) : Prop where
  size : older.size ≤ newer.size
  span : ∀ id < older.size, newer.span id = older.span id
  literal : ∀ id value, older.expr? id = some (.literal value) → newer.expr? id = some (.literal value)
  effect : ∀ id expr, older.stmt? id = some (.effect expr) → ∃ other, newer.stmt? id = some (.effect other)
  settled : ∀ id, older.Settled known id → newer.Settled known id

variable {arena newer newest : Arena} {known : VarId → Prop} {id other target : NodeId}

namespace Settled

variable (settled : arena.Settled known id)

include settled

theorem expr : ∃ expr, arena.expr? id = some expr ∧ ∀ var ∈ (Node.expr expr).named, known var :=
  settled id .refl

theorem below (operand : arena.Operand id other) : arena.Settled known other :=
  fun last reached => settled last (.head operand reached)

/-- If the nodes that were settled keep what they read, and lead to settled nodes only, they are
settled in the newer arena too. -/
theorem transfer
    (keeps : ∀ node expr, arena.Settled known node → arena.expr? node = some expr → ∃ edited,
      newer.expr? node = some edited ∧ (Node.expr edited).named = (Node.expr expr).named ∧
      ∀ operand ∈ edited.operands, arena.Settled known operand) :
    newer.Settled known id := by
  intro last reached
  have still : arena.Settled known last := by
    induction reached with
    | refl => exact settled
    | tail _ operand ih =>
      obtain ⟨edited, found, mem⟩ := operand
      obtain ⟨expr, before, -⟩ := ih.expr
      obtain ⟨same, again, -, operands⟩ := keeps _ expr ih before
      obtain rfl := Option.some.inj (found.symm.trans again)
      exact operands _ mem
  obtain ⟨expr, found, known⟩ := still.expr
  obtain ⟨edited, again, named, -⟩ := keeps last expr still found
  exact ⟨edited, again, named ▸ known⟩

/-- The nodes that were settled are left alone. -/
theorem congr (same : ∀ node expr, arena.expr? node = some expr → newer.expr? node = some expr) :
    newer.Settled known id :=
  settled.transfer fun node expr still found =>
    ⟨expr, same node expr found, rfl, fun _ mem => still.below ⟨expr, found, mem⟩⟩

end Settled

/-- An expression with settled operands is settled if it reads a known variable, or none. -/
theorem settled_of_operands {expr : Expr} (found : arena.expr? id = some expr)
    (named : ∀ var ∈ (Node.expr expr).named, known var)
    (operands : ∀ operand ∈ expr.operands, arena.Settled known operand) :
    arena.Settled known id := by
  intro last reached
  obtain rfl | ⟨next, ⟨same, again, mem⟩, rest⟩ := Relation.ReflTransGen.cases_head reached
  · exact ⟨expr, found, named⟩
  · obtain rfl := Option.some.inj (found.symm.trans again)
    exact operands next mem last rest

theorem settled_literal {value : Literal} (found : arena.expr? id = some (.literal value)) :
    arena.Settled known id :=
  settled_of_operands found nofun nofun

namespace Becomes

theorem refl (arena : Arena) : Becomes known arena arena :=
  ⟨Nat.le_refl _, fun _ _ => rfl, fun _ _ found => found,
  fun _ expr found => ⟨expr, found⟩, fun _ settled => settled⟩

theorem trans (early : Becomes known arena newer) (late : Becomes known newer newest) :
    Becomes known arena newest where
  size := early.size.trans late.size
  span id inside := (late.span id (Nat.lt_of_lt_of_le inside early.size)).trans
    (early.span id inside)
  literal id value found := late.literal id value (early.literal id value found)
  effect id expr found := by
    obtain ⟨other, found⟩ := early.effect id expr found
    exact late.effect id other found
  settled id held := late.settled id (early.settled id held)

theorem push (arena : Arena) (node : Node) (span : Span) :
    Becomes known arena (arena.push node span) where
  size := by simp
  span id inside := span_push_of_lt arena node span inside
  literal id value found := by
    rw [expr?_push, if_neg (Nat.ne_of_lt (lt_size_of_expr? found)), found]
  effect id expr found :=
    ⟨expr, by rw [stmt?_push, if_neg (Nat.ne_of_lt (lt_size_of_stmt? found)), found]⟩
  settled id held := held.congr fun node expr found => by
    rw [expr?_push, if_neg (Nat.ne_of_lt (lt_size_of_expr? found)), found]

/-- An edit of a statement leaves expressions alone. -/
theorem mapStmt (arena : Arena) (id : NodeId) {edit : Stmt → Stmt}
    (effects : ∀ expr, ∃ other, edit (.effect expr) = .effect other) :
    Becomes known arena (arena.mapStmt id edit) where
  size := Nat.le_of_eq (size_mapStmt _ _ _).symm
  span other _ := span_mapStmt _ _ _ _
  literal other value found := by rw [expr?_mapStmt, found]
  effect other expr found := by
    by_cases same : other = id
    · subst same
      obtain ⟨edited, become⟩ := effects expr
      exact ⟨edited, by rw [stmt?_mapStmt_self found, become]⟩
    · exact ⟨expr, by rw [stmt?_mapStmt, if_neg same, found]⟩
  settled other held := held.congr fun node expr found => by rw [expr?_mapStmt, found]

/-- An edit of an expression keeps settled what is settled, if the operands that it puts in are
settled. -/
theorem mapExpr (arena : Arena) (id : NodeId) {edit : Expr → Expr}
    (literals : ∀ value, edit (.literal value) = .literal value)
    (named : ∀ expr, (Node.expr (edit expr)).named = (Node.expr expr).named)
    (operands : ∀ expr, arena.expr? id = some expr → ∀ operand ∈ (edit expr).operands,
      arena.Settled known operand) :
    Becomes known arena (arena.mapExpr id edit) where
  size := Nat.le_of_eq (size_mapExpr _ _ _).symm
  span other _ := span_mapExpr _ _ _ _
  literal other value found := by
    by_cases same : other = id
    · subst same
      rw [expr?_mapExpr_self found, literals]
    · rw [expr?_mapExpr, if_neg same, found]
  effect other expr found := ⟨expr, by rw [stmt?_mapExpr, found]⟩
  settled other held := by
    refine held.transfer fun node expr still found => ?_
    by_cases same : node = id
    · subst same
      exact ⟨edit expr, expr?_mapExpr_self found edit, named expr, operands expr found⟩
    · exact ⟨expr, by rw [expr?_mapExpr, if_neg same, found], rfl,
        fun _ mem => still.below ⟨expr, found, mem⟩⟩

end Becomes

end Arena

end ValueFlow
