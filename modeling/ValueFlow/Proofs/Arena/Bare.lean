import ValueFlow.Arena.Completion
import ValueFlow.Proofs.Arena.Edits
import ValueFlow.Walk.Loop

/-!
# Arenas without versions

The versions that are noted at nodes are for whoever reads the result. Nothing that a walk asks of
an arena depends on them: the shape of the nodes, their spans, how control may leave them and what
they may write are those of the arena without its versions (`Arena.bare`). So two arenas that are
alike up to versions answer alike, and stay alike under edits that do the same up to versions.
-/

namespace ValueFlow
set_option autoImplicit false

/-- A statement without the version that is noted in it. -/
def Stmt.bare : Stmt → Stmt
  | .assign target value _ => .assign target value none
  | .delete target tolerant _ => .delete target tolerant none
  | stmt => stmt

/-- An expression without the version that is noted in it. -/
def Expr.bare : Expr → Expr
  | .read var _ => .read var none
  | expr => expr

/-- A node without the version that is noted in it. -/
def Node.bare : Node → Node
  | .stmt held => .stmt held.bare
  | .expr held => .expr held.bare

@[simp] theorem Stmt.children_bare (stmt : Stmt) : stmt.bare.children = stmt.children := by
  cases stmt <;> rfl

@[simp] theorem Stmt.target?_bare (stmt : Stmt) : stmt.bare.target? = stmt.target? := by
  cases stmt <;> rfl

namespace Stmt

variable (stmt : Stmt)

theorem bare_withStmts (stmts : List NodeId) :
    (stmt.withStmts stmts).bare = stmt.bare.withStmts stmts := by
  cases stmt <;> rfl

theorem bare_withBound (value : NodeId) (version : Version) :
    (stmt.withBound value version).bare = (stmt.bare.withBound value .entry).bare := by
      cases stmt <;> rfl

theorem bare_withDeleted (version : Option Version) :
    (stmt.withDeleted version).bare = stmt.bare := by
  cases stmt <;> rfl

theorem bare_withEffect (expr : NodeId) :
    (stmt.withEffect expr).bare = stmt.bare.withEffect expr := by
  cases stmt <;> rfl

theorem bare_withArms (cond : NodeId) (yes no : Option NodeId) :
    (stmt.withArms cond yes no).bare = stmt.bare.withArms cond yes no := by
  cases stmt <;> rfl

theorem bare_withBody (body : Option NodeId) :
    (stmt.withBody body).bare = stmt.bare.withBody body := by
  cases stmt <;> rfl

theorem bare_withResult (value : NodeId) :
    (stmt.withResult value).bare = stmt.bare.withResult value := by
  cases stmt <;> rfl

variable {stmt} in
/-- Only writes have versions. -/
theorem eq_of_bare {other : Stmt} (alike : stmt.bare = other.bare) : other = stmt ∨
    (∃ target value made late, stmt = .assign target value made ∧
      other = .assign target value late) ∨
    ∃ target tolerant made late, stmt = .delete target tolerant made ∧
      other = .delete target tolerant late := by
  cases stmt with
  | assign target value made =>
    cases other <;> simp_all [bare]
  | delete target tolerant made =>
    cases other <;> simp_all [bare]
  | _ => cases other <;> simp_all [bare]

end Stmt

namespace Expr

variable (expr : Expr)

theorem bare_withSeen (version : Version) : (expr.withSeen version).bare = expr.bare := by
  cases expr <;> rfl

theorem bare_withCall (callee : NodeId) (args : List NodeId) :
    (expr.withCall callee args).bare = expr.bare.withCall callee args := by
  cases expr <;> rfl

theorem bare_withSource (source : NodeId) :
    (expr.withSource source).bare = expr.bare.withSource source := by
  cases expr <;> rfl

variable {expr} in
/-- Only reads have versions. -/
theorem eq_of_bare {other : Expr} (alike : expr.bare = other.bare) :
    other = expr ∨ ∃ var seen late, expr = .read var seen ∧ other = .read var late := by
  cases expr <;> cases other <;> simp_all [bare]

end Expr

namespace Arena

/-- An arena without the versions that are noted at its nodes. -/
def bare (arena : Arena) : Arena := ⟨arena.slots.map fun slot => { slot with node := slot.node.bare }⟩

variable {arena left right : Arena} {id : NodeId}

@[simp] theorem size_bare (arena : Arena) : arena.bare.size = arena.size := by simp [bare, size]

@[simp] theorem node?_bare (arena : Arena) (id : NodeId) :
    arena.bare.node? id = (arena.node? id).map Node.bare := by
  simp [bare, node?, Function.comp_def]

@[simp] theorem span_bare (arena : Arena) (id : NodeId) : arena.bare.span id = arena.span id := by
  simp only [span, bare, Array.getElem?_map]
  cases arena.slots[id]? <;> rfl

@[simp] theorem stmt?_bare (arena : Arena) (id : NodeId) :
    arena.bare.stmt? id = (arena.stmt? id).map Stmt.bare := by
  simp only [stmt?_eq_bind, node?_bare]
  cases arena.node? id with
  | none => rfl
  | some node => cases node <;> rfl

@[simp] theorem expr?_bare (arena : Arena) (id : NodeId) :
    arena.bare.expr? id = (arena.expr? id).map Expr.bare := by
  simp only [expr?_eq_bind, node?_bare]
  cases arena.node? id with
  | none => rfl
  | some node => cases node <;> rfl

theorem block?_bare (arena : Arena) (id : NodeId) : arena.bare.block? id = arena.block? id := by
  unfold block?
  rw [stmt?_bare]
  cases arena.stmt? id with
  | none => rfl
  | some stmt => cases stmt <;> rfl

theorem literal?_bare (arena : Arena) (id : NodeId) :
    arena.bare.literal? id = arena.literal? id := by
  unfold literal?
  rw [expr?_bare]
  cases arena.expr? id with
  | none => rfl
  | some expr => cases expr <;> rfl

theorem mayExitWithin_bare (arena : Arena) (kind : ExitKind) (depth : Nat) :
    arena.bare.mayExitWithin kind depth = arena.mayExitWithin kind depth := by
  induction depth with
  | zero => rfl
  | succ depth ih =>
    funext id
    simp only [mayExitWithin, stmt?_bare, ih]
    cases arena.stmt? id with
    | none => rfl
    | some stmt => cases stmt <;> rfl

theorem isAbortingWithin_bare (arena : Arena) (depth : Nat) :
    arena.bare.isAbortingWithin depth = arena.isAbortingWithin depth := by
  have breaks : arena.bare.mayBreak = arena.mayBreak := by
    funext id
    rw [mayBreak, mayExit, mayExitWithin_bare, size_bare]
    rfl
  induction depth with
  | zero => rfl
  | succ depth ih =>
    funext id
    simp only [isAbortingWithin, stmt?_bare, ih, breaks]
    cases arena.stmt? id with
    | none => rfl
    | some stmt => cases stmt <;> rfl

theorem isAborting_bare (arena : Arena) (id : NodeId) :
    arena.bare.isAborting id = arena.isAborting id := by
  rw [isAborting, isAbortingWithin_bare, size_bare]
  rfl

theorem scanWrites_bare (arena : Arena) (stack : List (Nat × NodeId)) (written : List VarId) :
    arena.bare.scanWrites stack written = arena.scanWrites stack written := by
  fun_induction scanWrites arena stack written with
  | case1 written => rw [scanWrites]
  | case2 id rest written ih => rw [scanWrites, ih]
  | case3 depth id rest written absent ih =>
    have bareAbsent : arena.bare.stmt? id = none := by rw [stmt?_bare, absent]; rfl
    rw [scanWrites]
    split
    · exact ih
    · rename_i found
      cases bareAbsent.symm.trans found
  | case4 depth id rest written stmt found ih =>
    have bareFound : arena.bare.stmt? id = some stmt.bare := by rw [stmt?_bare, found]; rfl
    rw [scanWrites]
    split
    · rename_i absent
      cases absent.symm.trans bareFound
    · rename_i again
      obtain rfl := Option.some.inj (bareFound.symm.trans again)
      rw [Stmt.children_bare, Stmt.target?_bare, ih]

theorem variablesWritten_bare (arena : Arena) (root : NodeId) :
    arena.bare.variablesWritten root = arena.variablesWritten root := by
  rw [variablesWritten, scanWrites_bare, size_bare]
  rfl

theorem isLoneBreak_bare (arena : Arena) (body : NodeId) :
    Walk.isLoneBreak arena.bare body = Walk.isLoneBreak arena body := by
  unfold Walk.isLoneBreak
  rw [block?_bare]
  split
  · rw [stmt?_bare]
    cases arena.stmt? _ with
    | none => rfl
    | some stmt => cases stmt <;> rfl
  · rfl

/-- Up to versions the edit of a statement is an edit of the arena without versions. -/
theorem bare_mapStmt {edit shape : Stmt → Stmt}
    (same : ∀ stmt, (edit stmt).bare = shape stmt.bare) :
    (arena.mapStmt id edit).bare = arena.bare.mapStmt id shape := by
  unfold bare mapStmt
  congr 1
  refine Array.ext_getElem? fun other => ?_
  simp only [Array.getElem?_map, Array.getElem?_modify]
  split
  · cases arena.slots[other]? with
    | none => rfl
    | some slot =>
      obtain ⟨node, span⟩ := slot
      cases node with
      | stmt stmt => simp [Node.bare, same]
      | expr expr => rfl
  · rfl

theorem bare_mapExpr {edit shape : Expr → Expr}
    (same : ∀ expr, (edit expr).bare = shape expr.bare) :
    (arena.mapExpr id edit).bare = arena.bare.mapExpr id shape := by
  unfold bare mapExpr
  congr 1
  refine Array.ext_getElem? fun other => ?_
  simp only [Array.getElem?_map, Array.getElem?_modify]
  split
  · cases arena.slots[other]? with
    | none => rfl
    | some slot =>
      obtain ⟨node, span⟩ := slot
      cases node with
      | stmt stmt => rfl
      | expr expr => simp [Node.bare, same]
  · rfl

/-- Edits that do the same up to versions keep two arenas alike. -/
theorem bare_mapStmt_congr (alike : left.bare = right.bare) {edit other shape : Stmt → Stmt}
    (first : ∀ stmt, (edit stmt).bare = shape stmt.bare)
    (second : ∀ stmt, (other stmt).bare = shape stmt.bare) :
    (left.mapStmt id edit).bare = (right.mapStmt id other).bare := by
  rw [bare_mapStmt first, bare_mapStmt second, alike]

theorem bare_mapExpr_congr (alike : left.bare = right.bare) {edit other shape : Expr → Expr}
    (first : ∀ expr, (edit expr).bare = shape expr.bare)
    (second : ∀ expr, (other expr).bare = shape expr.bare) :
    (left.mapExpr id edit).bare = (right.mapExpr id other).bare := by
  rw [bare_mapExpr first, bare_mapExpr second, alike]

theorem bare_push (arena : Arena) (node : Node) (span : Span) :
    (arena.push node span).bare = arena.bare.push node.bare span := by
  simp [bare, push]

section Alike

variable (alike : left.bare = right.bare)
include alike

/-- What does not depend on versions is the same of both. -/
theorem congr_bare {α : Type} (ask : Arena → α) (bare : ∀ arena, ask arena.bare = ask arena) :
    ask right = ask left := by
  rw [← bare, ← alike, bare]

/-- The expressions under an id are the same, but for the versions that reads have seen. -/
theorem expr?_of_bare (id : NodeId) : right.expr? id = left.expr? id ∨
    ∃ var seen late, left.expr? id = some (.read var seen) ∧
      right.expr? id = some (.read var late) := by
  have same : (left.expr? id).map Expr.bare = (right.expr? id).map Expr.bare := by
    rw [← expr?_bare, alike, expr?_bare]
  cases first : left.expr? id with
  | none =>
    rw [first] at same
    exact .inl (Option.map_eq_none_iff.1 same.symm)
  | some expr =>
    rw [first] at same
    obtain ⟨other, second, bare⟩ := Option.map_eq_some_iff.1 same.symm
    rw [second]
    rcases Expr.eq_of_bare bare.symm with rfl | ⟨var, seen, late, rfl, rfl⟩
    · exact .inl rfl
    · exact .inr ⟨var, seen, late, rfl, rfl⟩

/-- The statements under an id are the same, but for the versions that writes have made. -/
theorem stmt?_of_bare (id : NodeId) : right.stmt? id = left.stmt? id ∨
    (∃ target value made late, left.stmt? id = some (.assign target value made) ∧
      right.stmt? id = some (.assign target value late)) ∨
    ∃ target tolerant made late, left.stmt? id = some (.delete target tolerant made) ∧
      right.stmt? id = some (.delete target tolerant late) := by
  have same : (left.stmt? id).map Stmt.bare = (right.stmt? id).map Stmt.bare := by
    rw [← stmt?_bare, alike, stmt?_bare]
  cases first : left.stmt? id with
  | none =>
    rw [first] at same
    exact .inl (Option.map_eq_none_iff.1 same.symm)
  | some stmt =>
    rw [first] at same
    obtain ⟨other, second, bare⟩ := Option.map_eq_some_iff.1 same.symm
    rw [second]
    rcases Stmt.eq_of_bare bare.symm with rfl | ⟨target, value, made, late, rfl, rfl⟩ |
      ⟨target, tolerant, made, late, rfl, rfl⟩
    · exact .inl rfl
    · exact .inr (.inl ⟨target, value, made, late, rfl, rfl⟩)
    · exact .inr (.inr ⟨target, tolerant, made, late, rfl, rfl⟩)

/-- A continue is one in both. -/
theorem isCont_of_bare (id : Option NodeId) :
    (id.bind right.stmt? == some .cont) = (id.bind left.stmt? == some .cont) := by
  cases id with
  | none => rfl
  | some id =>
    rw [Option.bind_some, Option.bind_some]
    rcases stmt?_of_bare alike id with same | ⟨_, _, _, _, found, foundRight⟩ |
      ⟨_, _, _, _, found, foundRight⟩
    · rw [same]
    · rw [found, foundRight]
      rfl
    · rw [found, foundRight]
      rfl

end Alike

end Arena

end ValueFlow
