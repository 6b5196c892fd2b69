import ValueFlow.Proofs.Completion.Executions
import ValueFlow.Proofs.Rework.Settled

/-!
# What a walk may do to an arena

The arena at any point of a walk is told by the arena with which the walk began
(`Original.Reworked`). Old nodes are what they were, but for their children and for the versions
that are noted in them: a node that stands in the place of a child was below that child before, or
was added (`Original.StmtFor`, `Original.ExprFor`). Added nodes are literals, and expression
statements over settled expressions. Nodes that were not below the root are untouched.

Each of these is a demand on single nodes, so it is checked at the edits of a walk and nowhere else
(`Reworked.push`, `Reworked.mapStmt`, `Reworked.mapExpr`). Nothing lies below itself in such an
arena if nothing did at the beginning (`Reworked.acyclic`): a way back would lead through an added
statement, but below that one there are expressions only.
-/

namespace ValueFlow
set_option autoImplicit false

/-- A statement without what is below it, and without the version that is noted in it. -/
def Stmt.form : Stmt → Stmt
  | .block _ => .block []
  | .assign target _ _ => .assign target 0 none
  | .delete target tolerant _ => .delete target tolerant none
  | .release target => .release target
  | .effect _ => .effect 0
  | .branch _ _ _ => .branch 0 none none
  | .loop _ => .loop none
  | .brk => .brk
  | .cont => .cont
  | .ret _ => .ret none

/-- An expression without what is below it, and without the version that is noted in it. -/
def Expr.form : Expr → Expr
  | .literal value => .literal value
  | .read var _ => .read var none
  | .builtin name => .builtin name
  | .call _ _ => .call 0 []
  | .eval _ => .eval 0

theorem Expr.form_withSeen (expr : Expr) (version : Version) :
    (expr.withSeen version).form = expr.form := by
  cases expr <;> rfl

theorem Expr.form_withCall (expr : Expr) (callee : NodeId) (args : List NodeId) :
    (expr.withCall callee args).form = expr.form := by
  cases expr <;> rfl

theorem Expr.form_withSource (expr : Expr) (source : NodeId) :
    (expr.withSource source).form = expr.form := by
  cases expr <;> rfl

/-- What a node names can be told from its form. -/
theorem Expr.named_of_form {expr other : Expr} (same : expr.form = other.form) :
    (Node.expr expr).named = (Node.expr other).named := by
  have told (expr : Expr) : (Node.expr expr.form).named = (Node.expr expr).named := by
    cases expr <;> rfl
  rw [← told expr, same, told]

theorem Stmt.named_of_form {stmt other : Stmt} (same : stmt.form = other.form) :
    (Node.stmt stmt).named = (Node.stmt other).named := by
  have told (stmt : Stmt) : (Node.stmt stmt.form).named = (Node.stmt stmt).named := by
    cases stmt <;> rfl
  rw [← told stmt, same, told]

theorem Stmt.target?_of_form {stmt other : Stmt} (same : stmt.form = other.form) :
    stmt.target? = other.target? := by
  have told (stmt : Stmt) : stmt.form.target? = stmt.target? := by cases stmt <;> rfl
  rw [← told stmt, same, told]

theorem Expr.eq_literal {expr : Expr} {value : Literal}
    (same : expr.form = (Expr.literal value).form) : expr = .literal value := by
  cases expr <;> simp_all [Expr.form]

/-- Only a loop has a body. -/
theorem Stmt.eq_loop {stmt : Stmt} {body : NodeId} (isBody : body ∈ (Node.stmt stmt).body?) :
    stmt = .loop (some body) := by
  cases stmt with
  | loop held => rw [show held = some body from isBody]
  | _ => cases isBody

/-- The class and the constructor of a node, with the targets, flags, names and constants in it. -/
def Node.form : Node → Node
  | .stmt held => .stmt held.form
  | .expr held => .expr held.form

namespace Arena

variable {arena : Arena} {root id other : NodeId} {depth : Nat}

/-- A statement has another one directly below it. -/
def Child (arena : Arena) (id other : NodeId) : Prop := ∃ stmt, arena.stmt? id = some stmt ∧ other ∈ stmt.children

theorem leads_of_operand {stmt : Stmt} (found : arena.stmt? id = some stmt)
    (mem : other ∈ stmt.operands) : arena.Leads id other :=
  ⟨.stmt stmt, .expr, stmt?_eq_some.1 found, List.mem_append_right _ (List.mem_map_of_mem mem)⟩

theorem Operand.leads (operand : arena.Operand id other) : arena.Leads id other := by
  obtain ⟨expr, found, mem⟩ := operand
  exact ⟨.expr expr, .expr, expr?_eq_some.1 found, List.mem_map_of_mem mem⟩

theorem Child.leads (child : arena.Child id other) : arena.Leads id other := by
  obtain ⟨stmt, found, mem⟩ := child
  exact leads_of_mem_children found mem

/-- What a node leads to is a child or an operand of it. -/
theorem Leads.cases (leads : arena.Leads id other) :
    (∃ stmt, arena.stmt? id = some stmt ∧ (other ∈ stmt.children ∨ other ∈ stmt.operands)) ∨
      arena.Operand id other := by
  obtain ⟨node, class_, found, mem⟩ := leads
  cases node with
  | stmt held =>
    simp only [Node.below, List.mem_append, List.mem_map, Prod.mk.injEq,
      exists_eq_right_right] at mem
    exact .inl ⟨held, stmt?_eq_some.2 found, mem.imp And.left And.left⟩
  | expr held =>
    simp only [Node.below, List.mem_map, Prod.mk.injEq, exists_eq_right_right] at mem
    exact .inr ⟨held, expr?_eq_some.2 found, mem.1⟩

namespace Below

theorem trans (above : arena.Below root id) (below : arena.Below id other) :
    arena.Below root other := by
  induction below with
  | root => exact above
  | child _ found mem ih => exact .child ih found mem

theorem reached (below : arena.Below root id) : Relation.ReflTransGen arena.Leads root id := by
  induction below with
  | root => exact .refl
  | child _ found mem ih => exact ih.tail (leads_of_mem_children found mem)

/-- Below an id that is past the end there is nothing else. -/
theorem eq_of_beyond (below : arena.Below root id) (beyond : arena.size ≤ root) : id = root := by
  induction below with
  | root => rfl
  | child _ found _ ih => exact absurd beyond (not_beyond_of_stmt? (ih ▸ found))

end Below

/-- No way down has as many steps as this, whatever counts as one. -/
def NestsWithin (next : NodeId → NodeId → Prop) : Nat → NodeId → Prop
  | 0, _ => False
  | depth + 1, id => ∀ other, next id other → NestsWithin next depth other

namespace NestsWithin

variable {next : NodeId → NodeId → Prop}

theorem succ (nests : NestsWithin next depth id) : NestsWithin next (depth + 1) id := by
  induction depth generalizing id with
  | zero => exact nests.elim
  | succ depth ih => exact fun other step => ih (nests other step)

theorem mono {more : Nat} (nests : NestsWithin next depth id) (le : depth ≤ more) :
    NestsWithin next more id := by
  induction le with
  | refl => exact nests
  | step _ ih => exact ih.succ

/-- Where there is nothing below an id, any depth will do that is some depth. -/
theorem of_leaf (nests : NestsWithin next depth other) (leaf : ∀ last, ¬ next id last) :
    NestsWithin next depth id := by
  cases depth with
  | zero => exact nests.elim
  | succ depth => exact fun last step => absurd step (leaf last)

theorem below (nests : NestsWithin arena.Child depth root) (below : arena.Below root id) :
    NestsWithin arena.Child depth id := by
  induction below with
  | root => exact nests
  | child _ found mem ih =>
    cases depth with
    | zero => exact ih.elim
    | succ depth => exact (ih _ ⟨_, found, mem⟩).succ

end NestsWithin

/-- Where nothing lies below itself, no way down has more steps than there are nodes. -/
theorem Acyclic.nestsWithin (acyclic : arena.Acyclic) {next : NodeId → NodeId → Prop}
    (leads : ∀ {id other}, next id other → arena.Leads id other) :
    NestsWithin next (arena.size + 1) id := by
  have shallow {depth : Nat} {id : NodeId} (few : arena.Shallow depth id) : NestsWithin next
      (depth + 1) id := by
    induction depth generalizing id with
    | zero =>
      intro other step
      obtain ⟨node, -, found, -⟩ := leads step
      exact absurd (few (lt_size_of_node? found)) (Nat.not_lt_zero _)
    | succ depth ih =>
      intro other step
      obtain ⟨node, class_, found, mem⟩ := leads step
      refine ih fun inside => ?_
      exact Nat.lt_of_lt_of_le (card_allBelow_lt ⟨node, class_, found, mem⟩ inside (acyclic other))
        (Nat.le_of_lt_succ (few (lt_size_of_node? found)))
  exact shallow acyclic.shallow_size

end Arena

/-- The arena from which a walk of a node begins, with the variables that are registered. -/
structure Original where
  arena : Arena
  root : NodeId
  vars : Variables

namespace Original

variable (o : Original) (arena : Arena)

/-- The id was below the root, or is past the end of the original arena. -/
def Inside (id : NodeId) : Prop := Relation.ReflTransGen o.arena.Leads o.root id ∨ o.arena.size ≤ id

/-- A literal was added under the id. -/
def IsAddedLiteral (id : NodeId) : Prop := o.arena.size ≤ id ∧ ∃ value, arena.expr? id = some (.literal value)

/-- An expression statement was added under the id. -/
def IsAddedEffect (id : NodeId) : Prop := o.arena.size ≤ id ∧ ∃ expr, arena.stmt? id = some (.effect expr)

/-- The statement may stand where the other one stood: it was below that one, or was added. -/
def StmtFor (former id : NodeId) : Prop := o.arena.Below former id ∨ o.IsAddedEffect arena id

/-- The expression may stand where the other one stood: it is the same, or an added literal. -/
def ExprFor (former id : NodeId) : Prop := id = former ∨ o.IsAddedLiteral arena id

/-- The statement may stand where one of the former ones stood. -/
def StmtForOne (formers : List NodeId) (id : NodeId) : Prop := ∃ old ∈ formers, o.StmtFor arena old id

/-- The expression may stand where one of the former ones stood. -/
def ExprForOne (formers : List NodeId) (id : NodeId) : Prop := ∃ old ∈ formers, o.ExprFor arena old id

/-- A statement is the former one with other statements and expressions below it, which may stand
there. -/
structure Recasts (former now : Stmt) : Prop where
  form : now.form = former.form
  children : ∀ child ∈ now.children, o.StmtForOne arena former.children child
  operands : ∀ operand ∈ now.operands, o.ExprForOne arena former.operands operand
  body : ∀ inner ∈ (Node.stmt now).body?, inner ∈ (Node.stmt former).body?

/-- An expression is the former one with other operands, which may stand there. -/
structure RecastsExpr (former now : Expr) : Prop where
  form : now.form = former.form
  operands : ∀ operand ∈ now.operands, o.ExprForOne arena former.operands operand

/-- A walk adds literals, and statements that evaluate settled expressions. -/
def Adds (node : Node) : Prop :=
  (∃ value, node = .expr (.literal value)) ∨
    ∃ expr, node = .stmt (.effect expr) ∧ o.Inside expr ∧ arena.Settled o.vars.Knows expr

/-- A walk from the root may have come to this arena. -/
structure Reworked : Prop where
  grown : o.arena.size ≤ arena.size
  span : ∀ id < o.arena.size, arena.span id = o.arena.span id
  stmt : ∀ id former, o.arena.stmt? id = some former → ∃ now, arena.stmt? id = some now ∧ o.Recasts arena former now
  expr : ∀ id former, o.arena.expr? id = some former → ∃ now, arena.expr? id = some now ∧ o.RecastsExpr arena former now
  outside : ∀ id, ¬ o.Inside id → arena.node? id = o.arena.node? id
  added : ∀ id node, o.arena.size ≤ id → arena.node? id = some node → o.Adds arena node

variable {o arena} {newer : Arena} {former now : Stmt} {id old child other : NodeId}
  {formers : List NodeId}

theorem Inside.tail (inside : o.Inside id) (leads : o.arena.Leads id other) : o.Inside other := by
  obtain ⟨node, class_, found, mem⟩ := leads
  have reached := inside.resolve_right (Nat.not_le_of_lt (Arena.lt_size_of_node? found))
  exact .inl (reached.tail ⟨node, class_, found, mem⟩)

theorem Inside.below (inside : o.Inside id) (below : o.arena.Below id other) : o.Inside other := by
  induction below with
  | root => exact inside
  | child _ found mem ih => exact ih.tail (Arena.leads_of_mem_children found mem)

section Later

variable (becomes : Arena.Becomes o.vars.Knows arena newer)

include becomes

theorem IsAddedLiteral.later (added : o.IsAddedLiteral arena id) : o.IsAddedLiteral newer id := by
  obtain ⟨beyond, value, found⟩ := added
  exact ⟨beyond, value, becomes.literal id value found⟩

theorem IsAddedEffect.later (added : o.IsAddedEffect arena id) : o.IsAddedEffect newer id := by
  obtain ⟨beyond, expr, found⟩ := added
  exact ⟨beyond, becomes.effect id expr found⟩

theorem StmtFor.later (stands : o.StmtFor arena old id) : o.StmtFor newer old id :=
  stands.imp_right (·.later becomes)

theorem ExprFor.later (stands : o.ExprFor arena old id) : o.ExprFor newer old id :=
  stands.imp_right (·.later becomes)

/-- What stands for a statement that stands for a former one stands for that one. -/
theorem StmtFor.trans (early : o.StmtFor arena old child) (late : o.StmtFor newer child id) :
    o.StmtFor newer old id := by
  rcases late with below | added
  · rcases early with above | added
    · exact .inl (above.trans below)
    · obtain rfl := below.eq_of_beyond added.1
      exact .inr (added.later becomes)
  · exact .inr added

theorem ExprFor.trans (early : o.ExprFor arena old child) (late : o.ExprFor newer child id) :
    o.ExprFor newer old id := by
  rcases late with rfl | added
  · exact early.later becomes
  · exact .inr added

theorem StmtForOne.later (fits : o.StmtForOne arena formers id) :
    o.StmtForOne newer formers id := by
  obtain ⟨old, mem, stands⟩ := fits
  exact ⟨old, mem, stands.later becomes⟩

theorem ExprForOne.later (fits : o.ExprForOne arena formers id) :
    o.ExprForOne newer formers id := by
  obtain ⟨old, mem, stands⟩ := fits
  exact ⟨old, mem, stands.later becomes⟩

theorem Recasts.later (recasts : o.Recasts arena former now) : o.Recasts newer former now where
  form := recasts.form
  children child mem := (recasts.children child mem).later becomes
  operands operand mem := (recasts.operands operand mem).later becomes
  body := recasts.body

theorem RecastsExpr.later {former now : Expr} (recasts : o.RecastsExpr arena former now) :
    o.RecastsExpr newer former now where
  form := recasts.form
  operands operand mem := (recasts.operands operand mem).later becomes

theorem Adds.later {node : Node} (adds : o.Adds arena node) : o.Adds newer node := by
  obtain literal | ⟨expr, rfl, inside, settled⟩ := adds
  · exact .inl literal
  · exact .inr ⟨expr, rfl, inside, becomes.settled expr settled⟩

end Later

theorem StmtFor.inside (stands : o.StmtFor arena old id) (inside : o.Inside old) : o.Inside id :=
  stands.elim inside.below fun added => .inr added.1

theorem ExprFor.inside (stands : o.ExprFor arena old id) (inside : o.Inside old) : o.Inside id :=
  stands.elim (fun same => same ▸ inside) fun added => .inr added.1

/-- No way down from what stands for a former statement is longer than those from the former one. -/
theorem StmtFor.nests {depth : Nat} (stands : o.StmtFor arena old id)
    (nests : Arena.NestsWithin o.arena.Child depth old) :
    Arena.NestsWithin o.arena.Child depth id := by
  rcases stands with below | added
  · exact nests.below below
  · exact nests.of_leaf fun last ⟨_, found, _⟩ => absurd added.1 (Arena.not_beyond_of_stmt? found)

theorem ExprFor.nests {depth : Nat} (stands : o.ExprFor arena old id)
    (nests : Arena.NestsWithin o.arena.Operand depth old) :
    Arena.NestsWithin o.arena.Operand depth id := by
  rcases stands with rfl | added
  · exact nests
  · exact nests.of_leaf fun last ⟨_, found, _⟩ => absurd added.1 (Arena.not_beyond_of_expr? found)

namespace Recasts

theorem refl (stmt : Stmt) : o.Recasts arena stmt stmt :=
  ⟨rfl, fun child mem => ⟨child, mem, .inl .root⟩, fun operand mem => ⟨operand, mem, .inl rfl⟩,
    fun _ mem => mem⟩

variable (recasts : o.Recasts arena former now)

include recasts

theorem withStmts {stmts : List NodeId}
    (fits : ∀ stmt ∈ stmts, o.StmtForOne arena former.children stmt) :
    o.Recasts arena former (now.withStmts stmts) := by
  cases now with
  | block held => exact ⟨recasts.form, fits, nofun, nofun⟩
  | _ => exact recasts

theorem withBound {value : NodeId} (fits : o.ExprForOne arena former.operands value)
    (version : Version) :
    o.Recasts arena former (now.withBound value version) := by
  cases now with
  | assign target held note => exact ⟨recasts.form, nofun, List.forall_mem_singleton.2 fits, nofun⟩
  | _ => exact recasts

theorem withDeleted (version : Option Version) :
    o.Recasts arena former (now.withDeleted version) := by
  cases now with
  | delete target tolerant note => exact ⟨recasts.form, nofun, nofun, nofun⟩
  | _ => exact recasts

theorem withEffect {expr : NodeId} (fits : o.ExprForOne arena former.operands expr) :
    o.Recasts arena former (now.withEffect expr) := by
  cases now with
  | effect held => exact ⟨recasts.form, nofun, List.forall_mem_singleton.2 fits, nofun⟩
  | _ => exact recasts

theorem withArms {cond : NodeId} {yes no : Option NodeId}
    (fits : o.ExprForOne arena former.operands cond)
    (fitsYes : ∀ arm ∈ yes, o.StmtForOne arena former.children arm)
    (fitsNo : ∀ arm ∈ no, o.StmtForOne arena former.children arm) :
    o.Recasts arena former (now.withArms cond yes no) := by
  cases now with
  | branch held heldYes heldNo =>
    refine ⟨recasts.form, fun child mem => ?_, List.forall_mem_singleton.2 fits, nofun⟩
    rcases List.mem_append.1 mem with mem | mem
    · exact fitsYes child (Option.mem_toList.1 mem)
    · exact fitsNo child (Option.mem_toList.1 mem)
  | _ => exact recasts

/-- The body of a loop may only be dropped. -/
theorem withBody {body : Option NodeId} (fits : ∀ inner ∈ body, inner ∈ (Node.stmt former).body?) :
    o.Recasts arena former (now.withBody body) := by
  cases now with
  | loop held =>
    refine ⟨recasts.form, fun child mem => ?_, nofun, fits⟩
    obtain rfl := Stmt.eq_loop (fits child (Option.mem_toList.1 mem))
    exact ⟨child, List.mem_singleton_self child, .inl .root⟩
  | _ => exact recasts

theorem withResult {value : NodeId} (fits : o.ExprForOne arena former.operands value) :
    o.Recasts arena former (now.withResult value) := by
  cases now with
  | ret held => exact ⟨recasts.form, nofun, List.forall_mem_singleton.2 fits, nofun⟩
  | _ => exact recasts

end Recasts

namespace RecastsExpr

variable {former now : Expr}

theorem refl (expr : Expr) : o.RecastsExpr arena expr expr :=
  ⟨rfl, fun operand mem => ⟨operand, mem, .inl rfl⟩⟩

end RecastsExpr

namespace Reworked

/-- An arena is reworked to itself. -/
theorem refl (o : Original) : o.Reworked o.arena where
  grown := Nat.le_refl _
  span _ _ := rfl
  stmt _ former found := ⟨former, found, .refl former⟩
  expr _ former found := ⟨former, found, .refl former⟩
  outside _ _ := rfl
  added _ _ beyond found := absurd (Arena.lt_size_of_node? found) (Nat.not_lt_of_le beyond)

variable (reworked : o.Reworked arena)

include reworked

/-- A statement of the arena is an old one recast, or an added one over a settled expression. -/
theorem stmt_cases (found : arena.stmt? id = some now) :
    (∃ former, o.arena.stmt? id = some former ∧ o.Recasts arena former now) ∨
      ∃ expr, now = .effect expr ∧ o.arena.size ≤ id ∧ o.Inside expr ∧
        arena.Settled o.vars.Knows expr := by
  by_cases beyond : o.arena.size ≤ id
  · obtain ⟨value, same⟩ | ⟨expr, same, inside, settled⟩ :=
      reworked.added id _ beyond (Arena.stmt?_eq_some.1 found)
    · cases same
    · exact .inr ⟨expr, Node.stmt.inj same, beyond, inside, settled⟩
  · obtain ⟨former, before⟩ | ⟨former, before⟩ := Arena.stmt_or_expr (Nat.lt_of_not_le beyond)
    · obtain ⟨same, again, recasts⟩ := reworked.stmt id former before
      obtain rfl := Option.some.inj (again.symm.trans found)
      exact .inl ⟨former, before, recasts⟩
    · obtain ⟨same, again, -⟩ := reworked.expr id former before
      simp [Arena.expr?_of_stmt? found] at again

/-- An expression of the arena is an old one recast, or an added literal. -/
theorem expr_cases {now : Expr} (found : arena.expr? id = some now) :
    (∃ former, o.arena.expr? id = some former ∧ o.RecastsExpr arena former now) ∨
      ∃ value, now = .literal value ∧ o.arena.size ≤ id := by
  by_cases beyond : o.arena.size ≤ id
  · obtain ⟨value, same⟩ | ⟨expr, same, inside, settled⟩ :=
      reworked.added id _ beyond (Arena.expr?_eq_some.1 found)
    · exact .inr ⟨value, Node.expr.inj same, beyond⟩
    · cases same
  · obtain ⟨former, before⟩ | ⟨former, before⟩ := Arena.stmt_or_expr (Nat.lt_of_not_le beyond)
    · obtain ⟨same, again, -⟩ := reworked.stmt id former before
      simp [Arena.expr?_of_stmt? again] at found
    · obtain ⟨same, again, recasts⟩ := reworked.expr id former before
      obtain rfl := Option.some.inj (again.symm.trans found)
      exact .inl ⟨former, before, recasts⟩

theorem push {node : Node} (adds : o.Adds arena node) (span : Span) :
    o.Reworked (arena.push node span) := by
  have becomes : Arena.Becomes o.vars.Knows arena (arena.push node span) := .push _ _ _
  have old {id : NodeId} (inside : id < o.arena.size) : id < arena.size :=
    Nat.lt_of_lt_of_le inside reworked.grown
  refine ⟨reworked.grown.trans becomes.size, fun id inside => ?_, fun id former before => ?_,
    fun id former before => ?_, fun id outside => ?_, fun id held beyond found => ?_⟩
  · exact (becomes.span id (old inside)).trans (reworked.span id inside)
  · obtain ⟨now, found, recasts⟩ := reworked.stmt id former before
    refine ⟨now, ?_, recasts.later becomes⟩
    rw [Arena.stmt?_push, if_neg (Nat.ne_of_lt (Arena.lt_size_of_stmt? found)), found]
  · obtain ⟨now, found, recasts⟩ := reworked.expr id former before
    refine ⟨now, ?_, recasts.later becomes⟩
    rw [Arena.expr?_push, if_neg (Nat.ne_of_lt (Arena.lt_size_of_expr? found)), found]
  · have inside : id < o.arena.size := Nat.lt_of_not_le fun beyond => outside (.inr beyond)
    rw [Arena.node?_push, if_neg (Nat.ne_of_lt (old inside)), reworked.outside id outside]
  · rw [Arena.node?_push] at found
    split at found
    · obtain rfl := Option.some.inj found
      exact adds.later becomes
    · exact (reworked.added id held beyond found).later becomes

/-- A statement may be edited if an old one is still the former one recast, and an added one may
still be added. -/
theorem mapStmt (inside : o.Inside id) {edit : Stmt → Stmt}
    (effects : ∀ expr, ∃ other, edit (.effect expr) = .effect other)
    (recasts : ∀ former now, o.arena.stmt? id = some former → arena.stmt? id = some now →
      o.Recasts arena former now → o.Recasts arena former (edit now))
    (adds : ∀ now, o.arena.size ≤ id → arena.stmt? id = some now →
      o.Adds arena (.stmt (edit now))) :
    o.Reworked (arena.mapStmt id edit) := by
  have becomes : Arena.Becomes o.vars.Knows arena (arena.mapStmt id edit) := .mapStmt _ _ effects
  refine ⟨reworked.grown.trans becomes.size, fun other old => ?_, fun other former before => ?_,
    fun other former before => ?_, fun other outside => ?_, fun other held beyond found => ?_⟩
  · exact (Arena.span_mapStmt _ _ _ _).trans (reworked.span other old)
  · obtain ⟨now, found, told⟩ := reworked.stmt other former before
    by_cases same : other = id
    · subst same
      exact ⟨edit now, Arena.stmt?_mapStmt_self found edit,
        (recasts former now before found told).later becomes⟩
    · exact ⟨now, by rw [Arena.stmt?_mapStmt, if_neg same, found], told.later becomes⟩
  · obtain ⟨now, found, told⟩ := reworked.expr other former before
    exact ⟨now, by rw [Arena.expr?_mapStmt, found], told.later becomes⟩
  · have apart : other ≠ id := fun same => outside (same ▸ inside)
    rw [Arena.node?_mapStmt_of_ne _ apart, reworked.outside other outside]
  · by_cases same : other = id
    · subst same
      cases held with
      | stmt edited =>
        have stmt := Arena.stmt?_eq_some.2 found
        rw [Arena.stmt?_mapStmt, if_pos rfl] at stmt
        obtain ⟨now, before, rfl⟩ := Option.map_eq_some_iff.1 stmt
        exact (adds now beyond before).later becomes
      | expr held =>
        have expr := Arena.expr?_eq_some.2 found
        rw [Arena.expr?_mapStmt] at expr
        exact (reworked.added other _ beyond (Arena.expr?_eq_some.1 expr)).later becomes
    · rw [Arena.node?_mapStmt_of_ne _ same] at found
      exact (reworked.added other held beyond found).later becomes

/-- An expression may be edited if an old one is still the former one recast, with settled
operands. -/
theorem mapExpr (inside : o.Inside id) {edit : Expr → Expr}
    (literals : ∀ value, edit (.literal value) = .literal value)
    (becomes : Arena.Becomes o.vars.Knows arena (arena.mapExpr id edit))
    (recasts : ∀ former now, o.arena.expr? id = some former → arena.expr? id = some now →
      o.RecastsExpr arena former now → o.RecastsExpr arena former (edit now)) :
    o.Reworked (arena.mapExpr id edit) := by
  refine ⟨reworked.grown.trans becomes.size, fun other old => ?_, fun other former before => ?_,
    fun other former before => ?_, fun other outside => ?_, fun other held beyond found => ?_⟩
  · exact (Arena.span_mapExpr _ _ _ _).trans (reworked.span other old)
  · obtain ⟨now, found, told⟩ := reworked.stmt other former before
    exact ⟨now, by rw [Arena.stmt?_mapExpr, found], told.later becomes⟩
  · obtain ⟨now, found, told⟩ := reworked.expr other former before
    by_cases same : other = id
    · subst same
      exact ⟨edit now, Arena.expr?_mapExpr_self found edit,
        (recasts former now before found told).later becomes⟩
    · exact ⟨now, by rw [Arena.expr?_mapExpr, if_neg same, found], told.later becomes⟩
  · have apart : other ≠ id := fun same => outside (same ▸ inside)
    rw [Arena.node?_mapExpr_of_ne _ apart, reworked.outside other outside]
  · cases held with
    | stmt held =>
      have stmt := Arena.stmt?_eq_some.2 found
      rw [Arena.stmt?_mapExpr] at stmt
      exact (reworked.added other _ beyond (Arena.stmt?_eq_some.1 stmt)).later becomes
    | expr edited =>
      have expr := Arena.expr?_eq_some.2 found
      rw [Arena.expr?_mapExpr] at expr
      split at expr
      · rename_i same
        subst same
        obtain ⟨now, before, rfl⟩ := Option.map_eq_some_iff.1 expr
        obtain ⟨former, old, -⟩ | ⟨value, rfl, -⟩ := reworked.expr_cases before
        · exact absurd beyond (Arena.not_beyond_of_expr? old)
        · exact .inl ⟨value, by rw [literals]⟩
      · exact (reworked.added other _ beyond (Arena.expr?_eq_some.1 expr)).later becomes

/-- An old node keeps its class and its constructor, with the targets, flags, names and constants in
it. -/
theorem node {held : Node} (before : o.arena.node? id = some held) :
    ∃ now, arena.node? id = some now ∧ now.form = held.form := by
  cases held with
  | stmt former =>
    obtain ⟨now, found, recasts⟩ := reworked.stmt id former (Arena.stmt?_eq_some.2 before)
    exact ⟨.stmt now, Arena.stmt?_eq_some.1 found, congrArg Node.stmt recasts.form⟩
  | expr former =>
    obtain ⟨now, found, recasts⟩ := reworked.expr id former (Arena.expr?_eq_some.2 before)
    exact ⟨.expr now, Arena.expr?_eq_some.1 found, congrArg Node.expr recasts.form⟩

/-- What an old node has directly below it was below it before, or was added. -/
theorem leads (old : id < o.arena.size) (leads : arena.Leads id other) :
    Relation.TransGen o.arena.Leads id other ∨ o.arena.size ≤ other ∧ other < arena.size := by
  have added : o.IsAddedEffect arena other ∨ o.IsAddedLiteral arena other →
      o.arena.size ≤ other ∧ other < arena.size := by
    rintro (⟨beyond, expr, found⟩ | ⟨beyond, value, found⟩)
    · exact ⟨beyond, Arena.lt_size_of_stmt? found⟩
    · exact ⟨beyond, Arena.lt_size_of_expr? found⟩
  obtain ⟨now, found, below⟩ | ⟨now, found, mem⟩ := leads.cases
  · obtain ⟨former, before, recasts⟩ | ⟨_, -, beyond, -⟩ := reworked.stmt_cases found
    · rcases below with child | operand
      · obtain ⟨child, mem, below | new⟩ := recasts.children other child
        · exact .inl (Relation.TransGen.head'
            (Arena.leads_of_mem_children before mem) below.reached)
        · exact .inr (added (.inl new))
      · obtain ⟨operand, mem, rfl | new⟩ := recasts.operands other operand
        · exact .inl (.single (Arena.leads_of_operand before mem))
        · exact .inr (added (.inr new))
    · exact absurd old (Nat.not_lt_of_le beyond)
  · obtain ⟨former, before, recasts⟩ | ⟨_, -, beyond⟩ := reworked.expr_cases found
    · obtain ⟨operand, mem, rfl | new⟩ := recasts.operands other mem
      · exact .inl (.single (Arena.Operand.leads ⟨former, before, mem⟩))
      · exact .inr (added (.inr new))
    · exact absurd old (Nat.not_lt_of_le beyond)

/-- An added node never lies below itself. -/
theorem not_below_itself (beyond : o.arena.size ≤ id) : ¬ Relation.TransGen arena.Leads id id := by
  intro cycle
  obtain ⟨next, leads, back⟩ := Relation.TransGen.head'_iff.1 cycle
  obtain ⟨now, found, below⟩ | ⟨now, found, mem⟩ := leads.cases
  · obtain ⟨former, before, -⟩ | ⟨expr, rfl, -, -, settled⟩ := reworked.stmt_cases found
    · exact absurd beyond (Arena.not_beyond_of_stmt? before)
    · -- Below the expression there are expressions only, and the way back leads to a statement.
      obtain rfl : next = expr := by simpa [Stmt.children, Stmt.operands] using below
      have only : ∀ last, Relation.ReflTransGen arena.Leads next last →
          Relation.ReflTransGen arena.Operand next last := by
        intro last reached
        induction reached with
        | refl => exact .refl
        | tail _ step ih =>
          obtain ⟨held, isExpr, -⟩ := settled _ ih
          obtain ⟨stmt, isStmt, -⟩ | operand := step.cases
          · simp [Arena.expr?_of_stmt? isStmt] at isExpr
          · exact ih.tail operand
      obtain ⟨held, isExpr, -⟩ := settled id (only id back)
      simp [Arena.expr?_of_stmt? found] at isExpr
  · obtain ⟨former, before, -⟩ | ⟨value, rfl, -⟩ := reworked.expr_cases found
    · exact absurd beyond (Arena.not_beyond_of_expr? before)
    · cases mem

/-- A way down leads through old nodes only, or comes by an added one. -/
theorem reached (old : id < o.arena.size) (below : Relation.TransGen arena.Leads id other) :
    Relation.TransGen o.arena.Leads id other ∨
      ∃ added, o.arena.size ≤ added ∧ Relation.TransGen arena.Leads id added ∧
        Relation.ReflTransGen arena.Leads added other := by
  induction below with
  | single leads =>
    exact (reworked.leads old leads).imp_right fun new => ⟨_, new.1, .single leads, .refl⟩
  | @tail middle last above leads ih =>
    obtain before | ⟨added, beyond, first, rest⟩ := ih
    · by_cases between : middle < o.arena.size
      · exact (reworked.leads between leads).imp before.trans fun new =>
          ⟨_, new.1, above.tail leads, .refl⟩
      · exact .inr ⟨middle, Nat.le_of_not_lt between, above, .single leads⟩
    · exact .inr ⟨added, beyond, first, rest.tail leads⟩

/-- Nothing comes to lie below itself. -/
theorem acyclic (acyclic : o.arena.Acyclic) : arena.Acyclic := by
  intro id cycle
  by_cases old : id < o.arena.size
  · obtain before | ⟨added, beyond, first, rest⟩ := reworked.reached old cycle
    · exact acyclic id before
    · exact reworked.not_below_itself beyond (Relation.TransGen.trans_right rest first)
  · exact reworked.not_below_itself (Nat.le_of_not_lt old) cycle

end Reworked

end Original

end ValueFlow
