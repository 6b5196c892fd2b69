import ValueFlow.Proofs.Integrity.Session
import ValueFlow.Proofs.Rework.Once
import ValueFlow.Proofs.Rework.Statement

/-!
# The frame of a walk

What a walk from a root leaves of an arena in which nothing lies below itself, whether it ends well
or fails half-way (`Arena.Reworks`). It comes to an end, for the levels that it may go down never
run out.

A walk that ends well answers with a node that was below the root or was added, and below this node
nothing is met twice if nothing was met twice below the root, and all ids were in range
(`Arena.AnsweredBy`). An id past the end may come to name a node that is added on the way, which is
met there and where it was put (`danglingRow_met_twice`).
-/

namespace ValueFlow
set_option autoImplicit false

namespace Arena

/-- What a walk from the root may have made of an arena. -/
structure Reworks (before : Arena) (root : NodeId) (after : Arena) : Prop where
  grown : before.size ≤ after.size
  span : ∀ id < before.size, after.span id = before.span id
  form : ∀ id node, before.node? id = some node → ∃ now, after.node? id = some now ∧ now.form = node.form
  frame : ∀ id < before.size, ¬ Relation.ReflTransGen before.Leads root id → after.node? id = before.node? id
  added : ∀ id node, before.size ≤ id → after.node? id = some node →
    (∃ value, node = .expr (.literal value)) ∨ ∃ expr, node = .stmt (.effect expr)
  below : ∀ id < before.size, ∀ other, after.Leads id other →
    Relation.TransGen before.Leads id other ∨ before.size ≤ other ∧ other < after.size
  acyclic : after.Acyclic

/-- A walk from the root may have answered with the node. -/
structure AnsweredBy (before : Arena) (root : NodeId) (after : Arena) (node : NodeId) : Prop where
  found : Relation.ReflTransGen before.Leads root node ∨ before.size ≤ node ∧ node < after.size
  once : before.MeetsOnce root → before.InRange root → after.MeetsOnce node

variable {arena : Arena} {vars : Variables} {id node : NodeId} {fault : Fault}

/-- Where nothing lies below itself, no walk stops over a cycle. -/
theorem ExprCause.not_cyclic (cause : arena.ExprCause vars id fault) :
    fault.rootCause ≠ .cyclicNesting node := by
  cases cause with
  | notExpr => exact nofun
  | read _ denied => cases denied <;> exact nofun

theorem StmtCause.not_cyclic (cause : arena.StmtCause vars id fault) :
    fault.rootCause ≠ .cyclicNesting node := by
  cases cause with
  | own _ cause => exact cause.not_cyclic
  | _ => exact nofun

end Arena

namespace Original

variable {o : Original} {arena : Arena} {walk after : Walk} {id node : NodeId}
  {left : Option NodeId}

theorem Reworked.reworks (reworked : o.Reworked arena) (acyclic : o.arena.Acyclic) :
    o.arena.Reworks o.root arena where
  grown := reworked.grown
  span := reworked.span
  form _ _ before := reworked.node before
  frame id inside apart := reworked.outside id fun below =>
    below.elim apart (Nat.not_le_of_lt inside)
  added id node beyond found := (reworked.added id node beyond found).imp_right
    fun ⟨expr, same, _⟩ => ⟨expr, same⟩
  below _ old _ leads := reworked.leads old leads
  acyclic := reworked.acyclic acyclic

theorem StmtFor.found (stands : o.StmtFor arena o.root node) :
    Relation.ReflTransGen o.arena.Leads o.root node ∨ o.arena.size ≤ node ∧ node < arena.size :=
  stands.imp Arena.Below.reached fun ⟨beyond, _, found⟩ => ⟨beyond, Arena.lt_size_of_stmt? found⟩

theorem ExprFor.found (stands : o.ExprFor arena o.root node) :
    Relation.ReflTransGen o.arena.Leads o.root node ∨ o.arena.size ≤ node ∧ node < arena.size := by
  obtain rfl | ⟨beyond, _, found⟩ := stands
  · exact .inl .refl
  · exact .inr ⟨beyond, Arena.lt_size_of_expr? found⟩

end Original

namespace Walk

variable {walk after : Walk} {id node : NodeId}

/-- A walk of a statement that ends well keeps a tree. -/
theorem meetsOnce_walkStmt (acyclic : walk.arena.Acyclic) (once : walk.arena.MeetsOnce id)
    (inside : walk.arena.InRange id) (walked : walkStmt id walk = .ok (some node) after) :
    after.arena.MeetsOnce node := by
  obtain ⟨code, shows_, nodup⟩ := once.exists_shows acyclic inside .stmt
  obtain ⟨newCode, reshaped, -⟩ := (reshapes_walkStmtWithin _ shows_ nodup).of_ok walked
  exact reshaped.shows_.here.meetsOnce reshaped.normal.isWhole reshaped.changes.nodup

theorem meetsOnce_walkExpr (acyclic : walk.arena.Acyclic) (once : walk.arena.MeetsOnce id)
    (inside : walk.arena.InRange id) (walked : walkExpr id walk = .ok node after) :
    after.arena.MeetsOnce node := by
  obtain ⟨code, shows_, nodup⟩ := once.exists_shows acyclic inside .expr
  obtain ⟨newCode, reshaped⟩ := (reshapes_walkExpr shows_ nodup).of_ok walked
  exact reshaped.shows_.meetsOnce reshaped.normal.isWhole reshaped.changes.nodup

/-- The frame of every walk in every session and at every scope, over every arena in which nothing
lies below itself, whether the walk ends well or fails: the arena only grows, and keeps its nodes
but for what is below them; what was not below the root is untouched; what was added is a literal or
an expression statement; what stands below an old node was below it, or was added; and again nothing
lies below itself. -/
theorem walks_keep_frame (vars : Variables) (options : Options) (ops : List Session.Op) {scope : Scope}
    (held : scope ∈ ((Session.start vars options).run ops).scopes) {arena : Arena} (acyclic : arena.Acyclic) (id : NodeId) :
    Ends (walkStmt id) ⟨⟨scope, ((Session.start vars options).run ops).state⟩, arena⟩
      (fun left after => arena.Reworks id after.arena ∧ ∀ node ∈ left, arena.AnsweredBy id after.arena node)
      (fun fault after => arena.Reworks id after.arena ∧ ∀ node, fault.rootCause ≠ .cyclicNesting node) ∧
    Ends (walkExpr id) ⟨⟨scope, ((Session.start vars options).run ops).state⟩, arena⟩
      (fun node after => arena.Reworks id after.arena ∧ arena.AnsweredBy id after.arena node)
      (fun fault after => arena.Reworks id after.arena ∧ ∀ node, fault.rootCause ≠ .cyclicNesting node) := by
  have session := (Session.sound_start vars options).run ops
  let o : Original := ⟨arena, id, ((Session.start vars options).run ops).state.vars⟩
  have stands : o.Stands ⟨⟨scope, ((Session.start vars options).run ops).state⟩, arena⟩ :=
    ⟨⟨session.state, session.scopes scope held⟩, .refl _, .refl o⟩
  constructor
  · refine ((Original.attempts_walkStmt acyclic stands (.inl .refl)).and (ends_reached _ _)).mono ?_ ?_
    · rintro left after ⟨⟨goes, answers⟩, walked⟩
      refine ⟨goes.stands.arena.reworks acyclic, ?_⟩
      rintro node ⟨⟩
      exact ⟨(answers node rfl).1.found, fun once inside => meetsOnce_walkStmt acyclic once inside walked⟩
    · rintro fault after ⟨⟨goes, stmt, cause, rfl, -, told, -⟩, -⟩
      exact ⟨goes.stands.arena.reworks acyclic, fun node => told.not_cyclic⟩
  · refine ((Original.attempts_walkExpr stands (.inl .refl) acyclic).and (ends_reached _ _)).mono ?_ ?_
    · rintro node after ⟨⟨goes, stands, -⟩, walked⟩
      exact ⟨goes.stands.arena.reworks acyclic, stands.found, fun once inside => meetsOnce_walkExpr acyclic once inside walked⟩
    · rintro fault after ⟨⟨goes, -, other, -, cause⟩, -⟩
      exact ⟨goes.stands.arena.reworks acyclic, fun node => cause.not_cyclic⟩

/-- A session with one parameter and one scope. -/
def oneParameter : Session := (Session.start ⟨#[⟨"x", .parameter, false, .entry⟩]⟩ {}).run [.openScope "main"]

theorem oneParameter_scope_mem : oneParameter.scopes.headD (.fresh "main") ∈ oneParameter.scopes :=
  Session.headD_mem_scopes (.fresh "main") (by decide +kernel)

/-- A conditional that is left without arms, in front of a loop that is left without its continue:
`if x { None }; loop { if x { break }; continue }`. -/
def sheddingRow : Arena :=
  ⟨#[⟨.expr (.read 0 none), ⟨0, 1⟩⟩, ⟨.expr (.builtin "None"), ⟨1, 2⟩⟩, ⟨.stmt (.effect 1), ⟨2, 3⟩⟩,
    ⟨.stmt (.branch 0 (some 2) none), ⟨3, 4⟩⟩, ⟨.expr (.read 0 none), ⟨4, 5⟩⟩, ⟨.stmt .brk, ⟨5, 6⟩⟩,
    ⟨.stmt (.branch 4 (some 5) none), ⟨6, 7⟩⟩, ⟨.stmt .cont, ⟨7, 8⟩⟩, ⟨.stmt (.block [6, 7]), ⟨8, 9⟩⟩,
    ⟨.stmt (.loop (some 8)), ⟨9, 10⟩⟩, ⟨.stmt (.block [3, 9]), ⟨10, 11⟩⟩]⟩

theorem sheddingRow_meetsOnce : sheddingRow.MeetsOnce 10 := by
  have shows_ : sheddingRow.Shows (.one .stmt 10)
      (.block 10 (.cons (.branch 3 (.read 0 0 none) (.effect 2 (.builtin 1 "None")) .nil)
      (.cons (.loop 9
        (.block 8 (.cons (.branch 6 (.read 4 0 none) (.brk 5) .nil) (.cons (.cont 7) .nil))))
        .nil))) :=
    .block rfl (.cons (.branch rfl (.read rfl) (.present (.effect rfl (.builtin rfl))) .absent)
      (.cons (.loop rfl
          (.present (.block rfl
              (.cons (.branch rfl (.read rfl) (.present (.brk rfl)) .absent)
                (.cons (.cont rfl) .nil))))) .nil))
  exact shows_.meetsOnce rfl (by decide)

/-- The conditional gives way to a statement that is added, and nothing is met twice. -/
theorem sheddingRow_kept : ∃ after, walkStmt 10 ⟨⟨oneParameter.scopes.headD (.fresh "main"), oneParameter.state⟩, sheddingRow⟩ =
    .ok (some 10) after ∧ after.arena.block? 10 = some [12, 9] ∧ after.arena.block? 8 = some [6] ∧
      sheddingRow.Reworks 10 after.arena ∧ sheddingRow.AnsweredBy 10 after.arena 10 ∧ after.arena.MeetsOnce 10 := by
  have ends : endsWith (walkStmt 10) ⟨⟨oneParameter.scopes.headD (.fresh "main"), oneParameter.state⟩, sheddingRow⟩ (fun left after =>
      left == some 10 && after.arena.block? 10 == some [12, 9] && after.arena.block? 8 == some [6]) = true := by
    decide +kernel
  obtain ⟨left, after, walked, told⟩ := exists_of_endsWith ends
  simp only [Bool.and_eq_true, beq_iff_eq] at told
  obtain ⟨⟨rfl, row⟩, body⟩ := told
  have descends : ∀ id < sheddingRow.size, ∀ node ∈ sheddingRow.node? id, ∀ place ∈ node.below, place.2 < id := by decide
  obtain ⟨reworks, answered⟩ :=
    (walks_keep_frame _ _ _ oneParameter_scope_mem (Arena.acyclic_of_descends descends) 10).1.of_ok walked
  have tree := (answered 10 rfl).once sheddingRow_meetsOnce (Arena.inRange_of_descends descends (by decide))
  exact ⟨after, walked, row, body, reworks, answered 10 rfl, tree⟩

/-- A conditional without arms, in front of an id past the end: `if x {}; _`. -/
def danglingRow : Arena :=
  ⟨#[⟨.expr (.read 0 none), ⟨0, 1⟩⟩, ⟨.stmt (.branch 0 none none), ⟨1, 2⟩⟩, ⟨.stmt (.block [1, 3]), ⟨2, 3⟩⟩]⟩

/-- The statement that is added in place of the conditional is the one to which the id past the end
points from then on. -/
theorem danglingRow_met_twice : oneParameter.scopes.headD (.fresh "main") ∈ oneParameter.scopes ∧
    danglingRow.Acyclic ∧ danglingRow.MeetsOnce 2 ∧
    ∃ after, walkStmt 2 ⟨⟨oneParameter.scopes.headD (.fresh "main"), oneParameter.state⟩, danglingRow⟩ = .ok (some 2) after ∧
      after.arena.block? 2 = some [3, 3] ∧ ¬ after.arena.MeetsOnce 2 := by
  have ends : endsWith (walkStmt 2) ⟨⟨oneParameter.scopes.headD (.fresh "main"), oneParameter.state⟩, danglingRow⟩ (fun left after =>
      left == some 2 && after.arena.block? 2 == some [3, 3] && after.arena.met 1 2 == [2, 3, 3]) = true := by
    decide +kernel
  obtain ⟨left, after, walked, told⟩ := exists_of_endsWith ends
  simp only [Bool.and_eq_true, beq_iff_eq] at told
  obtain ⟨⟨rfl, row⟩, met⟩ := told
  refine ⟨oneParameter_scope_mem, Arena.acyclic_of_descends_inside (by decide), fun depth => ?_, after, walked, row, fun once => ?_⟩
  · match depth with
    | 0 | 1 | 2 => decide
    | rest + 3 =>
      change [2, 1, 0, 3].Nodup
      decide
  · have twice := once 1
    rw [met] at twice
    revert twice
    decide

end Walk

end ValueFlow
