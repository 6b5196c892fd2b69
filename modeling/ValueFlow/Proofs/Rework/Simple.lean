import ValueFlow.Proofs.Rework.Expression
import ValueFlow.Proofs.WellFormed.Walk

/-!
# Why the walk of a statement stops

A walk stops at one statement. Either this is none, or one of its own expressions cannot be walked,
or it is a loop whose body is no block or writes a variable that is not registered, or it names such
a variable itself, or it leaves a loop that is not open (`Arena.StmtCause`). Above that statement
the fault is passed on as it is (`Original.Blames`).

Here this is shown of the statements without statements below them.
-/

namespace ValueFlow
set_option autoImplicit false

/-- A fault without a mark is marked with the statement around it. -/
theorem Fault.within_of_bare {fault : Fault} (bare : fault.span? = none) (span : Span) :
    fault.within span = .atStatement span fault := by
  cases fault with
  | atStatement => cases bare
  | _ => rfl

namespace Arena

/-- The other node is one of the own expressions of a statement. -/
def OwnExpr (arena : Arena) (id other : NodeId) : Prop :=
  ∃ stmt operand, arena.stmt? id = some stmt ∧ operand ∈ stmt.operands ∧ Relation.ReflTransGen arena.Operand operand other

/-- The walk of a statement stops at the statement itself. -/
inductive StmtCause (arena : Arena) (vars : Variables) (id : NodeId) : Fault → Prop
  | notStmt (absent : arena.stmt? id = none) : arena.StmtCause vars id (.wrongShape id "a statement")
  | own {other : NodeId} {fault : Fault} (own : arena.OwnExpr id other) (cause : arena.ExprCause vars other fault) : arena.StmtCause vars id fault
  | target {stmt : Stmt} {var : VarId} (found : arena.stmt? id = some stmt) (names : var ∈ (Node.stmt stmt).named)
      (absent : vars.get? var = none) : arena.StmtCause vars id (.unregistered var)
  | notBlock {body : NodeId} (found : arena.stmt? id = some (.loop (some body))) (other : arena.block? body = none) :
      arena.StmtCause vars id (.wrongShape body "a statement sequence")
  | written {body : NodeId} {var : VarId} (found : arena.stmt? id = some (.loop (some body))) (writes : var ∈ arena.variablesWritten body)
      (absent : vars.get? var = none) : arena.StmtCause vars id (.unregistered var)
  | brk (found : arena.stmt? id = some .brk) : arena.StmtCause vars id (.strayExit .brk)
  | cont (found : arena.stmt? id = some .cont) : arena.StmtCause vars id (.strayExit .cont)

/-- The cause is not marked with a statement yet. -/
theorem StmtCause.bare {arena : Arena} {vars : Variables} {id : NodeId} {fault : Fault}
    (cause : arena.StmtCause vars id fault) :
    fault.span? = none := by
  cases cause with
  | own _ cause =>
    cases cause with
    | notExpr => rfl
    | read _ denied => cases denied <;> rfl
  | _ => rfl

end Arena

namespace Original

variable {o : Original} {walk : Walk} {id child operand : NodeId} {var : VarId} {depth : Nat}
  {fault : Fault} {arena last newer : Arena} {former now : Stmt}

/-- The walk stopped at a statement below this one. Its own rewrite raised the cause, and the fault
is marked with its span, once. -/
def Blames (o : Original) (last : Arena) (id : NodeId) (fault : Fault) : Prop :=
  ∃ stmt cause, fault = .atStatement (last.span stmt) cause ∧ o.arena.Below id stmt ∧ o.arena.StmtCause o.vars stmt cause ∧
    ∃ depth before after, Walk.rewriteStmt (Walk.walkStmtWithin depth) stmt before = .error cause after ∧ after.arena = last

/-- The walk stopped at the statement or below it. -/
def Stops (o : Original) (id : NodeId) (fault : Fault) (last : Arena) : Prop := o.Blames last id fault ∨ o.arena.StmtCause o.vars id fault

/-- What is left may stand in the place of the statement, and a block is left as the block that it
was. -/
def LeftFor (o : Original) (id : NodeId) (left : Option NodeId) (arena : Arena) : Prop :=
  ∀ node ∈ left, o.StmtFor arena id node ∧ ∀ stmts, o.arena.block? id = some stmts → node = id

theorem Blames.below (blames : o.Blames last child fault) (below : o.arena.Below id child) :
    o.Blames last id fault := by
  obtain ⟨stmt, cause, same, further, rest⟩ := blames
  exact ⟨stmt, cause, same, below.trans further, rest⟩

/-- A statement may stand in its own place. -/
theorem leftFor_self (o : Original) (id : NodeId) (arena : Arena) :
    o.LeftFor id (some id) arena := by
  rintro node ⟨⟩
  exact ⟨.inl .root, fun _ _ => rfl⟩

theorem Reworked.absent_stmt (reworked : o.Reworked arena) (absent : arena.stmt? id = none) :
    o.arena.stmt? id = none := by
  cases before : o.arena.stmt? id with
  | none => rfl
  | some former =>
    obtain ⟨now, found, -⟩ := reworked.stmt id former before
    rw [absent] at found
    cases found

/-- A statement of the original arena that has been rewritten so far, where a walk stands. -/
structure Rewriting (o : Original) (id : NodeId) (former now : Stmt) (walk : Walk) : Prop where
  stands : o.Stands walk
  inside : o.Inside id
  before : o.arena.stmt? id = some former
  recasts : o.Recasts walk.arena former now

namespace Rewriting

variable (rewriting : o.Rewriting id former now walk)

include rewriting

theorem goes {after : Walk} (goes : o.Goes walk after) : o.Rewriting id former now after :=
  ⟨goes.stands, rewriting.inside, rewriting.before, rewriting.recasts.later goes.becomes⟩

/-- What stands for an operand of the statement is walked. -/
theorem walkExpr (acyclic : o.arena.Acyclic)
    (fits : o.ExprForOne walk.arena former.operands operand) :
    o.Attempts (Walk.walkExpr operand) walk
      (fun other arena _ => o.ExprForOne arena former.operands other ∧ o.Inside other ∧
        arena.Settled o.vars.Knows other)
      fun fault last => o.Stops id fault last := by
  obtain ⟨old, mem, fits⟩ := fits
  have inside := rewriting.inside.tail (Arena.leads_of_operand rewriting.before mem)
  refine (attempts_walkExpr rewriting.stands (fits.inside inside) acyclic).mono ?_ ?_
  · intro other after goes told
    have late := fits.trans goes.becomes told.1
    exact ⟨⟨old, mem, late⟩, late.inside inside, told.2⟩
  · rintro fault - - ⟨unsettled, node, reached, cause⟩
    obtain rfl | ⟨-, value, literal⟩ := fits
    · exact .inr (.own ⟨former, operand, rewriting.before, mem, reached⟩ cause)
    · exact absurd (Arena.settled_literal literal) unsettled

/-- The variable that the statement names may not be registered. -/
theorem misses (names : var ∈ (Node.stmt now).named) (misses : o.Misses [var] fault) :
    o.Stops id fault last := by
  obtain ⟨other, mem, rfl, absent⟩ := misses
  obtain rfl := List.mem_singleton.1 mem
  exact .inr (.target rewriting.before (Stmt.named_of_form rewriting.recasts.form ▸ names) absent)

omit rewriting

theorem rewriteAssign {target : VarId} {value : NodeId} {note : Option Version}
    (rewriting : o.Rewriting id former (.assign target value note) walk)
    (acyclic : o.arena.Acyclic) :
    o.Attempts (Walk.rewriteAssign id target value) walk
      (fun answer arena _ => o.LeftFor id answer.node arena) (o.Stops id) := by
  refine .bind
    (rewriting.walkExpr acyclic (rewriting.recasts.operands value (List.mem_singleton_self value)))
    fun newValue _ first held => ?_
  have assigned := Attempts.lift_refuses first.stands (fun _ _ => True)
    ((Site.ends_assign_onward first.stands.sound target id).mono
      (fun _ _ onward => ⟨onward, trivial⟩) fun _ _ refuses => refuses)
  refine .bind (assigned.blame fun _ _ => rewriting.misses rfl) fun version _ second _ => ?_
  refine .bind (.editOld second.stands rewriting.inside rewriting.before (fun _ => ⟨_, rfl⟩)
    fun _ recasts => ?_) fun _ _ third _ => .pure third.stands (o.leftFor_self id _)
  exact recasts.withBound (held.1.later second.becomes) version

theorem rewriteDelete {target : VarId} {tolerant : Bool} {note : Option Version}
    (rewriting : o.Rewriting id former (.delete target tolerant note) walk) :
    o.Attempts (Walk.rewriteDelete id target tolerant) walk
      (fun answer arena _ => o.LeftFor id answer.node arena) (o.Stops id) := by
  have deleted := Attempts.lift_refuses rewriting.stands
    (fun prior traces => ∃ answer, traces.isSurelyUnbound prior = .ok answer)
    (Site.ends_delete_onward rewriting.stands.sound target)
  refine .bind (deleted.blame fun _ _ => rewriting.misses rfl) fun prior middle first told => ?_
  have asked : o.Attempts (Walk.isIdleDelete tolerant prior) middle (fun _ _ _ => True)
      (o.Stops id) := by
    unfold Walk.isIdleDelete
    cases tolerant with
    | false => exact .pure first.stands trivial
    | true =>
      obtain ⟨-, answer, told⟩ := told
      rw [if_pos rfl]
      refine .get_bind ?_
      rw [told]
      exact .pure first.stands trivial
  refine .bind asked fun idle _ second _ => ?_
  cases idle with
  | true => exact .pure second.stands nofun
  | false =>
    refine .scopeHere_bind
      (.bind (.editOld second.stands rewriting.inside rewriting.before (fun _ => ⟨_, rfl⟩)
          fun _ recasts => ?_) fun _ _ third _ => .pure third.stands (o.leftFor_self id _))
    exact recasts.withDeleted _

theorem rewriteRelease {target : VarId} (rewriting : o.Rewriting id former (.release target) walk) :
    o.Attempts (Walk.rewriteRelease id target) walk
      (fun answer arena _ => o.LeftFor id answer.node arena) (o.Stops id) := by
  have looked : o.Attempts (liftM (Site.release target)) walk (fun _ _ _ => True) (o.Stops id) :=
    (Attempts.lift_looks rewriting.stands (Site.ends_release rewriting.stands.sound target)).mono
      (fun _ _ _ _ => trivial) fun _ _ _ => rewriting.misses rfl
  have noted : o.Attempts (discard <| liftM (Site.release target)) walk (fun _ _ _ => True)
      (o.Stops id) := ends_discard.2 looked
  exact .bind noted fun _ _ goes _ => .pure goes.stands (o.leftFor_self id _)

/-- An early exit fails where its registry is not open. -/
theorem rewriteExit {kind : ExitKind} (rewriting : o.Rewriting id former now walk)
    (stray : kind ≠ .ret → o.arena.StmtCause o.vars id (.strayExit kind)) :
    o.Attempts (Walk.rewriteExit id kind) walk
      (fun answer arena _ => o.LeftFor id answer.node arena) (o.Stops id) := by
  have taken := Attempts.lift rewriting.stands (fun _ _ => True) (o.arena.StmtCause o.vars id)
    ((Site.ends_exit_onward rewriting.stands.sound kind).mono
      (fun _ _ onward => ⟨onward, trivial⟩) ?_)
  · have stays {after : Walk} (goes : o.Goes walk after) :
        o.Attempts (Pure.pure (Walk.stay id)) after
          (fun answer arena _ => o.LeftFor id answer.node arena) (o.Stops id) :=
      .pure goes.stands (o.leftFor_self id _)
    exact (taken.blame fun _ _ cause => .inr cause).bind fun _ _ goes _ => stays goes
  · rintro _ _ ⟨rfl, rfl, early, -⟩
    exact ⟨.refl rewriting.stands.sound, stray early⟩

theorem rewriteReturn {value : Option NodeId}
    (rewriting : o.Rewriting id former (.ret value) walk) (acyclic : o.arena.Acyclic) :
    o.Attempts (do
      Walk.rewriteResult id value
      Walk.rewriteExit id .ret) walk (fun answer arena _ => o.LeftFor id answer.node arena)
        (o.Stops id) := by
  have evaluated : o.Attempts (Walk.rewriteResult id value) walk (fun _ _ _ => True)
      (o.Stops id) := by
    cases value with
    | none => exact .pure rewriting.stands trivial
    | some value =>
      refine .bind
        (rewriting.walkExpr acyclic
          (rewriting.recasts.operands value (List.mem_singleton_self value)))
        fun newValue _ first held => ?_
      exact (Attempts.editOld first.stands rewriting.inside rewriting.before (fun _ => ⟨_, rfl⟩)
        fun _ recasts => recasts.withResult held.1).mono (fun _ _ _ _ => trivial)
        fun _ _ _ fell => fell
  exact evaluated.bind fun _ _ goes _ => (rewriting.goes goes).rewriteExit fun early =>
    absurd rfl early

theorem rewriteEffect {expr : NodeId} (rewriting : o.Rewriting id former (.effect expr) walk)
    (acyclic : o.arena.Acyclic) :
    o.Attempts (Walk.rewriteEffect id expr) walk
      (fun answer arena _ => o.LeftFor id answer.node arena) (o.Stops id) := by
  refine .bind
    (rewriting.walkExpr acyclic (rewriting.recasts.operands expr (List.mem_singleton_self expr)))
    fun newExpr _ first held => .arenaHere_bind ?_
  split
  · exact .pure first.stands nofun
  · refine .bind
      (.editOld first.stands rewriting.inside rewriting.before (fun _ => ⟨_, rfl⟩) fun _ recasts =>
        recasts.withEffect held.1) fun _ _ second _ => .pure second.stands (o.leftFor_self id _)

end Rewriting

/-- An expression statement that was added holds a settled expression, so its walk does not fail. -/
theorem attempts_addedEffect {expr : NodeId} (stands : o.Stands walk) (acyclic : o.arena.Acyclic)
    (added : o.arena.size ≤ id) (inside : o.Inside expr)
    (settled : walk.arena.Settled o.vars.Knows expr) {ill : Fault → Arena → Prop} :
    o.Attempts (Walk.rewriteEffect id expr) walk
      (fun answer arena _ => o.LeftFor id answer.node arena) ill := by
  have walked := attempts_walkExpr stands inside acyclic
  refine .bind (walked.blame fun _ _ fell => absurd settled fell.1) fun newExpr middle first held =>
    .arenaHere_bind ?_
  split
  · exact .pure first.stands nofun
  · refine .bind (.editStmt first.stands (.inr added) (fun _ => ⟨_, rfl⟩) ?_ fun now _ found => ?_)
      fun _ _ second _ => .pure second.stands (o.leftFor_self id _)
    · exact fun former _ before => absurd added (Arena.not_beyond_of_stmt? before)
    · obtain ⟨former, before, -⟩ | ⟨_, rfl, -⟩ := first.stands.arena.stmt_cases found
      · exact absurd added (Arena.not_beyond_of_stmt? before)
      · exact .inr ⟨newExpr, rfl, held.1.inside inside, held.2⟩

end Original

end ValueFlow
