import ValueFlow.Proofs.Account.Rewrote
import ValueFlow.Proofs.Escape.Active
import ValueFlow.Proofs.Integrity.Session

/-!
# What is known behind a call

The walk of a call, or of an evaluation, ends in an escape: its operands are walked before, and
nothing is looked at after. So behind it a variable that code elsewhere may rebind is unknown if the
walk has come across it in this scope. A variable that the scope has never looked at keeps what its
storage class tells of it on entry, and that a closure may have bound a captured slot meanwhile is
not seen (`escape_covers_active`, `unseenCell_kept`).
-/

namespace ValueFlow
set_option autoImplicit false

/-- The expression under an id is a call or an evaluation. -/
def Arena.RunsAt (arena : Arena) (id : NodeId) : Prop := ∃ expr, arena.expr? id = some expr ∧ expr.runsCode = true

namespace Arena.RunsAt

variable {arena : Arena} {id : NodeId}

theorem mapExpr (runs : arena.RunsAt id) (other : NodeId) {edit : Expr → Expr}
    (keeps : ∀ expr, (edit expr).runsCode = expr.runsCode) :
    (arena.mapExpr other edit).RunsAt id := by
  obtain ⟨expr, found, code⟩ := runs
  by_cases same : id = other
  · subst same
    exact ⟨edit expr, expr?_mapExpr_self found edit, (keeps expr).trans code⟩
  · exact ⟨expr, by rw [expr?_mapExpr, if_neg same, found], code⟩

theorem push (runs : arena.RunsAt id) (node : Node) (span : Span) :
    (arena.push node span).RunsAt id := by
  obtain ⟨expr, found, code⟩ := runs
  have old : id ≠ arena.size := Nat.ne_of_lt (lt_size_of_expr? found)
  exact ⟨expr, by rw [expr?_push, if_neg old, found], code⟩

end Arena.RunsAt

@[simp] theorem Expr.runsCode_withSeen (version : Version) (expr : Expr) :
    (expr.withSeen version).runsCode = expr.runsCode := by
  cases expr <;> rfl

@[simp] theorem Expr.runsCode_withCall (callee : NodeId) (args : List NodeId) (expr : Expr) :
    (expr.withCall callee args).runsCode = expr.runsCode := by
  cases expr <;> rfl

@[simp] theorem Expr.runsCode_withSource (source : NodeId) (expr : Expr) :
    (expr.withSource source).runsCode = expr.runsCode := by
  cases expr <;> rfl

namespace Walk

/-- A part of a walk, if it ends well, leaves calls and evaluations what they are. -/
def KeepsCalls {α : Type} (act : WalkM α) : Prop :=
  ∀ walk, Gives act walk fun _ after => ∀ id, walk.arena.RunsAt id → after.arena.RunsAt id

namespace KeepsCalls

variable {α β : Type} {act : WalkM α}

theorem pure (value : α) : KeepsCalls (Pure.pure value : WalkM α) :=
  fun _ => .pure fun _ runs => runs

theorem throw (fault : Fault) : KeepsCalls (MonadExcept.throw fault : WalkM α) := fun _ => .throw

theorem bind {next : α → WalkM β} (first : KeepsCalls act)
    (rest : ∀ value, KeepsCalls (next value)) : KeepsCalls (act >>= next) :=
  fun walk => (first walk).bind fun value middle early => (rest value middle).mono
    fun _ _ late id runs => late id (early id runs)

theorem get_bind {next : Walk → WalkM β} (rest : ∀ walk, KeepsCalls (next walk)) :
    KeepsCalls (get >>= next) :=
  fun walk => ends_bind.2 (ends_get.2 (rest walk walk))

theorem arenaHere_bind {next : Arena → WalkM β} (rest : ∀ arena, KeepsCalls (next arena)) :
    KeepsCalls (arenaHere >>= next) :=
  fun walk => rest walk.arena walk

/-- An operation on the site leaves the arena alone. -/
theorem lift (act : SiteM α) : KeepsCalls (liftM act : WalkM α) :=
  fun walk => ends_liftSite.2
    ((ends_reached act walk.toSite).mono (fun _ _ _ _ runs => runs) fun _ _ _ => trivial)

theorem edit {change : Walk → Arena}
    (keeps : ∀ walk id, walk.arena.RunsAt id → (change walk).RunsAt id) :
    KeepsCalls (modify fun walk => { walk with arena := change walk } : WalkM Unit) :=
  fun walk => ends_modify.2 (keeps walk)

theorem editExpr (id : NodeId) {edit : Expr → Expr}
    (keeps : ∀ expr, (edit expr).runsCode = expr.runsCode) :
    KeepsCalls (Walk.editExpr id edit) :=
  .edit fun _ _ runs => runs.mapExpr id keeps

theorem pushLike (old : NodeId) (node : Node) : KeepsCalls (Walk.pushLike old node) :=
  fun _ => gives_pushLike_bind.2 fun _ runs => runs.push _ _

theorem signal (id : NodeId) (edit : Option Edit) : KeepsCalls (Walk.signal id edit) := by
  cases edit with
  | none => exact .pure _
  | some edit =>
    exact .arenaHere_bind fun arena => .lift (liftM (Analysis.signal edit (arena.span id)))

theorem mapM {f : α → WalkM β} (each : ∀ value, KeepsCalls (f value)) (list : List α) :
    KeepsCalls (list.mapM f) := by
  induction list with
  | nil => exact .pure _
  | cons head tail ih =>
    rw [List.mapM_cons]
    exact .bind (each head) fun _ => .bind ih fun _ => .pure _

end KeepsCalls

theorem keepsCalls_countRead (id : NodeId) : KeepsCalls (countRead id) := by
  refine .arenaHere_bind fun arena => ?_
  split
  · refine .bind (.lift _) fun _ => .bind (.get_bind fun _ => .pure _) fun other => ?_
    split
    · exact .lift _
    · exact .pure _
  · exact .pure _

theorem keepsCalls_rewriteExpr {visit : NodeId → WalkM NodeId}
    (visits : ∀ id, KeepsCalls (visit id)) (id : NodeId) :
    KeepsCalls (rewriteExpr visit id) := by
  refine .arenaHere_bind fun arena => ?_
  split
  · exact .throw _
  · exact .pure _
  · exact .bind (.lift _) fun version => .bind (.editExpr id (Expr.runsCode_withSeen version))
      fun _ => .pure _
  · refine .get_bind fun walk => ?_
    split
    · exact .pure _
    · exact .bind (.pushLike id _) fun _ => .pure _
  · refine .bind (visits _) fun callee => .bind (.mapM visits _) fun args => ?_
    exact .bind (.editExpr id (Expr.runsCode_withCall callee args)) fun _ => .bind (.lift _)
      fun _ => .pure _
  · refine .bind (visits _) fun source =>
      .bind (.editExpr id (Expr.runsCode_withSource source)) fun _ => ?_
    exact .bind (.lift (liftM Analysis.assumeDynamicNames)) fun _ => .bind (.lift _)
      fun _ => .pure _

theorem keepsCalls_walkExprWithin (depth : Nat) (id : NodeId) :
    KeepsCalls (walkExprWithin depth id) := by
  induction depth generalizing id with
  | zero => exact .throw _
  | succ depth ih =>
    refine .bind (keepsCalls_rewriteExpr ih id) fun answer => ?_
    exact .bind (.signal id _) fun _ => .bind (keepsCalls_countRead _) fun _ => .pure _

/-- The walk of a call or of an evaluation has ended in an escape. -/
structure CodeRun (before : Walk) (id : NodeId) (after : Walk) : Prop where
  runs : after.arena.RunsAt id
  escaping : ∃ ahead : Site, before.analysis.Grows ahead.analysis ∧ ahead.Escaping [] after.toSite

/-- The operands of a call are walked soundly, and the call stays one. -/
theorem gives_operands {α : Type} {act : WalkM α} {given : α → Prop}
    (yields : integrity.Yields integrity.ofWalk act given) (keeps : KeepsCalls act) {site : Site}
    (sound : site.Sound) {arena : Arena} {id : NodeId} (runs : arena.RunsAt id) :
    Gives act ⟨site, arena⟩ fun _ after => after.toSite.Sound ∧ site.analysis.Grows after.analysis ∧
      after.arena.RunsAt id := by
  have holds :=
    yields ⟨site, arena⟩ ⟨⟨sound.analysis, sound.scope⟩, Region.everything_encloses arena⟩
  refine (holds.gives.and (keeps _)).mono fun _ _ told => ?_
  exact ⟨⟨told.1.1.good.1, told.1.1.good.2⟩, told.1.1.grows, told.2 id runs⟩

/-- Behind the operands there is only the escape. -/
theorem gives_escapeAll_last {site : Site} (sound : site.Sound) {arena : Arena} {id : NodeId}
    (runs : arena.RunsAt id) {before : Walk} (grows : before.analysis.Grows site.analysis) :
    Gives ((liftM Site.escapeAll : WalkM Unit) >>= fun _ =>
      (pure (Rewritten.unchanged id) : WalkM (Rewritten NodeId))) ⟨site, arena⟩
      fun answer after => answer = .unchanged id ∧ before.CodeRun id after := by
  refine Gives.bind (gives_lift (Site.ends_escapeAll sound).gives) ?_
  rintro _ after ⟨escaping, same⟩
  exact .pure ⟨rfl, same ▸ runs, site, grows, escaping⟩

theorem gives_rewriteExpr_code (depth : Nat) {walk : Walk} {id : NodeId}
    (sound : walk.toSite.Sound) (runs : walk.arena.RunsAt id) :
    Gives (rewriteExpr (walkExprWithin depth) id) walk fun answer after => answer = .unchanged id ∧
      walk.CodeRun id after := by
  have visits (id : NodeId) : integrity.Obeys integrity.ofWalk (walkExprWithin depth id) :=
    Discipline.yields_walkExprWithin integrity_law depth trivial
  obtain ⟨expr, found, code⟩ := runs
  unfold rewriteExpr
  rw [gives_arenaHere_bind, found]
  cases expr with
  | literal value | read var version | builtin name => cases code
  | call callee args =>
    have runs : walk.arena.RunsAt id := ⟨_, found, rfl⟩
    have first := gives_operands (visits callee) (keepsCalls_walkExprWithin depth callee) sound runs
    refine first.bind ?_
    rintro newCallee first ⟨soundFirst, grows, runsFirst⟩
    refine (gives_operands (.mapM integrity_law fun id _ => visits id)
      (.mapM (keepsCalls_walkExprWithin depth) args) soundFirst runsFirst).bind ?_
    rintro newArgs second ⟨soundSecond, more, runsSecond⟩
    rw [gives_editExpr_bind]
    exact gives_escapeAll_last soundSecond
      (runsSecond.mapExpr id (Expr.runsCode_withCall newCallee newArgs)) (grows.trans more)
  | eval source =>
    have runs : walk.arena.RunsAt id := ⟨_, found, rfl⟩
    have first := gives_operands (visits source) (keepsCalls_walkExprWithin depth source) sound runs
    refine first.bind ?_
    rintro newSource first ⟨soundFirst, grows, runsFirst⟩
    rw [gives_editExpr_bind]
    refine (gives_operands (Discipline.obeys_assumeDynamicNames integrity_law)
      (.lift (liftM Analysis.assumeDynamicNames)) soundFirst
      (runsFirst.mapExpr id (Expr.runsCode_withSource newSource))).bind ?_
    rintro _ second ⟨soundSecond, more, runsSecond⟩
    exact gives_escapeAll_last soundSecond runsSecond (grows.trans more)

/-- A call is not counted as a read. -/
theorem gives_countRead_code {walk : Walk} {id : NodeId} (runs : walk.arena.RunsAt id)
    {last : Walk → Prop} (held : last walk) :
    Gives (countRead id) walk fun _ => last := by
  obtain ⟨expr, found, code⟩ := runs
  unfold countRead
  rw [gives_arenaHere_bind, found]
  cases expr with
  | literal value | read var version | builtin name => cases code
  | call callee args | eval source => exact held

/-- The walk of a call, or of an evaluation, ends in an escape. -/
theorem gives_walkExpr_code {walk : Walk} {id : NodeId} (sound : walk.toSite.Sound)
    (runs : walk.arena.RunsAt id) :
    Gives (walkExpr id) walk fun _ after => walk.CodeRun id after := by
  unfold walkExpr
  rw [gives_arenaHere_bind]
  refine (gives_rewriteExpr_code _ sound runs).bind ?_
  rintro _ after ⟨rfl, run⟩
  exact (gives_countRead_code run.runs run).bind fun _ _ run => run

/-- Behind a call a variable that may be rebound reports facts of its entry state only, and only if
the scope has not looked at it. -/
theorem CodeRun.reports {before after : Walk} {id : NodeId} (run : before.CodeRun id after)
    {var : VarId} {slot : Variable} (found : before.analysis.vars.get? var = some slot)
    (rebound : slot.mayBeRebound before.analysis.options = true) :
    after.toSite.Reports var
      (decide (var ∉ after.scope.active) && Traces.leavesBound (Analysis.entryOrigin slot.storage))
      (decide (var ∉ after.scope.active) &&
        Traces.leavesUnbound (Analysis.entryOrigin slot.storage)) := by
  obtain ⟨ahead, grows, escaping⟩ := run.escaping
  obtain ⟨last, -, registered⟩ := grows.vars.slot var slot found
  have reports := escaping.reports registered (by rw [grows.options]; exact rebound)
  unfold Site.escapedOrigin at reports
  by_cases active : var ∈ ahead.scope.active
  · have looked := (escaping.active var).2 active
    simpa [active, looked, Traces.leavesBound, Traces.leavesUnbound] using reports
  · have free : var ∉ after.scope.active := fun looked => active ((escaping.active var).1 looked)
    simpa [active, free] using reports

/-- Where an escape reaches, in every session and at every scope: it succeeds, and a variable that
code elsewhere may rebind resolves to an unknown trace behind it exactly if the scope had looked at
it, or if nothing is known of its class on entry. All other variables keep their versions, and all
earlier traces stay as they are. Behind a call or an evaluation, a fact is reported of such a
variable only if the scope has not looked at it, and then the one that its class tells on entry. -/
theorem escape_covers_active (vars : Variables) (options : Options) (ops : List Session.Op) {scope : Scope}
    (held : scope ∈ ((Session.start vars options).run ops).scopes) :
    (∃ after, Site.escapeAll ⟨scope, ((Session.start vars options).run ops).state⟩ = .ok () after ∧
      Site.Escaped ⟨scope, ((Session.start vars options).run ops).state⟩ after) ∧
    ∀ arena id node after, arena.RunsAt id →
      walkExpr id ⟨⟨scope, ((Session.start vars options).run ops).state⟩, arena⟩ = .ok node after →
      ∀ var slot, ((Session.start vars options).run ops).state.vars.get? var = some slot →
        slot.mayBeRebound ((Session.start vars options).run ops).state.options = true →
        after.toSite.Reports var
          (decide (var ∉ after.scope.active) && Traces.leavesBound (Analysis.entryOrigin slot.storage))
          (decide (var ∉ after.scope.active) && Traces.leavesUnbound (Analysis.entryOrigin slot.storage)) := by
  have session := (Session.sound_start vars options).run ops
  have sound : Site.Sound ⟨scope, ((Session.start vars options).run ops).state⟩ := ⟨session.state, session.scopes scope held⟩
  constructor
  · obtain ⟨_, after, escaped, escaping⟩ := (Site.ends_escapeAll sound).exists_ok
    exact ⟨after, escaped, escaping.escaped⟩
  · intro arena id node after runs walked var slot found rebound
    have run : CodeRun ⟨⟨scope, _⟩, arena⟩ id after := (gives_walkExpr_code sound runs).of_ok walked
    exact run.reports found rebound

/-- A captured slot, in a scope that has looked at it. -/
def seenCell : Session :=
  (Session.start ⟨#[⟨"x", .localSlot, true, .entry⟩]⟩ {}).run [.openScope "main", .atScope 0 (.current 0)]

/-- A captured slot, in a scope that has not looked at it. -/
def unseenCell : Session := (Session.start ⟨#[⟨"x", .localSlot, true, .entry⟩]⟩ {}).run [.openScope "main"]

/-- A call without arguments. -/
def callNode : Arena := ⟨#[⟨.expr (.literal .none), ⟨0, 1⟩⟩, ⟨.expr (.call 0 []), ⟨1, 2⟩⟩]⟩

/-- The first scope of a session. -/
def firstSite (session : Session) : Site := ⟨session.scopes.headD (.fresh "main"), session.state⟩

theorem firstSite_mem {session : Session} (one : session.scopes.length = 1) :
    (firstSite session).scope ∈ session.scopes := by
  obtain ⟨scope, only⟩ := List.length_eq_one_iff.1 one
  unfold firstSite
  rw [only]
  exact List.mem_cons_self

theorem seenCell_forgotten : (∃ after, Site.escapeAll (firstSite seenCell) = .ok () after ∧ (firstSite seenCell).Escaped after) ∧
    ∃ node after, walkExpr 1 ⟨firstSite seenCell, callNode⟩ = .ok node after ∧ after.toSite.Reports 0 false false := by
  have held : (firstSite seenCell).scope ∈ seenCell.scopes := firstSite_mem (by decide +kernel)
  obtain ⟨escaped, calls⟩ := escape_covers_active _ _ _ held
  have walks : endsWith (walkExpr 1) ⟨firstSite seenCell, callNode⟩ (fun _ after => after.scope.active.contains 0) = true := by
    decide +kernel
  obtain ⟨node, after, walked, active⟩ := exists_of_endsWith walks
  have slot : seenCell.state.vars.get? 0 = some ⟨"x", .localSlot, true, .entry⟩ := by decide +kernel
  have reports := calls callNode 1 node after ⟨_, rfl, rfl⟩ walked 0 _ slot (by decide +kernel)
  exact ⟨escaped, node, after, walked, by simpa [Std.ExtTreeMap.contains_iff_mem.1 active] using reports⟩

/-- A captured slot that the scope has not looked at stays unbound across an escape, and across a
call. -/
theorem unseenCell_kept : (firstSite unseenCell).scope ∈ unseenCell.scopes ∧
    (unseenCell.state.vars.get? 0).any (·.mayBeRebound unseenCell.state.options) = true ∧
    (∃ after key trace later, Site.escapeAll (firstSite unseenCell) = .ok () after ∧
      Site.currentTrace 0 after = .ok (key, trace) later ∧ ∀ previous, trace.origin ≠ .unknown previous) ∧
    ∃ node after, walkExpr 1 ⟨firstSite unseenCell, callNode⟩ = .ok node after ∧ after.toSite.Reports 0 false true := by
  have escapes : endsWith Site.escapeAll (firstSite unseenCell) (fun _ after =>
      endsWith (Site.currentTrace 0) after fun answer _ => answer.2.origin == .unbound none) = true := by
    decide +kernel
  have walks : endsWith (walkExpr 1) ⟨firstSite unseenCell, callNode⟩ (fun _ after =>
      endsWith (Site.facts 0) after.toSite fun answer _ => answer == (false, true)) = true := by
    decide +kernel
  obtain ⟨_, after, escaped, resolves⟩ := exists_of_endsWith escapes
  obtain ⟨⟨key, trace⟩, later, resolved, origin⟩ := exists_of_endsWith resolves
  obtain ⟨node, behind, walked, reports⟩ := exists_of_endsWith walks
  obtain ⟨answer, last, told, same⟩ := exists_of_endsWith reports
  rw [beq_iff_eq] at origin same
  subst same
  refine ⟨firstSite_mem (by decide +kernel), by decide +kernel, ⟨after, key, trace, later, escaped, resolved, ?_⟩,
    node, behind, walked, last, told⟩
  intro previous unknown
  cases origin.symm.trans unknown

end Walk

end ValueFlow
