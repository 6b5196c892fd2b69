import ValueFlow.Proofs.Rework.Attempts

/-!
# Walks of expressions that may fail

The walk of an expression leaves a settled one in its place, or stops at something below it that is
no expression, or that reads a variable which is not registered (`VisitsExpr`). A settled expression
is walked without fault. The induction is on the number of levels that the walk may go down.
-/

namespace ValueFlow
set_option autoImplicit false

/-- A read of the variable fails: it is not registered, or the one that is read in its place is
not. -/
inductive Variables.Denies (vars : Variables) (var : VarId) : Fault → Prop
  | unregistered (absent : vars.get? var = none) : vars.Denies var (.unregistered var)
  | fallback {slot : Variable} {other : VarId} (found : vars.get? var = some slot) (names : slot.storage = .maybeLocal (some other))
      (absent : vars.get? other = none) : vars.Denies var (.unregistered other)

/-- The walk of an expression stops at this node. -/
inductive Arena.ExprCause (arena : Arena) (vars : Variables) (id : NodeId) : Fault → Prop
  | notExpr (absent : arena.expr? id = none) : arena.ExprCause vars id (.wrongShape id "an expression")
  | read {var : VarId} {note : Option Version} {fault : Fault} (found : arena.expr? id = some (.read var note))
      (denied : vars.Denies var fault) : arena.ExprCause vars id fault

theorem Variables.Denies.not_knows {vars : Variables} {var : VarId} {fault : Fault}
    (denied : vars.Denies var fault) : ¬ vars.Knows var := by
  rintro ⟨slot, found, fallback⟩
  cases denied with
  | unregistered absent =>
    rw [absent] at found
    cases found
  | fallback again names absent =>
    obtain rfl := Option.some.inj (found.symm.trans again)
    have registered := fallback _ (by rw [names]; rfl)
    rw [absent] at registered
    cases registered

namespace Original

variable {o : Original} {walk : Walk} {id operand : NodeId} {var : VarId} {depth : Nat}
  {fault : Fault} {former expr : Expr}

/-- The walk stops at something below the expression. -/
def BlamesExpr (o : Original) (id : NodeId) (fault : Fault) : Prop :=
  ∃ node, Relation.ReflTransGen o.arena.Operand id node ∧ o.arena.ExprCause o.vars node fault

theorem BlamesExpr.below (blames : o.BlamesExpr operand fault) (step : o.arena.Operand id operand) :
    o.BlamesExpr id fault := by
  obtain ⟨node, reached, cause⟩ := blames
  exact ⟨node, .head step reached, cause⟩

/-- The walk of an expression leaves a settled one, or stops at something below an expression that
was not settled. -/
def VisitsExpr (o : Original) (depth : Nat) (visit : NodeId → WalkM NodeId) : Prop :=
  ∀ walk id, o.Stands walk → o.Inside id → Arena.NestsWithin o.arena.Operand depth id →
    o.Attempts (visit id) walk (fun other arena _ => o.ExprFor arena id other ∧ arena.Settled o.vars.Knows other)
      fun fault _ => ¬ walk.arena.Settled o.vars.Knows id ∧ o.BlamesExpr id fault

/-- What the rewrite of an expression has left: a read that is not counted yet, or another node,
which is settled. -/
def Rewrote (o : Original) (before after : Arena) (id node : NodeId) : Prop :=
  (node = id ∧ ∃ var note, before.expr? id = some (.read var note) ∧ ∃ note, after.expr? id = some (.read var note)) ∨
    o.ExprFor after id node ∧ after.Settled o.vars.Knows node

theorem Reworked.read {arena : Arena} (reworked : o.Reworked arena) {note : Option Version}
    (found : arena.expr? id = some (.read var note)) :
    ∃ note, o.arena.expr? id = some (.read var note) := by
  obtain ⟨former, before, recasts⟩ | ⟨value, same, -⟩ := reworked.expr_cases found
  · cases former with
    | read other note =>
      obtain rfl := (Expr.read.inj recasts.form).1
      exact ⟨note, before⟩
    | _ => cases recasts.form
  · cases same

theorem Reworked.absent_expr {arena : Arena} (reworked : o.Reworked arena)
    (absent : arena.expr? id = none) : o.arena.expr? id = none := by
  cases before : o.arena.expr? id with
  | none => rfl
  | some former =>
    obtain ⟨now, found, -⟩ := reworked.expr id former before
    rw [absent] at found
    cases found

section Reads

variable (stands : o.Stands walk)

include stands

/-- A read that can be counted is one of a known variable. -/
theorem attempts_countRead (found : walk.arena.expr? id = some expr) :
    o.Attempts (Walk.countRead id) walk
      (fun _ arena _ => arena = walk.arena ∧ ∀ var ∈ (Node.expr expr).named, o.vars.Knows var)
      fun fault _ => ∃ var ∈ (Node.expr expr).named, o.vars.Denies var fault := by
  refine .arenaHere_bind ?_
  rw [found]
  cases expr with
  | read var note =>
    have counted := Attempts.lift_looks stands (Site.ends_read stands.sound var)
    refine .bind (counted.blame ?_) fun _ middle goes told => ?_
    · rintro _ _ ⟨other, mem, rfl, absent⟩
      obtain rfl := List.mem_singleton.1 mem
      exact ⟨other, rfl, .unregistered absent⟩
    · obtain ⟨same, registered⟩ := told
      obtain ⟨slot, known⟩ := Option.isSome_iff_exists.1 registered
      obtain ⟨last, -, again⟩ := goes.stands.vars.slot var slot known
      refine .fallback_bind ?_
      rw [again, Option.bind_some]
      cases named : slot.storage.fallback? with
      | none => exact .pure goes.stands ⟨same, by rintro _ ⟨⟩; exact ⟨slot, known, by simp [named]⟩⟩
      | some other =>
        refine (Attempts.lift_looks goes.stands (Site.ends_read goes.stands.sound other)).mono ?_ ?_
        · rintro _ _ - ⟨again, registered⟩
          refine ⟨again.trans same, ?_⟩
          rintro _ ⟨⟩
          exact ⟨slot, known, by simpa [named] using registered⟩
        · rintro _ _ - ⟨missing, mem, rfl, absent⟩
          obtain rfl := List.mem_singleton.1 mem
          refine ⟨var, rfl, .fallback known ?_ absent⟩
          cases storage : slot.storage <;> simp_all [Storage.fallback?]
  | literal => exact .pure stands ⟨rfl, nofun⟩
  | builtin => exact .pure stands ⟨rfl, nofun⟩
  | call => exact .pure stands ⟨rfl, nofun⟩
  | eval => exact .pure stands ⟨rfl, nofun⟩

theorem attempts_rewriteBuiltin {name : String}
    (found : walk.arena.expr? id = some (.builtin name)) {ill : Fault → Arena → Prop} :
    o.Attempts (Walk.rewriteBuiltin id name) walk
      (fun answer arena _ => o.Rewrote walk.arena arena id answer.node) ill := by
  have settled : walk.arena.Settled o.vars.Knows id := Arena.settled_of_operands found nofun nofun
  refine .get_bind ?_
  cases builtinValue? walk.analysis.options name with
  | none => exact .pure stands (.inr ⟨.inl rfl, settled⟩)
  | some value =>
    refine .bind (.pushLike stands (.inl ⟨value, rfl⟩)) fun other after goes told =>
      .pure goes.stands (.inr ?_)
    obtain ⟨rfl, literal⟩ := told
    have literal := Arena.expr?_eq_some.2 literal
    exact ⟨.inr ⟨stands.arena.grown, value, literal⟩, Arena.settled_literal literal⟩

end Reads

section Operands

variable {visit : NodeId → WalkM NodeId} (visits : o.VisitsExpr depth visit)
  (before : o.arena.expr? id = some former) (inside : o.Inside id)
  (nests : Arena.NestsWithin o.arena.Operand (depth + 1) id)

include visits before inside nests

/-- What stands for an operand is walked, and something that stands for it is left. -/
theorem VisitsExpr.below (stands : o.Stands walk)
    (fits : o.ExprForOne walk.arena former.operands operand) :
    o.Attempts (visit operand) walk
      (fun other arena _ => o.ExprForOne arena former.operands other ∧
        arena.Settled o.vars.Knows other)
      fun fault _ => ¬ walk.arena.Settled o.vars.Knows operand ∧ o.BlamesExpr id fault := by
  obtain ⟨old, mem, fits⟩ := fits
  have step : o.arena.Operand id old := ⟨former, before, mem⟩
  refine (visits walk operand stands (fits.inside (inside.tail step.leads))
    (fits.nests (nests old step))).mono ?_ ?_
  · exact fun other after goes told => ⟨⟨old, mem, fits.trans goes.becomes told.1⟩, told.2⟩
  · rintro fault - - ⟨unsettled, blames⟩
    obtain rfl | ⟨-, value, literal⟩ := fits
    · exact ⟨unsettled, blames.below step⟩
    · exact absurd (Arena.settled_literal literal) unsettled

theorem VisitsExpr.row (stands : o.Stands walk) (operands : List NodeId)
    (fits : ∀ operand ∈ operands, o.ExprForOne walk.arena former.operands operand) :
    o.Attempts (operands.mapM visit) walk
      (fun others arena _ => ∀ other ∈ others, o.ExprForOne arena former.operands other ∧
        arena.Settled o.vars.Knows other)
      fun fault _ => (∃ operand ∈ operands, ¬ walk.arena.Settled o.vars.Knows operand) ∧
        o.BlamesExpr id fault := by
  induction operands generalizing walk with
  | nil => exact .pure stands nofun
  | cons head tail ih =>
    rw [List.mapM_cons]
    have first := visits.below before inside nests stands (fits head List.mem_cons_self)
    refine .bind (first.blame fun fault _ fell => ⟨⟨head, List.mem_cons_self, fell.1⟩, fell.2⟩)
      fun other middle goes told => ?_
    have rest := ih goes.stands fun operand mem =>
      (fits operand (List.mem_cons_of_mem _ mem)).later goes.becomes
    refine .bind (rest.blame ?_) fun others last late held => .pure late.stands ?_
    · rintro fault _ ⟨⟨operand, mem, unsettled⟩, blames⟩
      exact ⟨⟨operand, List.mem_cons_of_mem _ mem,
        fun settled => unsettled (goes.becomes.settled operand settled)⟩, blames⟩
    · exact List.forall_mem_cons.2
        ⟨⟨told.1.later late.becomes, late.becomes.settled other told.2⟩, held⟩

end Operands

section Exchange

variable (stands : o.Stands walk) (inside : o.Inside id) (before : o.arena.expr? id = some former)

include stands inside before

/-- An expression that reads nothing by itself is settled once its operands are exchanged for
settled ones. -/
theorem attempts_exchange {edit : Expr → Expr} {ill : Fault → Arena → Prop}
    (bare : (Node.expr former).named = none) (forms : ∀ expr, (edit expr).form = expr.form)
    (operands : ∀ now, now.form = former.form → ∀ operand ∈ (edit now).operands,
      o.ExprForOne walk.arena former.operands operand ∧ walk.arena.Settled o.vars.Knows operand) :
    o.Attempts (Walk.editExpr id edit) walk
      (fun _ arena _ => arena.Settled o.vars.Knows id) ill := by
  obtain ⟨now, found, recasts⟩ := stands.arena.expr id former before
  refine Attempts.mono (.editExpr stands inside forms fun other again held foundAgain operand mem =>
    ?_) ?_ fun _ _ _ fell => fell
  · obtain rfl := Option.some.inj (before.symm.trans held)
    obtain rfl := Option.some.inj (found.symm.trans foundAgain)
    exact operands now recasts.form operand mem
  · rintro _ after goes edited
    have here : after.arena.expr? id = some (edit now) := by
      rw [edited, Arena.expr?_mapExpr_self found]
    refine Arena.settled_of_operands here ?_ fun operand mem => goes.becomes.settled operand
      (operands now recasts.form operand mem).2
    rw [Expr.named_of_form ((forms now).trans recasts.form), bare]
    nofun

end Exchange

section Rewrites

variable (stands : o.Stands walk) (inside : o.Inside id)
include stands inside

/-- A read notes the version that is current, or its variable is not registered. -/
theorem attempts_rewriteRead {note : Option Version}
    (found : walk.arena.expr? id = some (.read var note)) :
    o.Attempts (Walk.rewriteRead id var) walk
      (fun answer arena _ => o.Rewrote walk.arena arena id answer.node)
      fun fault _ => ¬ walk.arena.Settled o.vars.Knows id ∧ o.BlamesExpr id fault := by
  have looked :=
    Attempts.lift_looks stands
      ((Site.ends_currentVersion stands.sound var).mono (fun _ _ told => told.2)
        fun _ _ fell => fell)
  refine .bind (looked.blame ?_) fun version middle goes told => ?_
  · rintro _ _ ⟨other, mem, rfl, absent⟩
    obtain rfl := List.mem_singleton.1 mem
    obtain ⟨note, before⟩ := stands.arena.read found
    refine ⟨fun settled => ?_, id, .refl, .read before (.unregistered absent)⟩
    obtain ⟨expr, again, known⟩ := settled.expr
    obtain rfl := Option.some.inj (found.symm.trans again)
    exact (Variables.Denies.unregistered absent).not_knows (known other rfl)
  · have here : middle.arena.expr? id = some (.read var note) := by rw [told.1, found]
    refine .bind (.editExpr goes.stands inside (Expr.form_withSeen · version) ?_)
      fun _ after late edited => .pure late.stands ?_
    · rintro _ _ - again operand mem
      obtain rfl := Option.some.inj (here.symm.trans again)
      cases mem
    · exact .inl ⟨rfl, var, note, found,
        some version, by rw [edited, Arena.expr?_mapExpr_self here]; rfl⟩

variable {visit : NodeId → WalkM NodeId} (visits : o.VisitsExpr depth visit)
  (nests : Arena.NestsWithin o.arena.Operand (depth + 1) id)
include visits nests

/-- A call is left with settled operands, or the walk stops below one that was not settled. -/
theorem attempts_rewriteCall {callee : NodeId} {args : List NodeId}
    (found : walk.arena.expr? id = some (.call callee args)) :
    o.Attempts (Walk.rewriteCall visit id callee args) walk
      (fun answer arena _ => o.Rewrote walk.arena arena id answer.node)
      fun fault _ => ¬ walk.arena.Settled o.vars.Knows id ∧ o.BlamesExpr id fault := by
  have still (settled : walk.arena.Settled o.vars.Knows id) {operand : NodeId}
      (mem : operand ∈ (Expr.call callee args).operands) :
      walk.arena.Settled o.vars.Knows operand :=
    settled.below ⟨_, found, mem⟩
  obtain ⟨former, before, recasts⟩ | ⟨value, same, -⟩ := stands.arena.expr_cases found
  swap
  · cases same
  have fits := recasts.operands
  refine .bind
    ((visits.below before inside nests stands (fits callee List.mem_cons_self)).blame
      fun fault _ fell => ⟨fun settled => fell.1 (still settled List.mem_cons_self), fell.2⟩)
    fun newCallee first early left => ?_
  have walked := visits.row before inside nests early.stands args fun arg mem =>
    (fits arg (List.mem_cons_of_mem _ mem)).later early.becomes
  refine .bind (walked.blame ?_) fun newArgs second late right => ?_
  · rintro fault _ ⟨⟨arg, mem, unsettled⟩, blames⟩
    exact ⟨fun settled =>
      unsettled (early.becomes.settled arg (still settled (List.mem_cons_of_mem _ mem))),
      blames⟩
  have all : ∀ operand ∈ newCallee :: newArgs,
      o.ExprForOne second.arena former.operands operand ∧
        second.arena.Settled o.vars.Knows operand :=
    List.forall_mem_cons.2
      ⟨⟨left.1.later late.becomes, late.becomes.settled newCallee left.2⟩, right⟩
  have bare : (Node.expr former).named = none := Expr.named_of_form recasts.form.symm
  refine .bind
    (attempts_exchange late.stands inside before bare (Expr.form_withCall · newCallee newArgs)
      ?_) fun _ third next settled => ?_
  · intro now same
    cases now with
    | call => exact all
    | _ => cases same.trans recasts.form.symm
  refine .bind (.lift_succeeds next.stands (Site.succeeds_escapeAll next.stands.sound))
    fun _ _ goes escaped => .pure goes.stands ?_
  exact .inr ⟨.inl rfl, escaped.1 ▸ settled⟩

/-- So is an evaluation with its source. -/
theorem attempts_rewriteEval {source : NodeId}
    (found : walk.arena.expr? id = some (.eval source)) :
    o.Attempts (Walk.rewriteEval visit id source) walk
      (fun answer arena _ => o.Rewrote walk.arena arena id answer.node)
      fun fault _ => ¬ walk.arena.Settled o.vars.Knows id ∧ o.BlamesExpr id fault := by
  have still (settled : walk.arena.Settled o.vars.Knows id) :
      walk.arena.Settled o.vars.Knows source :=
    settled.below ⟨_, found, List.mem_singleton_self _⟩
  obtain ⟨former, before, recasts⟩ | ⟨value, same, -⟩ := stands.arena.expr_cases found
  swap
  · cases same
  refine .bind
    ((visits.below before inside nests stands
        (recasts.operands source (List.mem_singleton_self _))).blame fun fault _ fell =>
      ⟨fun settled => fell.1 (still settled), fell.2⟩)
    fun newSource first early left => ?_
  have bare : (Node.expr former).named = none := Expr.named_of_form recasts.form.symm
  refine .bind
    (attempts_exchange early.stands inside before bare (Expr.form_withSource · newSource) ?_)
    fun _ second next settled => ?_
  · intro now same
    cases now with
    | eval => exact List.forall_mem_singleton.2 left
    | _ => cases same.trans recasts.form.symm
  refine .bind (.assumeDynamicNames next.stands) fun _ third noted assumed => ?_
  refine .bind (.lift_succeeds noted.stands (Site.succeeds_escapeAll noted.stands.sound))
    fun _ _ goes escaped => .pure goes.stands ?_
  exact .inr ⟨.inl rfl, escaped.1 ▸ assumed ▸ settled⟩

theorem attempts_rewriteExpr :
    o.Attempts (Walk.rewriteExpr visit id) walk
      (fun answer arena _ => o.Rewrote walk.arena arena id answer.node)
      fun fault _ => ¬ walk.arena.Settled o.vars.Knows id ∧ o.BlamesExpr id fault := by
  refine .arenaHere_bind ?_
  cases found : walk.arena.expr? id with
  | none =>
    refine .throw stands ⟨fun settled => ?_, id, .refl, .notExpr (stands.arena.absent_expr found)⟩
    obtain ⟨expr, again, -⟩ := settled.expr
    rw [found] at again
    cases again
  | some expr =>
    cases expr with
    | literal value => exact .pure stands (.inr ⟨.inl rfl, Arena.settled_literal found⟩)
    | read var note => exact attempts_rewriteRead stands inside found
    | builtin name => exact attempts_rewriteBuiltin stands found
    | call callee args => exact attempts_rewriteCall stands inside visits nests found
    | eval source => exact attempts_rewriteEval stands inside visits nests found

end Rewrites

/-- Whatever the depth, the walk of an expression leaves a settled one or stops at something below
it. -/
theorem visitsExpr_walkExprWithin (depth : Nat) :
    o.VisitsExpr depth (Walk.walkExprWithin depth) := by
  induction depth with
  | zero => exact fun _ _ _ _ nests => nests.elim
  | succ depth ih =>
    intro walk id stands inside nests
    refine .bind (attempts_rewriteExpr stands inside ih nests) fun answer first early rewrote => ?_
    refine .bind (.signal early.stands id answer.edit) fun _ second late same => ?_
    rw [← same] at rewrote
    obtain ⟨here, var, note, was, note', found⟩ | ⟨fits, settled⟩ := rewrote
    · rw [here]
      refine .bind ((attempts_countRead late.stands found).blame ?_) fun _ third goes told =>
        .pure goes.stands ⟨.inl rfl, ?_⟩
      · rintro fault - ⟨_, ⟨⟩, denied⟩
        obtain ⟨note, before⟩ := stands.arena.read was
        refine ⟨fun settled => ?_, id, .refl, .read before denied⟩
        obtain ⟨expr, again, known⟩ := settled.expr
        obtain rfl := Option.some.inj (was.symm.trans again)
        exact denied.not_knows (known var rfl)
      · exact Arena.settled_of_operands (told.1 ▸ found) told.2 nofun
    · obtain ⟨expr, found, known⟩ := settled.expr
      refine .bind ((attempts_countRead late.stands found).blame ?_) fun _ third goes told =>
        .pure goes.stands ⟨?_, ?_⟩
      · rintro fault - ⟨var, mem, denied⟩
        exact absurd (known var mem) denied.not_knows
      · exact fits.later goes.becomes
      · exact goes.becomes.settled _ settled

/-- Where nothing lies below itself, the walk of an expression has levels enough. -/
theorem attempts_walkExpr (stands : o.Stands walk) (inside : o.Inside id)
    (acyclic : o.arena.Acyclic) :
    o.Attempts (Walk.walkExpr id) walk
      (fun other arena _ => o.ExprFor arena id other ∧ arena.Settled o.vars.Knows other)
      fun fault _ => ¬ walk.arena.Settled o.vars.Knows id ∧ o.BlamesExpr id fault := by
  refine .arenaHere_bind (visitsExpr_walkExprWithin _ walk id stands inside ?_)
  exact (acyclic.nestsWithin Arena.Operand.leads).mono (Nat.succ_le_succ stands.arena.grown)

end Original

end ValueFlow
