import ValueFlow.Proofs.Normal.Reshaped

/-!
# Walks of expressions leave normal trees

A name of known value is replaced by a literal, and every other node stays with what is left of its
operands. No exit is entered on the way. A read is counted at the version that was noted at it, for
nothing happens in between; a fallback is counted beside it, and noted nowhere.
-/

namespace ValueFlow
set_option autoImplicit false

namespace Walk

variable {walk : Walk} {id : NodeId} {code : Code} {visit : NodeId → WalkM NodeId}

/-- The walk leaves a normal tree of every expression. -/
def ReshapesExprs (visit : NodeId → WalkM NodeId) : Prop :=
  ∀ {walk : Walk} {id : NodeId} {code : Code}, walk.arena.Shows (.one .expr id) code → code.ids.Nodup →
    Gives (visit id) walk fun node after => ∃ newCode, walk.Reshaped code after (.one .expr node) newCode

/-- A row of expressions is rewritten one by one. -/
theorem reshapes_mapM (visits : ReshapesExprs visit) {nodes : List NodeId} {row : Code}
    (shows_ : walk.arena.Shows (.row .expr nodes) row) (nodup : row.ids.Nodup) :
    Gives (nodes.mapM visit) walk fun newNodes after => ∃ newRow,
      walk.Reshaped row after (.row .expr newNodes) newRow := by
  induction nodes generalizing walk row with
  | nil =>
    cases shows_
    exact .pure ⟨.nil, .idle .nil nodup trivial (fun _ => rfl) rfl⟩
  | cons node rest ih =>
    cases shows_ with
    | @cons _ _ _ head tail here others =>
      have apart : head.ids.Disjoint tail.ids := List.disjoint_of_nodup_append nodup
      rw [List.mapM_cons]
      refine .bind (visits here nodup.of_append_left) ?_
      rintro newNode middle ⟨newHead, first⟩
      refine .bind
        (ih (first.changes.keep others (List.disjoint_symm apart)) nodup.of_append_right) ?_
      rintro newRest after ⟨newTail, second⟩
      have isExpr := first.shows_.isExpr
      have row : after.arena.Shows (.row .expr (newNode :: newRest))
          (newHead.contents.append newTail) := by
        rw [isExpr.whole, isExpr.single]
        exact .cons (first.beside second.toAltered others.inside apart) second.shows_
      exact .pure ⟨_,
        first.through isExpr.goes first.shows_.contents_forms second others.inside apart row⟩

/-- What the rewrite of an expression has left: a read that is not counted yet, or another node,
with which all is done. -/
inductive Settled (before : Walk) (code : Code) (after : Walk) (node : NodeId) : Prop
  | uncounted {var : VarId} {version : Version} (altered : before.Altered code.ids after [node] (fun _ => 0) [])
      (found : after.arena.expr? node = some (.read var (some version))) (current : after.scope.active[var]? = some version)
  | done {newCode : Code} (reshaped : before.Reshaped code after (.one .expr node) newCode)
      (other : ∀ id var version, newCode ≠ .read id var version)

theorem reshapes_rewriteBuiltin {name : String}
    (found : walk.arena.expr? id = some (.builtin name)) :
    Gives (rewriteBuiltin id name) walk fun answer after =>
      walk.Settled (.builtin id name) after answer.node := by
  have shows_ : walk.arena.Shows (.one .expr id) (.builtin id name) := .builtin found
  have nodup : (Code.builtin id name).ids.Nodup := List.nodup_singleton id
  unfold rewriteBuiltin
  rw [gives_get_bind]
  split
  · rename_i unknown
    exact .pure (.done (.idle shows_ nodup (builtinValue?_eq_none_iff.1 unknown) (fun _ => rfl) rfl)
      nofun)
  · rename_i value known
    rw [gives_pushLike_bind]
    have dropped : walk.Altered (Code.builtin id name).ids walk [] (fun _ => 0) [] :=
      (Altered.idle shows_.inside nodup).sublist (List.nil_sublist _)
    have folded : (walk.arena.push (.expr (.literal value)) (walk.arena.span id)).expr?
        walk.arena.size = some (.literal value) := (Arena.expr?_push _ _ _ _).trans (if_pos rfl)
    have reshaped : walk.Reshaped (.builtin id name) _ (.one .expr walk.arena.size)
        (.literal walk.arena.size value) := ⟨dropped.push _ _, .literal folded, trivial⟩
    exact .pure (.done reshaped nofun)

/-- A read notes the version that it sees. -/
theorem reshapes_read {var : VarId} {old : Option Version}
    (found : walk.arena.expr? id = some (.read var old)) :
    Gives (rewriteRead id var) walk fun answer after =>
      walk.Settled (.read id var old) after answer.node := by
  have looks : Gives (liftM (Site.currentVersion var) : WalkM Version) walk fun version after =>
      walk.Spared after ∧ after.scope.active[var]? = some version :=
    (Spares.lift (annotates_quiet.currentVersion var) walk).and
      ((gives_lift (Site.gives_currentVersion_active walk.toSite var)).mono
        fun _ _ told => told.1.1)
  refine looks.bind ?_
  rintro version middle ⟨spared, current⟩
  rw [gives_editExpr_bind]
  have nothing : walk.Altered [] middle [] (fun _ => 0) [] :=
    (Altered.idle (List.forall_mem_nil _) .nil).spared spared
  have noted := Arena.expr?_mapExpr_self (nothing.changes.expr?_eq found List.not_mem_nil)
    (.withSeen version)
  exact .pure (.uncounted (nothing.editExpr found List.not_mem_nil _) noted current)

/-- A call stays with what is left of its operands. -/
theorem reshapes_call (visits : ReshapesExprs visit) {callee : NodeId} {args : List NodeId}
    {calleeCode argsCode : Code} (found : walk.arena.expr? id = some (.call callee args))
    (calleeShows : walk.arena.Shows (.one .expr callee) calleeCode)
    (argsShows : walk.arena.Shows (.row .expr args) argsCode)
    (nodup : (Code.call id calleeCode argsCode).ids.Nodup) :
    Gives (rewriteCall visit id callee args) walk fun answer after =>
      walk.Settled (.call id calleeCode argsCode) after answer.node := by
  unfold rewriteCall
  obtain ⟨free, nodupBoth⟩ := List.nodup_cons.1 nodup
  have apart : calleeCode.ids.Disjoint argsCode.ids := List.disjoint_of_nodup_append nodupBoth
  refine .bind (visits calleeShows nodupBoth.of_append_left) ?_
  rintro newCallee middle ⟨newCalleeCode, first⟩
  refine .bind
    (reshapes_mapM visits (first.changes.keep argsShows (List.disjoint_symm apart))
      nodupBoth.of_append_right) ?_
  rintro newArgs behind ⟨newArgsCode, second⟩
  rw [gives_editExpr_bind]
  have both := first.append second argsShows.inside apart
  have leftCallee := first.beside second.toAltered argsShows.inside apart
  have edited := both.editExpr found free (.withCall newCallee newArgs)
  have below := edited.not_mem
  rw [List.mem_append, not_or] at below
  have none_ : ∀ kind, (Code.call id newCalleeCode newArgsCode).exitCount kind =
      newCalleeCode.exitCount kind + newArgsCode.exitCount kind :=
    fun kind => by rw [leftCallee.exitCount_of_exprs rfl, second.shows_.exitCount_of_exprs rfl]; rfl
  have left : walk.Reshaped (.call id calleeCode argsCode)
      { behind with arena := behind.arena.mapExpr id (.withCall newCallee newArgs) }
      (.one .expr id) (.call id newCalleeCode newArgsCode) := {
    toAltered := edited.congr none_
    shows_ := .call (Arena.expr?_mapExpr_self (both.changes.expr?_eq found free) _)
      (leftCallee.mapExpr below.1 _) (second.shows_.mapExpr below.2 _)
    normal := ⟨first.normal, second.normal⟩ }
  refine .bind (Spares.lift annotates_quiet.escapeAll _) ?_
  rintro _ after spared
  exact .pure (.done (left.spared spared) nofun)

/-- An evaluation stays with what is left of its source. -/
theorem reshapes_eval (visits : ReshapesExprs visit) {source : NodeId} {sourceCode : Code}
    (found : walk.arena.expr? id = some (.eval source))
    (sourceShows : walk.arena.Shows (.one .expr source) sourceCode)
    (nodup : (Code.eval id sourceCode).ids.Nodup) :
    Gives (rewriteEval visit id source) walk fun answer after =>
      walk.Settled (.eval id sourceCode) after answer.node := by
  unfold rewriteEval
  obtain ⟨free, nodupSource⟩ := List.nodup_cons.1 nodup
  refine .bind (visits sourceShows nodupSource) ?_
  rintro newSource behind ⟨newSourceCode, first⟩
  rw [gives_editExpr_bind]
  have edited := first.toAltered.editExpr found free (.withSource newSource)
  have left : walk.Reshaped (.eval id sourceCode)
      { behind with arena := behind.arena.mapExpr id (.withSource newSource) }
      (.one .expr id) (.eval id newSourceCode) := {
    toAltered := edited.congr fun kind => (first.shows_.exitCount_of_exprs rfl kind).symm
    shows_ := .eval (Arena.expr?_mapExpr_self (first.changes.expr?_eq found free) _)
      (first.shows_.mapExpr edited.not_mem _)
    normal := first.normal }
  have assumes : Spares (liftM Analysis.assumeDynamicNames : WalkM Unit) :=
    fun _ => ⟨rfl, rfl, .of_log rfl rfl⟩
  refine .bind (assumes _) ?_
  rintro _ noted assumed
  refine .bind (Spares.lift annotates_quiet.escapeAll _) ?_
  rintro _ after escaped
  exact .pure (.done ((left.spared assumed).spared escaped) nofun)

/-- Every kind of expression is rewritten, if its operands are. -/
theorem reshapes_rewriteExpr (visits : ReshapesExprs visit)
    (shows_ : walk.arena.Shows (.one .expr id) code) (nodup : code.ids.Nodup) :
    Gives (rewriteExpr visit id) walk fun answer after => walk.Settled code after answer.node := by
  unfold rewriteExpr
  rw [gives_arenaHere_bind]
  have alone := shows_
  cases shows_ with
  | hole _ lacks =>
    rw [show walk.arena.expr? id = none from lacks]
    exact .throw
  | literal found =>
    rw [found]
    exact .pure (.done (.idle alone nodup trivial (fun _ => rfl) rfl) nofun)
  | builtin found =>
    rw [found]
    exact reshapes_rewriteBuiltin found
  | read found =>
    rw [found]
    exact reshapes_read found
  | call found callee args =>
    rw [found]
    exact reshapes_call visits found callee args nodup
  | eval found source =>
    rw [found]
    exact reshapes_eval visits found source nodup

/-- A read is counted at the version that is current, and so is one of the fallback of its
variable. -/
theorem gives_countRead_noted {var : VarId} {version : Version}
    (found : walk.arena.expr? id = some (.read var (some version)))
    (current : walk.scope.active[var]? = some version) :
    Gives (countRead id) walk fun _ after => after.arena = walk.arena ∧
      after.analysis.exits = walk.analysis.exits ∧
      walk.analysis.Annotates [(id, var, none, some version)] after.analysis := by
  unfold countRead
  rw [gives_arenaHere_bind, found]
  refine .bind (gives_lift (Site.gives_read_logged walk.toSite var)) ?_
  rintro _ middle ⟨⟨still, appends, _, told, only⟩, same⟩
  obtain rfl := told version current
  have looks : Gives (fallback? var) middle fun other after =>
      other = walk.analysis.vars.fallback? var ∧ after = middle :=
    gives_get_bind.2 (.pure ⟨congrFun appends.vars.fallback? var, rfl⟩)
  refine looks.bind ?_
  rintro fallback _ ⟨named, rfl⟩
  cases fallback with
  | some other =>
    refine (gives_lift (Site.gives_read_logged _ other)).mono ?_
    rintro _ after ⟨⟨stillBehind, appendsBehind, seen, -, onlyBehind⟩, sameBehind⟩
    exact ⟨sameBehind.trans same, stillBehind.trans still,
      .read id (appends.trans appendsBehind) (only.trans onlyBehind) (by rw [← named]; rfl)⟩
  | none => exact .pure ⟨same, still, .read id appends only (by rw [← named]; rfl)⟩

/-- What is no read is not counted. -/
theorem gives_countRead_other (shows_ : walk.arena.Shows (.one .expr id) code)
    (other : ∀ id var version, code ≠ .read id var version) :
    Gives (countRead id) walk fun _ after => after = walk := by
  unfold countRead
  rw [gives_arenaHere_bind]
  cases shows_ with
  | read => exact absurd rfl (other _ _ _)
  | hole _ lacks =>
    rw [show walk.arena.expr? id = none from lacks]
    exact .pure rfl
  | literal found | builtin found | call found | eval found =>
    rw [found]
    exact .pure rfl

/-- Once a read is counted, it is done with every expression. -/
theorem Settled.countRead {before middle : Walk} {node : NodeId}
    (settled : before.Settled code middle node) (spared : middle.Spared walk)
    (same : walk.scope = middle.scope) :
    Gives (countRead node) walk fun _ after => ∃ newCode, before.Reshaped code after
      (.one .expr node) newCode := by
  cases settled with
  | uncounted altered found current =>
    refine (gives_countRead_noted (spared.arena ▸ found) (same ▸ current)).mono ?_
    rintro _ after ⟨arena, exits, noted⟩
    exact ⟨.read node _ _, (altered.spared spared).note arena exits noted,
      .read (arena ▸ spared.arena ▸ found), trivial⟩
  | done reshaped other =>
    refine (gives_countRead_other (reshaped.spared spared).shows_ other).mono ?_
    rintro _ _ rfl
    exact ⟨_, reshaped.spared spared⟩

theorem gives_signal_scope (id : NodeId) (edit : Option Edit) :
    Gives (signal id edit) walk fun _ after => after.scope = walk.scope := by
  cases edit with
  | none => exact .pure rfl
  | some edit => exact (rfl : walk.scope = walk.scope)

theorem reshapes_walkExprWithin (depth : Nat) : ReshapesExprs (walkExprWithin depth) := by
  induction depth with
  | zero => exact fun _ _ => .throw
  | succ depth ih =>
    intro walk id code shows_ nodup
    refine .bind (reshapes_rewriteExpr ih shows_ nodup) ?_
    rintro answer rewritten settled
    have signals : Gives (signal id answer.edit) rewritten fun _ after => rewritten.Spared after ∧
        after.scope = rewritten.scope :=
      (Spares.signal id answer.edit rewritten).and (gives_signal_scope id answer.edit)
    refine signals.bind ?_
    rintro _ noticed ⟨spared, same⟩
    refine .bind (settled.countRead spared same) ?_
    exact fun _ after reshaped => .pure reshaped

theorem reshapes_walkExpr : ReshapesExprs walkExpr := by
  intro walk id code shows_ nodup
  exact reshapes_walkExprWithin _ shows_ nodup

end Walk

end ValueFlow
