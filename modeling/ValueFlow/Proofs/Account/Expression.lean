import ValueFlow.Proofs.Account.Rewrote

/-!
# Walks of expressions have an account

Wherever the walk of an expression ends well, it has rewritten the tree that stood there. A constant
has become a literal, and nothing else has become a constant.
-/

namespace ValueFlow
set_option autoImplicit false

/-- A constant is folded to a literal of its value, and nothing else to a constant. -/
structure Code.Folds (options : Options) (code newCode : Code) : Prop where
  literal : newCode.literal? = code.constant? options
  constant : newCode.constant? options = code.constant? options

namespace Walk

variable {walk : Walk} {id : NodeId} {code : Code}

/-- The walk of an expression has rewritten it, and some notices are still owed. -/
def LeavesExpr (walk : Walk) (code : Code) (node : NodeId) (owed : Nat) (after : Walk) : Prop :=
  ∃ newCode notes, walk.Rewrote code after (.one .expr node) newCode [] notes ∧ code.Folds walk.analysis.options newCode ∧
    walk.Pays code owed after newCode

/-- The walk rewrites every expression, from any sound site. -/
def RewritesExprs (visit : NodeId → WalkM NodeId) : Prop :=
  ∀ {walk : Walk} {id : NodeId} {code : Code}, walk.toSite.Sound → walk.arena.Shows (.one .expr id) code → code.ids.Nodup →
    Gives (visit id) walk fun node after => walk.LeavesExpr code node 0 after

/-- A row of expressions is rewritten one by one. -/
theorem gives_mapM {visit : NodeId → WalkM NodeId} (visits : RewritesExprs visit)
    {nodes : List NodeId} {row : Code} (sound : walk.toSite.Sound)
    (shows_ : walk.arena.Shows (.row .expr nodes) row) (nodup : row.ids.Nodup) :
    Gives (nodes.mapM visit) walk fun newNodes after =>
      ∃ newRow notes, walk.Rewrote row after (.row .expr newNodes) newRow [] notes ∧
        walk.Pays row 0 after newRow := by
  induction nodes generalizing walk row with
  | nil =>
    cases shows_
    exact .pure ⟨.nil, [], .nil sound .nil, Nat.le_refl _⟩
  | cons node rest ih =>
    cases shows_ with
    | @cons _ _ _ head tail here others =>
      have apart : head.ids.Disjoint tail.ids := List.disjoint_of_nodup_append nodup
      rw [List.mapM_cons]
      refine .bind (visits sound here nodup.of_append_left) ?_
      rintro newNode middle ⟨newHead, notes, first, -, paidHead⟩
      refine .bind
        (ih first.moved.sound (first.keep others (List.disjoint_symm apart)) nodup.of_append_right)
        ?_
      rintro newRest after ⟨newTail, more, second, paidTail⟩
      have isExpr := first.shows_.isExpr
      have leftHead := first.beside second.toPassed others.inside apart
      have shows_ : after.arena.Shows (.row .expr (newNode :: newRest))
          (newHead.contents.append newTail) := by
        rw [isExpr.whole, isExpr.single]
        exact .cons leftHead second.shows_
      exact .pure ⟨_, _, first.through isExpr.goes second apart others.inside shows_,
        paidHead.through paidTail⟩

theorem gives_rewriteBuiltin {name : String} (sound : walk.toSite.Sound)
    (found : walk.arena.expr? id = some (.builtin name)) :
    Gives (rewriteBuiltin id name) walk fun answer after =>
      walk.LeavesExpr (.builtin id name) answer.node answer.owed after := by
  have inside := Arena.lt_size_of_expr? found
  unfold rewriteBuiltin
  rw [gives_get_bind]
  split
  · rename_i unknown
    refine .pure
      ⟨.builtin id name, [],
        ⟨.idle sound (by simpa [Code.ids] using inside) (by simp [Code.ids]), .builtin found,
          .slnil, ?_⟩, ?_, Nat.le_refl _⟩
    · intro ledger closes
      exact .still (by simp [Code.isStill, ← closes.options, unknown])
    · exact ⟨by simp [Code.literal?, Code.constant?, unknown], rfl⟩
  · rename_i value known
    rw [gives_pushLike_bind]
    have added :=
      Arena.Changes.push
        (.sublist (.refl (by simpa [Code.ids] using inside) (by simp [Code.ids]))
          (List.nil_sublist (Code.builtin id name).ids)) (.expr (.literal value))
        (walk.arena.span id)
    refine .pure
      ⟨.literal walk.arena.size value, [],
        ⟨⟨.refl sound, added, by simp, .nil⟩, .literal ?_, .slnil, ?_⟩, ?_, ?_⟩
    · exact (Arena.expr?_push _ _ _ _).trans (if_pos rfl)
    · intro ledger closes
      exact .fold (closes.options ▸ known)
    · exact ⟨known.symm, known.symm⟩
    · simp [Pays, Code.weight, nameCost_of_known known]

/-- A read notes the version that it sees, and is counted. -/
theorem gives_walkRead {depth : Nat} {var : VarId} {old : Option Version}
    (sound : walk.toSite.Sound) (found : walk.arena.expr? id = some (.read var old)) :
    Gives (walkExprWithin (depth + 1) id) walk fun node after =>
      walk.LeavesExpr (.read id var old) node 0 after := by
  have looks : Gives (liftM (Site.currentVersion var) : WalkM Version) walk fun version after =>
      (version = walk.scope.versionOf var ∧ walk.toSite.Quiet after.toSite) ∧
        after.arena = walk.arena ∧
        after.analysis.edits = walk.analysis.edits := by
    refine (gives_liftDiscreet (Site.ends_currentVersion sound var).gives
      (Site.discreet_currentVersion var)).mono ?_
    exact fun _ _ told => ⟨⟨told.1.1, told.1.2.quiet⟩, told.2⟩
  have notes : Gives (rewriteExpr (walkExprWithin depth) id) walk fun answer after =>
      answer = .unchanged id ∧
      walk.toSite.Quiet after.toSite ∧ after.arena = walk.arena.mapExpr id
        (.withSeen (walk.scope.versionOf var)) ∧
      after.analysis.edits = walk.analysis.edits := by
    unfold rewriteExpr
    rw [gives_arenaHere_bind, found]
    refine .bind looks ?_
    rintro version middle ⟨⟨rfl, quiet⟩, same, unnoticed⟩
    rw [gives_editExpr_bind, same]
    exact .pure ⟨rfl, quiet, rfl, unnoticed⟩
  refine Gives.bind notes ?_
  rintro answer seen ⟨rfl, quiet, same, unnoticed⟩
  have noted : seen.arena.expr? id = some (.read var (some (walk.scope.versionOf var))) :=
    same ▸ Arena.expr?_mapExpr_self found _
  change Gives (countRead id >>= fun _ => pure id) seen _
  refine .bind (gives_countRead quiet.sound id) ?_
  rintro _ after ⟨settled, still, unseen, counted⟩
  have here := quiet.trans settled
  have moved := here.seen id (quiet.same ▸ counted _ _ noted)
  refine .pure
    ⟨.read id var (some (walk.scope.versionOf var)), [⟨id, var, walk.scope.versionOf var, none⟩],
      ⟨?_, .read (still ▸ noted), .slnil, ?_⟩, ⟨rfl, rfl⟩, by
      simp [Pays, unseen, unnoticed, Code.weight]⟩
  · refine Passed.above (.idle sound (List.forall_mem_nil _) .nil) moved (by simp) (by simp)
      (Arena.lt_size_of_expr? found) (by simp) (by rw [still, same, Arena.size_mapExpr])
      fun other apart => by rw [still, same, Arena.node?_mapExpr_of_ne _ apart]
  · intro ledger closes
    have label : ledger.labels id = walk.scope.versionOf var :=
      closes.labels _ (List.mem_singleton_self _)
    rw [here.same, ← label]
    exact .read label (label ▸ closes.counted _ (List.mem_singleton_self _) rfl)

section Operands

variable {visit : NodeId → WalkM NodeId} (visits : RewritesExprs visit)
  (sound : walk.toSite.Sound)
include visits sound

/-- A call stays with what is left of its operands, and forgets what it may rebind. -/
theorem gives_rewriteCall {callee : NodeId} {args : List NodeId} {calleeCode argsCode : Code}
    (found : walk.arena.expr? id = some (.call callee args))
    (calleeShows : walk.arena.Shows (.one .expr callee) calleeCode)
    (argsShows : walk.arena.Shows (.row .expr args) argsCode)
    (nodup : (Code.call id calleeCode argsCode).ids.Nodup) :
    Gives (rewriteCall visit id callee args) walk fun answer after =>
      walk.LeavesExpr (.call id calleeCode argsCode) answer.node answer.owed after := by
  unfold rewriteCall
  obtain ⟨free, nodupBoth⟩ := List.nodup_cons.1 nodup
  have apart : calleeCode.ids.Disjoint argsCode.ids := List.disjoint_of_nodup_append nodupBoth
  refine .bind (visits sound calleeShows nodupBoth.of_append_left) ?_
  rintro newCallee middle ⟨newCalleeCode, notes, first, -, paidCallee⟩
  refine .bind
    (gives_mapM visits first.moved.sound (first.keep argsShows (List.disjoint_symm apart))
      nodupBoth.of_append_right) ?_
  rintro newArgs behind ⟨newArgsCode, more, second, paidArgs⟩
  rw [gives_editExpr_bind]
  refine .bind
    (gives_liftDiscreet (Site.gives_escapeAll second.moved.sound) Site.discreet_escapeAll) ?_
  rintro _ after ⟨⟨moved, forgets⟩, same, unnoticed⟩
  have both := first.toPassed.append second.toPassed argsShows.inside apart
  have leftCallee := first.beside second.toPassed argsShows.inside apart
  have above := both.under moved (Arena.lt_size_of_expr? found) free
    (by rw [same, Arena.size_mapExpr]) fun other apart => by
    rw [same, Arena.node?_mapExpr_of_ne _ apart]
  have newFree := above.not_mem
  refine .pure
    ⟨.call id newCalleeCode newArgsCode, _,
      ⟨above, ?_, ?_, fun ledger closes => ?_⟩, ⟨rfl, rfl⟩, ?_⟩
  · rw [same]
    exact .call (Arena.expr?_mapExpr_self (both.expr?_eq found free) _)
      (leftCallee.mapExpr (fun mem => newFree (List.mem_append_left _ mem)) _)
      (second.shows_.mapExpr (fun mem => newFree (List.mem_append_right _ mem)) _)
  · rw [List.filterMap_append]
    exact first.ordered.append second.ordered
  · have closesBoth := closes.upTo moved.grows
    exact .call (first.walks ledger (closesBoth.early second.moved.grows))
      (second.walks ledger (closesBoth.late first.moved.grows))
      ((closes.onward both.moved.grows).escapes forgets)
  · simp only [Pays, unnoticed, Code.weight, Rewritten.owed_unchanged] at paidCallee paidArgs ⊢
    omega

/-- An evaluation stays with what is left of its source, and forgets what it may rebind. -/
theorem gives_rewriteEval {source : NodeId} {sourceCode : Code}
    (found : walk.arena.expr? id = some (.eval source))
    (sourceShows : walk.arena.Shows (.one .expr source) sourceCode)
    (nodup : (Code.eval id sourceCode).ids.Nodup) :
    Gives (rewriteEval visit id source) walk fun answer after =>
      walk.LeavesExpr (.eval id sourceCode) answer.node answer.owed after := by
  unfold rewriteEval
  obtain ⟨free, nodupSource⟩ := List.nodup_cons.1 nodup
  refine .bind (visits sound sourceShows nodupSource) ?_
  rintro newSource behind ⟨newSourceCode, notes, first, -, paid⟩
  rw [gives_editExpr_bind]
  have dynamic : Gives (liftM Analysis.assumeDynamicNames : WalkM Unit)
      { behind with arena := behind.arena.mapExpr id (.withSource newSource) }
      fun _ after => behind.toSite.Quiet after.toSite ∧ after.arena = behind.arena.mapExpr id
        (.withSource newSource) ∧
        after.analysis.edits = behind.analysis.edits :=
    ⟨Site.quiet_unseen first.moved.sound true (Nat.le_refl _), rfl, rfl⟩
  refine .bind dynamic ?_
  rintro _ named ⟨quiet, same, unseen⟩
  refine .bind (gives_liftDiscreet (Site.gives_escapeAll quiet.sound) Site.discreet_escapeAll) ?_
  rintro _ after ⟨⟨moved, forgets⟩, still, unnoticed⟩
  have onward : behind.toSite.Moved after.toSite [] [] := quiet.toMoved.trans moved
  have above := first.toPassed.under onward (Arena.lt_size_of_expr? found) free
    (by rw [still, same, Arena.size_mapExpr]) fun other apart => by
    rw [still, same, Arena.node?_mapExpr_of_ne _ apart]
  refine .pure
    ⟨.eval id newSourceCode, _,
      ⟨above, ?_, first.ordered, fun ledger closes => ?_⟩, ⟨rfl, rfl⟩, ?_⟩
  · rw [still, same]
    exact .eval (Arena.expr?_mapExpr_self (first.expr?_eq found free) _)
      (first.shows_.mapExpr above.not_mem _)
  · refine .eval (first.walks ledger (closes.upTo onward.grows)) ?_
    rw [← quiet.same]
    exact (closes.onward (first.moved.grows.trans quiet.grows)).escapes forgets
  · simp only [Pays, unnoticed, unseen, Code.weight, Rewritten.owed_unchanged] at paid ⊢
    omega

/-- Every kind of expression but a read is rewritten, if its operands are. -/
theorem gives_rewriteExpr (shows_ : walk.arena.Shows (.one .expr id) code)
    (nodup : code.ids.Nodup)
    (noRead : ∀ var version, walk.arena.expr? id ≠ some (.read var version)) :
    Gives (rewriteExpr visit id) walk fun answer after =>
      walk.LeavesExpr code answer.node answer.owed after := by
  unfold rewriteExpr
  rw [gives_arenaHere_bind]
  have alone := shows_
  cases shows_ with
  | hole _ lacks =>
    rw [show walk.arena.expr? id = none from lacks]
    exact .throw
  | literal found =>
    rw [found]
    exact .pure ⟨_, [], ⟨.idle sound alone.inside nodup, alone, .slnil, fun _ _ => .still rfl⟩,
      ⟨rfl, rfl⟩, Nat.le_refl _⟩
  | builtin found =>
    rw [found]
    exact gives_rewriteBuiltin sound found
  | read found => exact absurd found (noRead _ _)
  | call found callee args =>
    rw [found]
    exact gives_rewriteCall visits sound found callee args nodup
  | eval found source =>
    rw [found]
    exact gives_rewriteEval visits sound found source nodup

end Operands

/-- Whatever the depth, a walk that ends well has rewritten the expression. -/
theorem gives_walkExprWithin (depth : Nat) : RewritesExprs (walkExprWithin depth) := by
  induction depth with
  | zero => exact fun _ _ _ => .throw
  | succ depth ih =>
    intro walk id code sound shows_ nodup
    by_cases isRead : ∃ var version, walk.arena.expr? id = some (.read var version)
    · obtain ⟨var, version, found⟩ := isRead
      have same : code = .read id var version := by
        cases shows_ with
        | hole _ lacks => cases found.symm.trans lacks
        | read foundHere =>
          obtain ⟨rfl, rfl⟩ := Expr.read.inj (Option.some.inj (foundHere.symm.trans found))
          rfl
        | literal foundHere | builtin foundHere | call foundHere | eval foundHere =>
          cases foundHere.symm.trans found
      exact same ▸ gives_walkRead sound found
    refine .bind
      (gives_rewriteExpr ih sound shows_ nodup fun var version found =>
        isRead ⟨var, version, found⟩) ?_
    rintro answer rewritten ⟨newCode, notes, rewrote, folds, paid⟩
    refine .bind (gives_signal rewrote.moved.sound id answer.edit) ?_
    rintro _ told ⟨quiet, same, noticed⟩
    refine .bind (gives_countRead quiet.sound answer.node) ?_
    rintro _ after ⟨counted, still, unnoticed, -⟩
    exact .pure ⟨newCode, notes, rewrote.settle (quiet.trans counted) (still.trans same), folds,
      (paid.signalled noticed).settle unnoticed⟩

theorem gives_walkExpr : RewritesExprs walkExpr := by
  intro walk id code sound shows_ nodup
  exact gives_walkExprWithin _ sound shows_ nodup

end Walk

end ValueFlow
