import Mathlib.Data.List.Nodup
import ValueFlow.Proofs.Silence.Tells

/-!
# Silent walks of expressions

The walk of an expression is foretold by the tree that stands there. There is nothing to splice in
an expression, so a silent walk leaves it as it is, but for the versions at its reads.
-/

namespace ValueFlow
set_option autoImplicit false

/-- An expression stands alone when it is spliced. -/
theorem Arena.Shows.standsAlone_flat {arena : Arena} {id : NodeId} {code : Code}
    (shows_ : arena.Shows (.one .expr id) code) :
    code.flat.standsAlone = true := by
  cases shows_ <;> rfl

namespace Walk

variable {walk : Walk} {id : NodeId} {code : Code} {depth : Nat}

/-- The walk of every expression that is nested no deeper is foretold. -/
def TellsExprs (visit : NodeId → WalkM NodeId) (depth : Nat) : Prop :=
  ∀ {walk : Walk} {id : NodeId} {code : Code}, walk.toSite.Sound → walk.arena.Shows (.one .expr id) code → code.ids.Nodup →
    code.ids.length ≤ depth → Tells (visit id) walk (code.silent walk.sketch)
      (fun node after => node = id ∧ walk.arena.Spliced code after.arena (.one .expr id)) nothingDue

/-- What the rewrite of an expression leaves, if it is silent. -/
def StaysExpr (walk : Walk) (id : NodeId) (code : Code) (answer : Rewritten NodeId) (after : Walk) : Prop :=
  answer = .unchanged id ∧ walk.arena.Spliced code after.arena (.one .expr id)

theorem draws_assumeDynamicNames {site : Site} (sound : site.Sound) :
    Site.Draws (liftM Analysis.assumeDynamicNames) site (some site.sketch) fun _ _ => True :=
  ⟨⟨⟨sound.analysis.unseen _ true, sound.scope⟩, ⟨.refl _, .refl _, .refl _, rfl, Nat.le_refl _⟩,
    rfl, rfl⟩, trivial⟩

theorem tells_rewriteBuiltin {name : String} (sound : walk.toSite.Sound)
    (shows_ : walk.arena.Shows (.one .expr id) (.builtin id name)) :
    Tells (rewriteBuiltin id name) walk ((Code.builtin id name).silent walk.sketch)
      (walk.StaysExpr id (.builtin id name))
      fun answer => answer.edit.isSome = true := by
  unfold rewriteBuiltin
  rw [Tells.get_bind, Code.silent, show walk.sketch.options = walk.analysis.options from rfl]
  cases builtinValue? walk.analysis.options name with
  | none => exact .pure sound ⟨rfl, .refl shows_ rfl⟩
  | some value => exact Tells.pushLike_bind.2 (.due sound rfl)

section Steady

theorem steady_walkExprWithin (depth : Nat) (id : NodeId) : Steady (walkExprWithin depth id) :=
  .of_yields (Discipline.yields_walkExprWithin integrity_law depth trivial)

theorem steady_mapM (depth : Nat) (nodes : List NodeId) :
    Steady (nodes.mapM (walkExprWithin depth)) :=
  .of_yields (.mapM integrity_law fun id _ => steady_walkExprWithin depth id)

theorem steady_escapeAll : Steady (liftM Site.escapeAll : WalkM Unit) :=
  .of_yields (.lift (integrity_law.escapeAll trivial))

theorem steady_assumeDynamicNames : Steady (liftM Analysis.assumeDynamicNames : WalkM Unit) :=
  Discipline.obeys_assumeDynamicNames integrity_law

end Steady

section Operands

variable (visits : TellsExprs (walkExprWithin depth) depth)
include visits

/-- Expressions in a row are walked one by one. -/
theorem tells_mapM {nodes : List NodeId} {row : Code} (sound : walk.toSite.Sound)
    (shows_ : walk.arena.Shows (.row .expr nodes) row) (nodup : row.ids.Nodup)
    (low : row.ids.length ≤ depth) :
    Tells (nodes.mapM (walkExprWithin depth)) walk (row.silent walk.sketch)
      (fun newNodes after => newNodes = nodes ∧
        walk.arena.Spliced row after.arena (.row .expr nodes)) nothingDue := by
  induction nodes generalizing walk row with
  | nil =>
    cases shows_
    exact .pure sound ⟨rfl, .refl .nil rfl⟩
  | cons node rest ih =>
    cases shows_ with
    | @cons _ _ _ head tail here others =>
      have apart : head.ids.Disjoint tail.ids := List.disjoint_of_nodup_append nodup
      simp only [Code.ids, List.length_append] at low
      rw [List.mapM_cons]
      refine .bind (visits sound here nodup.of_append_left (by omega)) sound
        (steady_walkExprWithin depth node)
        (fun _ => .bind (steady_mapM depth rest) fun _ => .pure) ?_
      rintro _ middle drawn ⟨rfl, first⟩
      rw [here.isExpr.goes]
      refine .map (ih drawn.sound (first.beside others apart) nodup.of_append_right (by omega)) ?_
        fun _ none_ => none_
      rintro _ after _ ⟨rfl, second⟩
      refine ⟨rfl, (first.trans second.toStays).widen (by simp [Code.ids])
        (by simp +contextual [Code.isFlat]), ?_⟩
      obtain ⟨newHead, headShows, sameHead⟩ := first.left second.toStays apart
      obtain ⟨newTail, tailShows, sameTail⟩ := second.shows_
      refine ⟨.cons newHead newTail, .cons headShows tailShows, ?_⟩
      rw [Code.flat, Code.contents_of_standsAlone here.standsAlone_flat,
        Code.append_of_standsAlone _ here.standsAlone_flat]
      simp only [Code.bare, sameHead, sameTail]

/-- A call is silent where its operands are, and it escapes behind them. -/
theorem tells_rewriteCall (sound : walk.toSite.Sound) {callee : NodeId} {args : List NodeId}
    {calleeCode argsCode : Code} (found : walk.arena.expr? id = some (.call callee args))
    (calleeShows : walk.arena.Shows (.one .expr callee) calleeCode)
    (argsShows : walk.arena.Shows (.row .expr args) argsCode)
    (nodup : (Code.call id calleeCode argsCode).ids.Nodup)
    (low : (Code.call id calleeCode argsCode).ids.length ≤ depth + 1) :
    Tells (rewriteCall (walkExprWithin depth) id callee args) walk
      ((Code.call id calleeCode argsCode).seen walk.sketch)
      (walk.StaysExpr id (.call id calleeCode argsCode)) fun answer =>
        answer.edit.isSome = true := by
  unfold rewriteCall
  obtain ⟨free, nodupBoth⟩ := List.nodup_cons.1 nodup
  have apart : calleeCode.ids.Disjoint argsCode.ids := List.disjoint_of_nodup_append nodupBoth
  simp only [Code.ids, List.length_cons, List.length_append] at low
  have steadyCall : ∀ callee args,
      Steady (editExpr id (.withCall callee args) >>= fun _ =>
        (liftM Site.escapeAll : WalkM Unit) >>= fun _ =>
        (pure (Rewritten.unchanged id) : WalkM (Rewritten NodeId))) := fun callee args =>
      (Steady.editExpr id _).bind fun _ => steady_escapeAll.bind fun _ => .pure
  refine .bind (visits sound calleeShows nodupBoth.of_append_left (by omega)) sound
    (steady_walkExprWithin depth callee)
    (fun newCallee => (steady_mapM depth args).bind (steadyCall newCallee)) ?_
  rintro _ middle drawn ⟨rfl, first⟩
  refine .bind
    (tells_mapM visits drawn.sound (first.beside argsShows apart) nodupBoth.of_append_right
      (by omega)) drawn.sound (steady_mapM depth args) (steadyCall _) ?_
  rintro _ behind drawnArgs ⟨rfl, second⟩
  rw [Tells.editExpr_bind]
  have both := first.trans second.toStays
  have foundNow := (both.expr?_eq free).trans found
  have above := both.above (Arena.Stays.mapExpr foundNow (.withCall _ _) fun _ : True => rfl)
  refine .lift_then (Site.draws_escapeAll drawnArgs.sound) fun _ site drawnLast _ => ?_
  refine .pure drawnLast.sound
    ⟨rfl, above.widen (by simp [Code.ids]) (by simp +contextual [Code.isFlat]), ?_⟩
  have edited := Arena.Stays.mapExpr foundNow (.withCall _ _) fun _ : True => rfl
  obtain ⟨newCallee, calleeLeft, sameCallee⟩ :=
    (first.left second.toStays apart).keep_of_free edited fun mem =>
      free (List.mem_append_left _ mem)
  obtain ⟨newArgs, argsLeft, sameArgs⟩ := second.shows_.keep_of_free edited fun mem =>
    free (List.mem_append_right _ mem)
  refine ⟨.call id newCallee newArgs,
    .call (Arena.expr?_mapExpr_self foundNow _) calleeLeft argsLeft, ?_⟩
  simp only [Code.flat, Code.bare, sameCallee, sameArgs]

/-- An evaluation is silent where its source is, and it escapes behind it. -/
theorem tells_rewriteEval (sound : walk.toSite.Sound) {source : NodeId} {sourceCode : Code}
    (found : walk.arena.expr? id = some (.eval source))
    (sourceShows : walk.arena.Shows (.one .expr source) sourceCode)
    (nodup : (Code.eval id sourceCode).ids.Nodup)
    (low : (Code.eval id sourceCode).ids.length ≤ depth + 1) :
    Tells (rewriteEval (walkExprWithin depth) id source) walk
      ((Code.eval id sourceCode).seen walk.sketch)
      (walk.StaysExpr id (.eval id sourceCode)) fun answer => answer.edit.isSome = true := by
  unfold rewriteEval
  obtain ⟨free, nodupSource⟩ := List.nodup_cons.1 nodup
  have steadyEval : ∀ source,
      Steady (editExpr id (.withSource source) >>= fun _ =>
        (liftM Analysis.assumeDynamicNames : WalkM Unit) >>= fun _ =>
        (liftM Site.escapeAll : WalkM Unit) >>= fun _ =>
        (pure (Rewritten.unchanged id) : WalkM (Rewritten NodeId))) := fun source =>
      (Steady.editExpr id _).bind fun _ => steady_assumeDynamicNames.bind fun _ =>
      steady_escapeAll.bind fun _ => .pure
  refine .bind (visits sound sourceShows nodupSource (Nat.le_of_succ_le_succ low)) sound
    (steady_walkExprWithin depth source) steadyEval ?_
  rintro _ behind drawn ⟨rfl, first⟩
  rw [Tells.editExpr_bind]
  have foundNow := (first.expr?_eq free).trans found
  have edited := Arena.Stays.mapExpr foundNow (.withSource _) fun _ : True => rfl
  change Tells ((liftM (liftM Analysis.assumeDynamicNames : SiteM Unit) : WalkM Unit) >>= fun _ =>
    _) { behind with arena := _ }
    ((some behind.sketch).bind fun named : Sketch => some named.escape) _ _
  refine Tells.lift_bind (draws_assumeDynamicNames drawn.sound) fun _ named drawnName _ => ?_
  refine .lift_then (Site.draws_escapeAll drawnName.sound) fun _ site drawnLast _ => ?_
  refine .pure drawnLast.sound
    ⟨rfl, (first.above edited).widen (by simp [Code.ids]) (by simp [Code.isFlat]), ?_⟩
  obtain ⟨newSource, sourceLeft, sameSource⟩ := first.shows_.keep_of_free edited free
  refine ⟨.eval id newSource, .eval (Arena.expr?_mapExpr_self foundNow _) sourceLeft, ?_⟩
  simp only [Code.flat, Code.bare, sameSource]

theorem tells_rewriteExpr (sound : walk.toSite.Sound)
    (shows_ : walk.arena.Shows (.one .expr id) code) (nodup : code.ids.Nodup)
    (low : code.ids.length ≤ depth + 1) :
    Tells (rewriteExpr (walkExprWithin depth) id) walk (code.seen walk.sketch)
      (walk.StaysExpr id code) fun answer => answer.edit.isSome = true := by
  unfold rewriteExpr
  rw [Tells.arenaHere_bind]
  have alone := shows_
  cases shows_ with
  | hole _ lacks =>
    rw [show walk.arena.expr? id = none from lacks]
    exact .throw
  | literal found =>
    rw [found]
    exact .pure sound ⟨rfl, .refl alone rfl⟩
  | builtin found =>
    rw [found]
    exact tells_rewriteBuiltin sound alone
  | @read _ var version found =>
    rw [found]
    refine .lift_then (Site.draws_currentVersion sound var) fun seen site drawn _ => ?_
    rw [Tells.editExpr_bind]
    have stays := Arena.Stays.mapExpr found (.withSeen seen)
      fun _ : (Code.read id var version).isFlat = true => rfl
    exact .pure drawn.sound
      ⟨rfl, stays, .read id var (some seen), .read (Arena.expr?_mapExpr_self found _), rfl⟩
  | call found callee args =>
    rw [found]
    exact tells_rewriteCall visits sound found callee args nodup low
  | eval found source =>
    rw [found]
    exact tells_rewriteEval visits sound found source nodup low

end Operands

/-- The read that an expression may be is counted. -/
theorem tells_countRead (sound : walk.toSite.Sound)
    (shows_ : walk.arena.Shows (.one .expr id) code) :
    Tells (countRead id) walk (code.counted walk.sketch) (fun _ after => after.arena = walk.arena)
      nothingDue := by
  unfold countRead
  rw [Tells.arenaHere_bind]
  cases shows_ with
  | hole _ lacks =>
    rw [show walk.arena.expr? id = none from lacks]
    exact .pure sound rfl
  | literal found | builtin found | call found | eval found =>
    rw [found]
    exact .pure sound rfl
  | @read _ var version found =>
    rw [found]
    refine Tells.lift_bind (Site.draws_read sound var) fun _ site drawn _ => ?_
    have same : (site.sketch.slots var).bind (·.storage.fallback?) =
        (site.analysis.vars.get? var).bind (·.storage.fallback?) := Option.bind_map ..
    unfold Sketch.lookBehind
    rw [Tells.fallback_bind, same]
    cases (site.analysis.vars.get? var).bind (·.storage.fallback?) with
    | none => exact .pure drawn.sound rfl
    | some other => exact .lift (Site.draws_read drawn.sound other) fun _ _ _ _ => rfl

/-- The walk of an expression is foretold. -/
theorem tells_walkExprWithin (depth : Nat) : TellsExprs (walkExprWithin depth) depth := by
  induction depth with
  | zero =>
    intro walk id code sound shows_ nodup low
    exact absurd (List.length_pos_of_mem shows_.mem_ids) (Nat.not_lt.2 low)
  | succ depth ih =>
    intro walk id code sound shows_ nodup low
    rw [Code.silent_eq_seen]
    refine Tells.bind_signal id (tells_rewriteExpr ih sound shows_ nodup low) sound
      (.of_yields (Discipline.yields_rewriteExpr integrity_law
          (fun _ _ => steady_walkExprWithin depth _) trivial))
      (fun answer => .bind (.of_yields (Discipline.obeys_countRead integrity_law answer.node))
        fun _ => .pure) ?_
    rintro _ after drawn ⟨rfl, spliced⟩
    obtain ⟨newCode, left, same⟩ := spliced.shows_
    have counted : code.counted = newCode.counted := by
      funext here
      rw [← Code.counted_bare newCode, same, Code.counted_bare, shows_.counted_flat]
    refine ⟨rfl, .map (counted ▸ tells_countRead drawn.sound left) (fun _ last _ still => ⟨rfl, ?_⟩)
      fun _ none_ => none_⟩
    rw [still]
    exact spliced

theorem tells_walkExpr (sound : walk.toSite.Sound)
    (shows_ : walk.arena.Shows (.one .expr id) code) (nodup : code.ids.Nodup) :
    Tells (walkExpr id) walk (code.silent walk.sketch)
      (fun node after => node = id ∧ walk.arena.Spliced code after.arena (.one .expr id))
        nothingDue :=
  Tells.arenaHere_bind.2
    (tells_walkExprWithin _ sound shows_ nodup (Nat.le_succ_of_le (shows_.length_le nodup)))

end Walk

end ValueFlow
