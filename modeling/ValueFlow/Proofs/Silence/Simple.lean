import ValueFlow.Proofs.Silence.Expression

/-!
# Silent walks of simple statements

A statement without statements below it is foretold by what it does to the sketch. Notice is given
of a tolerant delete whose target is sure to be unbound, and of an expression that is a literal. No
other simple statement is removed.
-/

namespace ValueFlow
set_option autoImplicit false

namespace Walk

variable {walk : Walk} {id : NodeId} {target : VarId} {version : Option Version}

/-- What the rewrite of a statement leaves, if it is silent. -/
def StaysStmt (walk : Walk) (id : NodeId) (code : Code) (answer : StmtAnswer) (after : Walk) : Prop :=
  answer = stay id ∧ walk.arena.Spliced code after.arena (.one .stmt id)

/-- The rewrite of a statement is foretold by the tree that stands there. -/
abbrev TellsRewrite (act : WalkM StmtAnswer) (walk : Walk) (id : NodeId) (code : Code) : Prop :=
  Tells act walk (code.silent walk.sketch) (walk.StaysStmt id code) fun answer => answer.edit.isSome = true

theorem steady_walkExpr (id : NodeId) : Steady (walkExpr id) :=
  .of_yields (Discipline.yields_walkExpr integrity_law trivial)

theorem tells_rewriteAssign {value : NodeId} {valueCode : Code} (sound : walk.toSite.Sound)
    (found : walk.arena.stmt? id = some (.assign target value version))
    (shows_ : walk.arena.Shows (.one .expr value) valueCode)
    (nodup : (Code.assign id target valueCode version).ids.Nodup) :
    TellsRewrite (rewriteAssign id target value) walk id (.assign id target valueCode version) := by
  obtain ⟨free, nodupValue⟩ := List.nodup_cons.1 nodup
  have steady : ∀ value,
      Steady ((liftM (Site.assign target id) : WalkM Version) >>= fun version =>
        editStmt id (.withBound value version) >>= fun _ => (pure (stay id) : WalkM StmtAnswer)) :=
      fun value => .bind (.of_yields (.lift (integrity_law.assign trivial id))) fun version =>
      .bind (.editStmt id _) fun _ => .pure
  refine .bind (tells_walkExpr sound shows_ nodupValue) sound (steady_walkExpr value) steady ?_
  rintro _ middle drawn ⟨rfl, spliced⟩
  refine .lift_then (Site.draws_assign drawn.sound target id) fun bound site drawnLast _ => ?_
  rw [Tells.editStmt_bind]
  have foundNow := (spliced.stmt?_eq free).trans found
  have edited := Arena.Stays.mapStmt foundNow (.withBound _ bound) fun _ : True => rfl
  refine .pure drawnLast.sound
    ⟨rfl, (spliced.above edited).widen (by simp [Code.ids]) (by simp [Code.isFlat]), ?_⟩
  obtain ⟨newValue, left, same⟩ := spliced.shows_.keep_of_free edited free
  refine ⟨.assign id target newValue (some bound),
    .assign (Arena.stmt?_mapStmt_self foundNow _) left, ?_⟩
  simp only [Code.flat, Code.bare, same]

/-- Whether a delete is idle can be told behind it. -/
theorem tells_isIdleDelete {α : Type} {tolerant unbound : Bool} {prior : TraceKey}
    {next : Bool → WalkM α} {image : Option Sketch} {stayed : α → Walk → Prop} {loud : α → Prop}
    (known : walk.analysis.traces.isSurelyUnbound prior = .ok unbound) :
    Tells (isIdleDelete tolerant prior >>= next) walk image stayed loud ↔
      Tells (next (tolerant && unbound)) walk image stayed loud := by
  unfold isIdleDelete Tells
  cases tolerant with
  | false => exact Iff.rfl
  | true =>
    rw [ends_bind]
    change Ends (ofExcept (walk.analysis.traces.isSurelyUnbound prior)) walk _ _ ↔ _
    rw [known]
    exact Iff.rfl

theorem tells_rewriteDelete {tolerant : Bool} (sound : walk.toSite.Sound)
    (found : walk.arena.stmt? id = some (.delete target tolerant version)) :
    TellsRewrite (rewriteDelete id target tolerant) walk id
      (.delete id target tolerant version) := by
  refine Tells.lift_bind (Site.draws_delete sound target) fun prior site drawn told => ?_
  obtain ⟨unbound, stands, known⟩ := told
  have idle : (tolerant && unbound) = true ↔
      tolerant = true ∧ walk.sketch.stands target = some true := by simp [stands]
  rw [tells_isIdleDelete known]
  by_cases held : tolerant = true ∧ walk.sketch.stands target = some true
  · rw [if_pos held, if_pos (idle.2 held)]
    exact .due drawn.sound rfl
  · rw [if_neg held, if_neg fun both => held (idle.1 both), Tells.scopeHere_bind,
      Tells.editStmt_bind]
    have stays := Arena.Stays.mapStmt found (.withDeleted site.scope.active[target]?)
      fun _ : (Code.delete id target tolerant version).isFlat = true => rfl
    exact .pure drawn.sound
      ⟨rfl, stays, .delete id target tolerant _, .delete (Arena.stmt?_mapStmt_self found _), rfl⟩

theorem tells_rewriteRelease (sound : walk.toSite.Sound)
    (shows_ : walk.arena.Shows (.one .stmt id) (.release id target)) :
    TellsRewrite (rewriteRelease id target) walk id (.release id target) := by
  refine Tells.discard_bind.2
    (.lift_then (Site.draws_release sound target) fun _ site drawn _ => ?_)
  exact .pure drawn.sound ⟨rfl, .refl shows_ rfl⟩

theorem tells_rewriteEffect {expr : NodeId} {exprCode : Code} (sound : walk.toSite.Sound)
    (found : walk.arena.stmt? id = some (.effect expr))
    (shows_ : walk.arena.Shows (.one .expr expr) exprCode)
    (nodup : (Code.effect id exprCode).ids.Nodup) :
    TellsRewrite (rewriteEffect id expr) walk id (.effect id exprCode) := by
  obtain ⟨free, nodupExpr⟩ := List.nodup_cons.1 nodup
  have steady : ∀ expr, Steady (arenaHere >>= fun arena => if (arena.literal? expr).isSome = true
      then (pure (removed "Removed statement without effect.") : WalkM StmtAnswer)
      else editStmt id (.withEffect expr) >>= fun _ => pure (stay id)) := by
    intro expr
    refine .arenaHere_bind fun arena => ?_
    split
    · exact .pure
    · exact .bind (.editStmt id _) fun _ => .pure
  refine .bind (tells_walkExpr sound shows_ nodupExpr) sound (steady_walkExpr expr) steady ?_
  rintro kept middle drawn ⟨rfl, spliced⟩
  rw [Tells.arenaHere_bind]
  obtain ⟨newExpr, left, same⟩ := spliced.shows_
  have literal : middle.arena.literal? kept = exprCode.literal? := by
    rw [left.literal?_eq, ← Code.literal?_bare, same, Code.literal?_bare, shows_.literal?_flat]
  rw [literal]
  split
  · exact .due drawn.sound rfl
  · rw [Tells.editStmt_bind]
    have foundNow := (spliced.stmt?_eq free).trans found
    have edited := Arena.Stays.mapStmt foundNow (.withEffect kept) fun _ : True => rfl
    refine .pure drawn.sound
      ⟨rfl, (spliced.above edited).widen (by simp [Code.ids]) (by simp [Code.isFlat]), ?_⟩
    obtain ⟨newExpr, left, same⟩ := spliced.shows_.keep_of_free edited free
    refine ⟨.effect id newExpr, .effect (Arena.stmt?_mapStmt_self foundNow _) left, ?_⟩
    simp only [Code.flat, Code.bare, same]

/-- An exit parks the scope. -/
theorem tells_rewriteExit {kind : ExitKind} {code : Code} {arena : Arena}
    (sound : walk.toSite.Sound) (spliced : arena.Spliced code walk.arena (.one .stmt id)) :
    Tells (rewriteExit id kind) walk (walk.sketch.exit kind)
      (fun answer after => answer = stay id ∧ arena.Spliced code after.arena (.one .stmt id))
      fun answer => answer.edit.isSome = true := by
  change Tells
    ((liftM (Site.scopeHere >>= fun scope => liftM (Analysis.recordExit kind scope)) :
        WalkM Unit) >>= fun _ => pure (stay id)) walk _ _ _
  exact .lift_then (Site.draws_exit sound kind) fun _ site drawn _ =>
    .pure drawn.sound ⟨rfl, spliced⟩

theorem steady_rewriteExit (id : NodeId) (kind : ExitKind) : Steady (rewriteExit id kind) :=
  .of_yields (Discipline.yields_rewriteExit integrity_law trivial kind)

theorem tells_rewriteReturn {value : Option NodeId} {valueCode : Code} (sound : walk.toSite.Sound)
    (found : walk.arena.stmt? id = some (.ret value))
    (shows_ : walk.arena.Shows (.maybe .expr value) valueCode)
    (nodup : (Code.ret id valueCode).ids.Nodup) :
    TellsRewrite (rewriteResult id value >>= fun _ => rewriteExit id .ret) walk id
      (.ret id valueCode) := by
  cases shows_ with
  | absent =>
    have stays : walk.arena.Shows (.one .stmt id) (.ret id .nil) := .ret found .absent
    exact tells_rewriteExit sound (.refl stays rfl)
  | @present _ value _ here =>
    obtain ⟨free, nodupValue⟩ := List.nodup_cons.1 nodup
    rw [TellsRewrite, rewriteResult, bind_assoc]
    refine .bind (tells_walkExpr sound here nodupValue) sound (steady_walkExpr value)
      (fun value => .bind (.editStmt id _) fun _ => steady_rewriteExit id .ret) ?_
    rintro kept middle drawn ⟨rfl, spliced⟩
    rw [Tells.editStmt_bind]
    have foundNow := (spliced.stmt?_eq free).trans found
    have edited := Arena.Stays.mapStmt foundNow (.withResult kept) fun _ : True => rfl
    obtain ⟨newValue, left, same⟩ := spliced.shows_.keep_of_free edited free
    refine tells_rewriteExit drawn.sound
      ⟨(spliced.above edited).widen (by simp [Code.ids]) (by simp [Code.isFlat]), .ret id newValue,
        .ret (Arena.stmt?_mapStmt_self foundNow _) (.present left), ?_⟩
    simp only [Code.flat, Code.bare, same]

end Walk

end ValueFlow
