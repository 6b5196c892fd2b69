import ValueFlow.Proofs.Renewal.Brackets

/-!
# Expressions and simple statements abreast

A computation agrees with itself on a track if from any two walks beside one another it runs
abreast, with the same answer (`Track.Agrees`). The walk of an expression does, and so do the
rewrites of the statements without statements below them. What differs are the versions that they
note, and no answer depends on these.
-/

namespace ValueFlow
set_option autoImplicit false

namespace Track

variable {track : Track} {frame : Frame} {α β : Type} {left right : Walk}

/-- The computation runs abreast of itself wherever two walks are beside one another, with the same
answer, which is as described. -/
def Agrees (track : Track) (act : WalkM α) (given : α → Prop) : Prop :=
  ∀ frame left right, track.Beside track.ofWalk frame left right → track.Concurs track.ofWalk frame act left act right (Same given)

namespace Agrees

variable {given : α → Prop} {last : β → Prop} {act : WalkM α}

/-- The form for two given walks. -/
theorem concurs (agrees : track.Agrees act given)
    (beside : track.Beside track.ofWalk frame left right) :
    track.Concurs track.ofWalk frame act left act right (Same given) :=
      agrees frame left right beside

theorem pure {value : α} (held : given value) : track.Agrees (Pure.pure value) given :=
  fun _ _ _ beside => .pure beside ⟨rfl, held⟩

theorem throw {fault : Fault} : track.Agrees (MonadExcept.throw fault : WalkM α) given :=
  fun _ _ _ beside => .throw beside

theorem bind {next : α → WalkM β} (first : track.Agrees act given)
    (rest : ∀ value, given value → track.Agrees (next value) last) :
    track.Agrees (act >>= next) last := by
  refine fun _ _ _ beside => .bind (first.concurs beside) ?_
  rintro value _ _ _ onward ⟨rfl, held⟩
  exact (rest _ held).concurs onward.toBeside

theorem map {f : α → β} (agrees : track.Agrees act given)
    (further : ∀ value, given value → last (f value)) :
    track.Agrees (act >>= fun value => Pure.pure (f value)) last :=
  agrees.bind fun value held => .pure (further value held)

theorem mapM {items : List α} {each : α → WalkM β}
    (agrees : ∀ item, track.Agrees (each item) fun _ => True) :
    track.Agrees (items.mapM each) fun _ => True := by
  induction items with
  | nil => exact .pure trivial
  | cons item rest ih =>
    rw [List.mapM_cons]
    exact (agrees item).bind fun _ _ => ih.map fun _ _ => trivial

/-- An operation on the scope of no interesting answer. -/
theorem lift {act : SiteM PUnit}
    (concurs : ∀ {frame left right}, track.Beside .ofSite frame left right →
      track.Concurs .ofSite frame act left act right fun _ _ _ _ => True) :
    track.Agrees (liftM act : WalkM PUnit) fun _ => True :=
  fun _ _ _ beside => (Concurs.lift beside (concurs beside.sites)).mono
    fun _ _ _ _ _ _ => ⟨rfl, trivial⟩

theorem signal (id : NodeId) (edit : Option Edit) :
    track.Agrees (Walk.signal id edit) fun _ => True :=
  fun _ _ _ beside => (Concurs.signal beside id edit).mono fun _ _ _ _ _ _ => ⟨rfl, trivial⟩

theorem editStmt {id : NodeId} {edit shape : Stmt → Stmt}
    (bare : ∀ stmt, (edit stmt).bare = shape stmt.bare)
    (keeps : ∀ stmt, track.region.HasStmt stmt → track.region.HasStmt (edit stmt))
    (same : ∀ stmt, (edit stmt).tolerated? = stmt.tolerated?) :
    track.Agrees (Walk.editStmt id edit) fun _ => True :=
  fun _ _ _ beside => (Concurs.editStmt id shape beside bare bare keeps same).mono
    fun _ _ _ _ _ _ => ⟨rfl, trivial⟩

theorem editExpr {id : NodeId} {edit shape : Expr → Expr}
    (bare : ∀ expr, (edit expr).bare = shape expr.bare)
    (keeps : ∀ expr, track.region.HasExpr expr → track.region.HasExpr (edit expr)) :
    track.Agrees (Walk.editExpr id edit) fun _ => True :=
  fun _ _ _ beside => (Concurs.editExpr id shape beside bare bare keeps).mono
    fun _ _ _ _ _ _ => ⟨rfl, trivial⟩

/-- The variable that is read where an unbound local is named is the same on both sides. -/
theorem fallback_bind (var : VarId) {next : Option VarId → WalkM α}
    (rest : ∀ other, track.Agrees (next other) given) :
    track.Agrees (Walk.fallback? var >>= next) given := by
  intro frame left right beside
  change track.Concurs _ _ (next ((left.analysis.vars.get? var).bind (·.storage.fallback?))) _
    (next ((right.analysis.vars.get? var).bind (·.storage.fallback?))) _ _
  rw [beside.fallback]
  exact (rest _).concurs beside

theorem pushLike (old : NodeId) {node : Node}
    (stmt : ∀ stmt ∈ node.stmt?, stmt.children = [] ∧ stmt.tolerated? = none) :
    track.Agrees (Walk.pushLike old node) track.stmts :=
  fun _ _ _ beside => .pushLike beside stmt

end Agrees

section Expressions

theorem agrees_countRead (id : NodeId) : track.Agrees (Walk.countRead id) fun _ => True := by
  intro frame left right beside
  refine .arenaHere_bind ?_
  have notes (var : VarId) : track.Agrees (liftM (Site.read var) : WalkM Unit) fun _ => True :=
    .lift fun beside => .read beside var
  have reads {next : Option VarId → WalkM Unit} (var : VarId)
      (none_ : track.Agrees (next none) fun _ => True)
      (some_ : ∀ other, track.Agrees (next (some other)) fun _ => True) :=
    ((notes var).bind fun _ _ =>
      .fallback_bind var fun other => other.rec none_ some_).concurs beside
  rcases Arena.expr?_of_bare beside.fits.bare id with same | ⟨var, seen, late, found, foundRight⟩
  · rw [same]
    cases left.arena.expr? id with
    | none => exact .pure beside ⟨rfl, trivial⟩
    | some expr =>
      cases expr with
      | read var seen => exact reads var (.pure trivial) notes
      | _ => exact .pure beside ⟨rfl, trivial⟩
  · rw [found, foundRight]
    exact reads var (.pure trivial) notes

theorem agrees_rewriteBuiltin (id : NodeId) (name : String) :
    track.Agrees (Walk.rewriteBuiltin id name) fun _ => True := by
  intro frame left right beside
  refine .get_bind ?_
  have options : right.analysis.options = left.analysis.options :=
    beside.matches_.optionsSecond.trans beside.matches_.optionsFirst.symm
  rw [options]
  cases builtinValue? left.analysis.options name with
  | none => exact .pure beside ⟨rfl, trivial⟩
  | some value =>
    exact ((Agrees.pushLike id (by simp [Node.stmt?])).map fun _ _ => trivial).concurs beside

theorem agrees_assumeDynamicNames :
    track.Agrees (liftM Analysis.assumeDynamicNames : WalkM Unit) fun _ => True := by
  intro frame left right beside
  unfold Concurs Abreast Analysis.assumeDynamicNames
  rw [ends_liftAnalysisWalk, ends_modify, ends_liftAnalysisWalk, ends_modify]
  exact ⟨{ beside with
    soundLeft := ⟨beside.soundLeft.analysis.unseen _ true, beside.soundLeft.scope⟩
    soundRight := ⟨beside.soundRight.analysis.unseen _ true, beside.soundRight.scope⟩
    growsLeft := ⟨.refl _, .refl _, .refl _, rfl, Nat.le_refl _⟩
    growsRight := ⟨.refl _, .refl _, .refl _, rfl, Nat.le_refl _⟩
    within := .refl _ }, rfl, trivial⟩

section Operands

variable {visit : NodeId → WalkM NodeId} (visits : ∀ id, track.Agrees (visit id) fun _ => True)
  (id : NodeId)
include visits

theorem agrees_rewriteCall (callee : NodeId) (args : List NodeId) :
    track.Agrees (Walk.rewriteCall visit id callee args) fun _ => True := by
  refine (visits callee).bind fun callee _ => (Agrees.mapM visits).bind fun args _ => ?_
  have edits : track.Agrees (Walk.editExpr id (.withCall callee args)) fun _ => True :=
    .editExpr (fun expr => expr.bare_withCall callee args) fun _ has => has.withCall trivial
      fun _ _ => trivial
  exact edits.bind fun _ _ => (Agrees.lift fun beside => .escapeAll beside).map fun _ _ => trivial

theorem agrees_rewriteEval (source : NodeId) :
    track.Agrees (Walk.rewriteEval visit id source) fun _ => True := by
  refine (visits source).bind fun source _ => ?_
  have edits : track.Agrees (Walk.editExpr id (.withSource source)) fun _ => True :=
    .editExpr (fun expr => expr.bare_withSource source) fun _ has => has.withSource trivial
  exact edits.bind fun _ _ => agrees_assumeDynamicNames.bind fun _ _ =>
    (Agrees.lift fun beside => .escapeAll beside).map fun _ _ => trivial

end Operands

theorem agrees_rewriteExpr {visit : NodeId → WalkM NodeId}
    (visits : ∀ id, track.Agrees (visit id) fun _ => True) (id : NodeId) :
    track.Agrees (Walk.rewriteExpr visit id) fun _ => True := by
  intro frame left right beside
  -- The versions that the two sides see at a read need not be the same.
  have reads (var : VarId) : track.Agrees (Walk.rewriteRead id var) fun _ => True := by
    refine fun _ _ _ beside => .bind (.lift beside (.currentVersion beside.sites var))
      fun version _ other _ onward _ => ?_
    have edits := Concurs.editExpr id (fun expr => expr) onward.toBeside
      (fun expr => expr.bare_withSeen version) (fun expr => expr.bare_withSeen other) fun _ has =>
      has.withSeen version
    exact .bind edits fun _ _ _ _ onward _ => .pure onward.toBeside ⟨rfl, trivial⟩
  refine .arenaHere_bind ?_
  rcases Arena.expr?_of_bare beside.fits.bare id with same | ⟨var, seen, late, found, foundRight⟩
  · rw [same]
    cases left.arena.expr? id with
    | none => exact .throw beside
    | some expr =>
      cases expr with
      | literal value => exact .pure beside ⟨rfl, trivial⟩
      | read var seen => exact (reads var).concurs beside
      | builtin name => exact (agrees_rewriteBuiltin id name).concurs beside
      | call callee args => exact (agrees_rewriteCall visits id callee args).concurs beside
      | eval source => exact (agrees_rewriteEval visits id source).concurs beside
  · rw [found, foundRight]
    exact (reads var).concurs beside

theorem agrees_walkExprWithin (depth : Nat) (id : NodeId) :
    track.Agrees (Walk.walkExprWithin depth id) fun _ => True := by
  induction depth generalizing id with
  | zero => exact .throw
  | succ depth ih =>
    exact (agrees_rewriteExpr ih id).bind fun answer _ => (Agrees.signal id answer.edit).bind
      fun _ _ => (agrees_countRead answer.node).map fun _ _ => trivial

theorem agrees_walkExpr (id : NodeId) : track.Agrees (Walk.walkExpr id) fun _ => True := by
  intro frame left right beside
  refine .arenaHere_bind ?_
  rw [beside.ask Arena.size Arena.size_bare]
  exact (agrees_walkExprWithin _ id).concurs beside

end Expressions

/-- The answer of a rewrite names a statement of the track, if any. -/
abbrev Inside (track : Track) (answer : Walk.StmtAnswer) : Prop := ∀ node ∈ answer.node, track.stmts node

theorem inside_stay {id : NodeId} (mem : track.stmts id) : track.Inside (Walk.stay id) := by
  rintro node ⟨⟩
  exact mem

section Simple

variable {id : NodeId} (mem : track.stmts id)
include mem

theorem agrees_rewriteAssign (target : VarId) (value : NodeId) :
    track.Agrees (Walk.rewriteAssign id target value) track.Inside := by
  refine .bind (agrees_walkExpr value) fun value _ _ _ _ beside => ?_
  refine .bind (.lift beside (.assign beside.sites target id)) fun version _ other _ onward _ => ?_
  have edits := Concurs.editStmt id (fun stmt => (stmt.withBound value .entry).bare) onward.toBeside
    (fun stmt => stmt.bare_withBound value version) (fun stmt => stmt.bare_withBound value other)
    (fun _ has => has.withBound trivial version) fun stmt => by cases stmt <;> rfl
  exact .bind edits fun _ _ _ _ onward _ => .pure onward.toBeside ⟨rfl, inside_stay mem⟩

/-- Whether a delete is idle is the same on both sides, for a tolerant one may be cleared. -/
theorem agrees_rewriteDelete (target : VarId) (tolerant : Bool)
    (clears : tolerant = true → track.clears target) :
    track.Agrees (Walk.rewriteDelete id target tolerant) track.Inside := by
  refine fun frame _ _ beside => .bind (.lift beside (.delete beside.sites target)) ?_
  rintro prior after other afterRight onward ⟨unbound, unboundRight, told, toldRight, same⟩
  have idle : track.Concurs track.ofWalk frame (Walk.isIdleDelete tolerant prior) after
      (Walk.isIdleDelete tolerant other) afterRight
      (Same fun _ => True) := by
    unfold Walk.isIdleDelete
    cases tolerant with
    | false => exact .pure onward.toBeside ⟨rfl, trivial⟩
    | true =>
      refine .get_bind ?_
      rw [told, toldRight]
      exact .pure onward.toBeside ⟨same (clears rfl), trivial⟩
  refine .bind idle ?_
  rintro _ _ answer _ onward ⟨rfl, -⟩
  cases answer with
  | true => exact .pure onward.toBeside ⟨rfl, nofun⟩
  | false =>
    have edits (version other : Option Version) :=
      Concurs.editStmt id (fun stmt => stmt) onward.toBeside
        (fun stmt => stmt.bare_withDeleted version) (fun stmt => stmt.bare_withDeleted other)
        (fun _ has => has.withDeleted version) fun stmt => by cases stmt <;> rfl
    exact .scopeHere_bind
      (.bind (edits _ _) fun _ _ _ _ onward _ => .pure onward.toBeside ⟨rfl, inside_stay mem⟩)

theorem agrees_rewriteRelease (target : VarId) :
    track.Agrees (Walk.rewriteRelease id target) track.Inside := by
  refine fun _ _ _ beside => .bind (.discard (.lift beside (.release beside.sites target)))
    fun _ _ _ _ onward _ => ?_
  exact .pure onward.toBeside ⟨rfl, inside_stay mem⟩

theorem agrees_rewriteEffect (expr : NodeId) :
    track.Agrees (Walk.rewriteEffect id expr) track.Inside := by
  refine .bind (agrees_walkExpr expr) fun expr _ _ left right beside => .arenaHere_bind ?_
  have literal : right.arena.literal? expr = left.arena.literal? expr :=
    beside.ask (·.literal? expr) (Arena.literal?_bare · expr)
  rw [literal]
  split
  · exact .pure beside ⟨rfl, nofun⟩
  · have edits : track.Agrees (Walk.editStmt id (.withEffect expr)) fun _ => True :=
      .editStmt (fun stmt => stmt.bare_withEffect expr) (fun _ has => has.withEffect trivial)
        fun stmt => by cases stmt <;> rfl
    exact (edits.map fun _ _ => inside_stay mem).concurs beside

omit mem in
theorem agrees_rewriteResult (id : NodeId) (value : Option NodeId) :
    track.Agrees (Walk.rewriteResult id value) fun _ => True := by
  cases value with
  | none => exact .pure trivial
  | some value =>
    refine .bind (agrees_walkExpr value) fun result _ => ?_
    exact .editStmt (fun stmt => stmt.bare_withResult result) (fun _ has => has.withResult trivial)
      fun stmt => by cases stmt <;> rfl

theorem agrees_rewriteExit (kind : ExitKind) :
    track.Agrees (Walk.rewriteExit id kind) track.Inside :=
  Agrees.map (.lift fun beside => .exit beside kind) fun _ _ => inside_stay mem

end Simple

end Track

end ValueFlow
