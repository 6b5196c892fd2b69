import ValueFlow.Proofs.Discipline.Basic

/-!
# Walks keep to every discipline

From the law of a discipline: the operations on a scope, and the walks of an expression, of a
statement and of a body, keep to it from any ready state and wherever they end. A walk that starts
in the region answers with a node of the region.
-/

namespace ValueFlow
set_option autoImplicit false

namespace Walk

/-- A read notes the version that is current. -/
def rewriteRead (id : NodeId) (var : VarId) : WalkM (Rewritten NodeId) := do
  let version ← Site.currentVersion var
  editExpr id (.withSeen version)
  pure (.unchanged id)

/-- The operands of a call are walked, and then it may rebind what code elsewhere may reach. -/
def rewriteCall (visit : NodeId → WalkM NodeId) (id callee : NodeId) (args : List NodeId) :
    WalkM (Rewritten NodeId) := do
  let callee ← visit callee
  let args ← args.mapM visit
  editExpr id (.withCall callee args)
  Site.escapeAll
  pure (.unchanged id)

/-- The source text is walked, and then it may use any name, and may rebind like a call. -/
def rewriteEval (visit : NodeId → WalkM NodeId) (id source : NodeId) :
    WalkM (Rewritten NodeId) := do
  let source ← visit source
  editExpr id (.withSource source)
  Analysis.assumeDynamicNames
  Site.escapeAll
  pure (.unchanged id)

/-- What is done with a conditional once its arms were walked. -/
def behindArms (id cond : NodeId) (yes no : Option NodeId × Arm) : WalkM StmtAnswer := do
  joinBehind yes.2 no.2
  match yes.1, no.1 with
  | none, none => do
    let effect ← pushLike id (.stmt (.effect cond))
    pure (.changed (some effect) .statements "Removed conditional statement without effect.")
  | yes, no => do
    editStmt id (.withArms cond yes no)
    pure (stay id)

/-- What is done with a conditional once its condition was walked. -/
def behindCond (visit : NodeId → WalkM (Option NodeId)) (id : NodeId) (yes no : Option NodeId) (cond : NodeId) : WalkM StmtAnswer := do
  match (← arenaHere).literal? cond with
  | some value => takeArm visit value.isTruthy yes no
  | none => do
    let yesAnswer ← walkArm visit "branch yes" yes
    let noAnswer ← walkArm visit "branch no" no
    behindArms id cond yesAnswer noAnswer

theorem rewriteBranch_eq (visit : NodeId → WalkM (Option NodeId)) (id cond : NodeId)
    (yes no : Option NodeId) :
    rewriteBranch visit id cond yes no = walkExpr cond >>= behindCond visit id yes no := rfl

/-- What is done with a loop once its body was walked. -/
def behindBody (id : NodeId) (node : Option NodeId) (breaks : List Scope) : WalkM StmtAnswer := do
  let left ← trimBody node
  editStmt id (.withBody left.node)
  joinBreaks breaks
  if left.node.any (isLoneBreak (← arenaHere)) then
    pure (removed "Removed useless loop with immediate 'break' statement.")
  else
    pure ⟨some id, left.edit⟩

theorem rewriteLoop_eq (visit : NodeId → WalkM (Option NodeId)) (id body : NodeId) :
    rewriteLoop visit id (some body) = arenaHere >>= fun arena =>
      if (arena.block? body).isNone = true then throw (.wrongShape body "a statement sequence")
      else walkLoopBody visit body >>= fun answer => behindBody id answer.1 answer.2 := by
  unfold rewriteLoop
  refine congrArg (arenaHere >>= ·) (funext fun arena => ?_)
  split <;> rfl

/-- What is done with a function once its body was walked. -/
def behindFunction (node : Option NodeId) (returns : List Scope) : WalkM (Option NodeId) := do
  match ← functionExits node returns with
  | [] => pure ()
  | exits => Site.join exits
  pure node

/-- Walks the body of a function, and answers with the scopes at its returns. -/
def walkCaught (body : NodeId) : WalkM (Option NodeId × List Scope) := catching .byFunction do
  let node ← walkStmt body
  pure (node, ← Analysis.takeExits .byFunction .ret)

theorem walkFunction_eq (body : NodeId) :
    walkFunction body = walkCaught body >>= fun answer => behindFunction answer.1 answer.2 :=
  rfl

end Walk

namespace Discipline

variable {D : Discipline}

theorem Holds.scopeHere_bind {β : Type} {site : Site} {next : Scope → SiteM β}
    {gives : β → Site → Prop} (rest : D.Holds .ofSite (next site.scope) site gives) :
    D.Holds .ofSite (Site.scopeHere >>= next) site gives := rest

namespace Law

variable (law : D.Law)
include law

theorem assign {var : VarId} (bound : D.region.writes var) (node : NodeId) :
    D.Obeys .ofSite (Site.assign var node) :=
  Obeys.bind law (law.write var _ bound (Origin.isWrite_assigned node)) fun _ => .pure law trivial

theorem forget {var : VarId} (bound : D.region.writes var) : D.Obeys .ofSite (Site.forget var) :=
  Obeys.bind law (law.write var _ bound Origin.isWrite_unknown) fun _ => .pure law trivial

theorem forgetAll {vars : List VarId} (bound : ∀ var ∈ vars, D.region.writes var) :
    D.Obeys .ofSite (Site.forgetAll vars) :=
  .forM law fun var mem => (law.forget (bound var mem)).discard

theorem scopeHere : D.Obeys .ofSite Site.scopeHere :=
  .get_bind fun _ _ => .pure law trivial

theorem escapeAll (calls : D.region.calls) : D.Obeys .ofSite Site.escapeAll :=
  Obeys.bind law law.scopeHere fun _ => .forM law fun var _ => law.escape calls var

theorem joinArms {yes no : Option Scope} {site : Site} (ready : D.Ready .ofSite site)
    (yesGood : ∀ path ∈ yes, D.good path site.analysis)
    (noGood : ∀ path ∈ no, D.good path site.analysis) :
    D.Holds .ofSite (Site.joinArms yes no) site fun _ _ => True := by
  have own : D.good site.scope site.analysis := ready.good
  cases yes with
  | none =>
    cases no with
    | none => exact .pure law ready trivial
    | some path =>
      exact .scopeHere_bind (law.join _ _ (by simp) ready (by simpa using ⟨own, noGood path rfl⟩))
  | some yesPath =>
    cases no with
    | none =>
      exact .scopeHere_bind
        (law.join _ _ (by simp) ready (by simpa using ⟨own, yesGood yesPath rfl⟩))
    | some noPath =>
      exact law.join [yesPath, noPath] site (by simp) ready
        (by simpa using ⟨yesGood yesPath rfl, noGood noPath rfl⟩)

end Law

section Brackets

variable {α : Type} {act : WalkM α} {given : α → Prop}

theorem Ready.site {walk : Walk} (ready : D.Ready D.ofWalk walk) : D.Ready .ofSite walk.toSite :=
  ⟨ready.good, trivial⟩

theorem Kept.ofSite {walk : Walk} {site : Site} (kept : D.Kept .ofSite walk.toSite site)
    (ready : D.Ready D.ofWalk walk) : D.Kept D.ofWalk walk { walk with toSite := site } :=
  ⟨⟨kept.good, ready.fits⟩, kept.grows⟩

theorem Holds.lift {act : SiteM α} {walk : Walk} {gives : α → Site → Prop}
    (ready : D.Ready D.ofWalk walk) (holds : D.Holds .ofSite act walk.toSite gives) :
    D.Holds D.ofWalk (liftM act : WalkM α) walk fun value after => gives value after.toSite :=
  ends_liftSite.2 (Ends.mono holds (fun _ _ told => ⟨told.1.ofSite ready, told.2⟩)
    fun _ _ fell => ⟨fell.1.ofSite ready, fell.2⟩)

theorem Yields.lift {act : SiteM α} (yields : D.Yields .ofSite act given) :
    D.Yields D.ofWalk (liftM act : WalkM α) given :=
  fun walk ready => .lift ready (yields walk.toSite ready.site)

theorem Holds.arenaHere_bind {β : Type} {walk : Walk} {next : Arena → WalkM β}
    {gives : β → Walk → Prop} (rest : D.Holds D.ofWalk (next walk.arena) walk gives) :
    D.Holds D.ofWalk (Walk.arenaHere >>= next) walk gives := rest

theorem Holds.scopeHere_bindWalk {β : Type} {walk : Walk} {next : Scope → WalkM β}
    {gives : β → Walk → Prop} (rest : D.Holds D.ofWalk (next walk.scope) walk gives) :
    D.Holds D.ofWalk (liftM Site.scopeHere >>= next) walk gives := rest

theorem Yields.arenaHere_bind {β : Type} {next : Arena → WalkM β} {given : β → Prop}
    (rest : ∀ arena, D.region.Encloses arena → D.Yields D.ofWalk (next arena) given) :
    D.Yields D.ofWalk (Walk.arenaHere >>= next) given :=
  fun walk ready => .arenaHere_bind (rest walk.arena ready.fits walk ready)

variable (law : D.Law)
include law

/-- A change of the arena has only the region to keep to. -/
theorem Yields.edit {change : Walk → Arena}
    (keeps : ∀ walk, D.region.Encloses walk.arena → D.region.Encloses (change walk)) :
    D.Obeys D.ofWalk (modify fun walk => { walk with arena := change walk } : WalkM Unit) :=
  fun walk ready => ends_modify.2 ⟨⟨⟨ready.good, keeps walk ready.fits⟩, law.refl _⟩, trivial⟩

theorem Yields.editStmt (id : NodeId) {edit : Stmt → Stmt}
    (keeps : ∀ stmt, D.region.HasStmt stmt → D.region.HasStmt (edit stmt)) :
    D.Obeys D.ofWalk (Walk.editStmt id edit) :=
  .edit law fun _ encloses => encloses.mapStmt keeps

theorem Yields.editExpr (id : NodeId) {edit : Expr → Expr}
    (keeps : ∀ expr, D.region.HasExpr expr → D.region.HasExpr (edit expr)) :
    D.Obeys D.ofWalk (Walk.editExpr id edit) :=
  .edit law fun _ encloses => encloses.mapExpr keeps

/-- A node is added in the region. -/
theorem Yields.pushLike (old : NodeId) {node : Node}
    (stmt : ∀ stmt ∈ node.stmt?, D.region.HasStmt stmt)
    (expr : ∀ expr ∈ node.expr?, D.region.HasExpr expr) :
    D.Yields D.ofWalk (Walk.pushLike old node) fun id => D.region.stmts id ∧ D.region.exprs id := by
  refine .arenaHere_bind fun arena encloses => Obeys.bind law (.edit law fun walk _ => ?_)
    fun _ => .pure law ?_
  · exact encloses.push _ stmt expr
  · exact encloses.beyond _ (Nat.le_refl _)

theorem Yields.signal (id : NodeId) (edit : Option Edit) :
    D.Obeys D.ofWalk (Walk.signal id edit) := by
  cases edit with
  | none => exact .pure law trivial
  | some edit =>
    refine .arenaHere_bind fun arena _ walk ready => ?_
    unfold Holds Analysis.signal
    rw [ends_liftAnalysisWalk, ends_modify]
    obtain ⟨good, grows⟩ :=
      law.unseen walk.analysis.dynamicNames
        (EditLog.size_le_signal walk.analysis.edits edit (arena.span id)) ready.good
    exact ⟨⟨⟨good, ready.fits⟩, grows⟩, trivial⟩

theorem Yields.located (span : Span) (yields : D.Yields D.ofWalk act given) :
    D.Yields D.ofWalk (Walk.located span act) given := by
  intro walk ready
  exact ends_located.2 (Ends.mono (yields walk ready) (fun _ _ told => told)
    fun _ _ fell => ⟨fell.1, law.within span fell.2⟩)

/-- A part of a walk in a fork of the scope: the scope around it stays good, and so is the
fork's. -/
theorem Holds.inFork {walk : Walk} {label : String} {gives : α → Walk → Prop}
    (ready : D.Ready D.ofWalk walk)
    (inner : D.Holds D.ofWalk act { walk with scope := walk.scope.fork label } gives) :
    D.Holds D.ofWalk (Walk.inFork label act) walk fun answer after =>
      D.good answer.2 after.analysis ∧ gives answer.1 { after with scope := answer.2 } := by
  have outer {after : Walk}
      (kept : D.Kept D.ofWalk { walk with scope := walk.scope.fork label } after) :
      D.Kept D.ofWalk walk { after with scope := walk.scope } :=
    ⟨⟨law.carry ready.good kept.good kept.grows, kept.fits⟩, kept.grows⟩
  exact ends_inFork.2 (Ends.mono inner (fun _ _ told => ⟨outer told.1, told.1.good, told.2⟩)
    fun _ _ fell => ⟨outer fell.1, fell.2⟩)

/-- A part of a walk inside a construct that takes out in the end what was collected of a kind it
catches. Only the registry of the construct itself is emptied, which does not show behind it. -/
theorem Holds.collecting {walk : Walk} {caught : Catch} {kind : ExitKind}
    (catches : caught.catches kind = true) (collects : D.Collects kind)
    (ready : D.Ready D.ofWalk walk)
    (inner : D.Holds D.ofWalk act { walk with analysis := walk.analysis.inside caught }
      fun value _ => given value) :
    D.Holds D.ofWalk
      (Walk.catching caught
        (act >>= fun value => do return (value, ← Analysis.takeExits caught kind))) walk
      fun answer after => given answer.1 ∧ ∀ path ∈ answer.2, D.good path after.analysis := by
  have put {after : Walk}
      (kept : D.Kept D.ofWalk { walk with analysis := walk.analysis.inside caught } after)
      {scope : Scope} (fits : D.good scope after.analysis) :=
        law.behind caught ready.good fits kept.grows
  refine ends_catching.2 (ends_bind.2 (Ends.mono inner ?_ ?_))
  · rintro value after ⟨kept, held⟩
    refine ends_bind.2
      (ends_liftAnalysisWalk.2 ((Analysis.ends_takeExits caught).mono ?_ fun _ _ impossible =>
          impossible.elim))
    have left : D.Kept D.ofWalk walk (after.leaveRegistries caught walk.analysis.exits) :=
      ⟨⟨(put kept kept.good).1, kept.fits⟩, (put kept kept.good).2⟩
    rintro snapshots state (⟨-, opened, rfl⟩ | ⟨rfl, -, rfl⟩)
    · have same : Walk.leaveRegistries
          { after with analysis := after.analysis.withSnapshots kind [] } caught
          walk.analysis.exits =
          after.leaveRegistries caught walk.analysis.exits := by
        unfold Walk.leaveRegistries Analysis.withSnapshots
        rw [Exits.leave_set _ _ catches]
      rw [ends_pure, same]
      exact ⟨left, held,
        fun path mem =>
        (put kept (collects caught catches kept.good kept.grows _ opened path mem)).1⟩
    · exact ⟨left, held, by simp⟩
  · rintro fault after ⟨kept, allowed⟩
    obtain ⟨good, grows⟩ := put kept kept.good
    exact ⟨⟨⟨good, kept.fits⟩, grows⟩, allowed⟩

end Brackets

section Walks

variable (law : D.Law)
include law

theorem obeys_countRead (id : NodeId) : D.Obeys D.ofWalk (Walk.countRead id) := by
  refine .arenaHere_bind fun arena _ => ?_
  split
  · refine Obeys.bind law (.lift (law.read _)) fun _ => ?_
    refine Obeys.bind law (Yields.get_bind fun _ _ => .pure law trivial) fun other => ?_
    split
    · exact .lift (law.read _)
    · exact .pure law trivial
  · exact .pure law trivial

theorem yields_rewriteBuiltin {id : NodeId} (mem : D.region.exprs id) (name : String) :
    D.Yields D.ofWalk (Walk.rewriteBuiltin id name) fun answer => D.region.exprs answer.node := by
  unfold Walk.rewriteBuiltin
  refine .get_bind fun walk _ => ?_
  split
  · exact .pure law mem
  · refine .bind law (.pushLike law id nofun fun expr same => ?_) fun folded held =>
      .pure law held.2
    obtain rfl := Option.some.inj same
    exact ⟨nofun, nofun⟩

theorem obeys_assumeDynamicNames :
    D.Obeys D.ofWalk (liftM Analysis.assumeDynamicNames : WalkM Unit) := by
  intro walk ready
  unfold Holds Analysis.assumeDynamicNames
  rw [ends_liftAnalysisWalk, ends_modify]
  obtain ⟨good, grows⟩ := law.unseen true (Nat.le_refl walk.analysis.edits.size) ready.good
  exact ⟨⟨⟨good, ready.fits⟩, grows⟩, trivial⟩

theorem yields_rewriteExpr {visit : NodeId → WalkM NodeId}
    (visits : ∀ id, D.region.exprs id → D.Yields D.ofWalk (visit id) D.region.exprs) {id : NodeId}
    (mem : D.region.exprs id) :
    D.Yields D.ofWalk (Walk.rewriteExpr visit id) fun answer => D.region.exprs answer.node := by
  refine .arenaHere_bind fun arena encloses => ?_
  split
  · exact .throw law (law.wrongShape id _)
  · exact .pure law mem
  · exact Obeys.bind law (.lift (law.current _)) fun version =>
      Obeys.bind law (.editExpr law id fun _ has => has.withSeen version) fun _ => .pure law mem
  · exact yields_rewriteBuiltin law mem _
  · rename_i callee args found
    have has := encloses.expr id _ mem found
    refine .bind law (visits callee (has.operands callee (by simp [Expr.operands])))
      fun newCallee fits => ?_
    refine .bind law
      (.mapM law fun arg held => visits arg (has.operands arg (by simp [Expr.operands, held])))
      fun newArgs fitsArgs => ?_
    exact Obeys.bind law (.editExpr law id fun _ has => has.withCall fits fitsArgs) fun _ =>
      Obeys.bind law (.lift (law.escapeAll (has.calls rfl))) fun _ => .pure law mem
  · rename_i source found
    have has := encloses.expr id _ mem found
    refine .bind law (visits source (has.operands source (by simp [Expr.operands])))
      fun newSource fits => ?_
    exact Obeys.bind law (.editExpr law id fun _ has => has.withSource fits) fun _ =>
      Obeys.bind law (obeys_assumeDynamicNames law) fun _ =>
        Obeys.bind law (.lift (law.escapeAll (has.calls rfl))) fun _ => .pure law mem

theorem yields_walkExprWithin (depth : Nat) {id : NodeId} (mem : D.region.exprs id) :
    D.Yields D.ofWalk (Walk.walkExprWithin depth id) D.region.exprs := by
  induction depth generalizing id with
  | zero => exact .throw law (law.cyclicNesting id)
  | succ depth ih =>
    refine .bind law (yields_rewriteExpr law (fun _ => ih) mem) fun answer held => ?_
    exact Obeys.bind law (.signal law id _) fun _ => Obeys.bind law (obeys_countRead law _)
      fun _ => .pure law held

theorem yields_walkExpr {id : NodeId} (mem : D.region.exprs id) :
    D.Yields D.ofWalk (Walk.walkExpr id) D.region.exprs :=
  .arenaHere_bind fun _ _ => yields_walkExprWithin law _ mem

/-- The answer of a rewrite names a node of the region, if any. -/
abbrev AnswersInside (D : Discipline) (answer : Walk.StmtAnswer) : Prop := ∀ node ∈ answer.node, D.region.stmts node

omit law in
theorem answersInside_stay {id : NodeId} (mem : D.region.stmts id) :
    D.AnswersInside (Walk.stay id) := by
  rintro node ⟨⟩
  exact mem

omit law in
theorem answersInside_removed (message : String) : D.AnswersInside (Walk.removed message) := nofun

theorem yields_rewriteAssign {id : NodeId} (mem : D.region.stmts id) {target : VarId}
    {value : NodeId} (writes : D.region.writes target) (inside : D.region.exprs value) :
    D.Yields D.ofWalk (Walk.rewriteAssign id target value) D.AnswersInside := by
  refine .bind law (yields_walkExpr law inside) fun value fits => ?_
  refine Obeys.bind law (.lift (law.assign writes id)) fun version => ?_
  exact Obeys.bind law (.editStmt law id fun _ has => has.withBound fits version) fun _ =>
    .pure law (answersInside_stay mem)

theorem yields_rewriteDelete {id : NodeId} (mem : D.region.stmts id) {target : VarId}
    (writes : D.region.writes target) (tolerant : Bool) :
    D.Yields D.ofWalk (Walk.rewriteDelete id target tolerant) D.AnswersInside := by
  intro walk ready
  refine .bind law (.lift ready (law.delete target walk.toSite writes ready.site))
    fun prior deleted kept told => ?_
  have asked : D.Holds D.ofWalk (Walk.isIdleDelete tolerant prior) deleted fun _ _ => True := by
    unfold Walk.isIdleDelete
    cases tolerant with
    | false => exact .pure law kept.toReady trivial
    | true =>
      unfold Holds
      rw [if_pos rfl, ends_bind, ends_get]
      cases answer : deleted.analysis.traces.isSurelyUnbound prior with
      | ok unbound => exact ⟨.refl law kept.toReady, trivial⟩
      | error fault => exact ⟨.refl law kept.toReady, told fault answer⟩
  refine .bind law asked fun idle after kept _ => ?_
  cases idle with
  | true => exact .pure law kept.toReady (answersInside_removed _)
  | false =>
    have left : D.Yields D.ofWalk (liftM Site.scopeHere >>= fun scope =>
        Walk.editStmt id (.withDeleted scope.active[target]?) >>= fun _ => pure (Walk.stay id))
          D.AnswersInside :=
      Obeys.bind law (.lift law.scopeHere) fun scope =>
        Obeys.bind law (.editStmt law id fun _ has => has.withDeleted _) fun _ =>
        .pure law (answersInside_stay mem)
    exact left after kept.toReady

theorem yields_rewriteEffect {id : NodeId} (mem : D.region.stmts id) {expr : NodeId}
    (inside : D.region.exprs expr) :
    D.Yields D.ofWalk (Walk.rewriteEffect id expr) D.AnswersInside := by
  refine .bind law (yields_walkExpr law inside) fun expr fits => .arenaHere_bind fun arena _ => ?_
  split
  · exact .pure law (answersInside_removed _)
  · exact Obeys.bind law (.editStmt law id fun _ has => has.withEffect fits) fun _ =>
      .pure law (answersInside_stay mem)

theorem yields_rewriteExit {id : NodeId} (mem : D.region.stmts id) (kind : ExitKind) :
    D.Yields D.ofWalk (Walk.rewriteExit id kind) D.AnswersInside := by
  have taken := Obeys.bind law (.lift (law.exit kind)) fun _ => .pure law (answersInside_stay mem)
  intro walk ready
  exact taken walk ready

theorem holds_joinBehind {walk : Walk} (ready : D.Ready D.ofWalk walk) {yes no : Walk.Arm}
    (yesGood : ∀ path ∈ yes.scope?, D.good path walk.analysis)
    (noGood : ∀ path ∈ no.scope?, D.good path walk.analysis) :
    D.Holds D.ofWalk (Walk.joinBehind yes no) walk fun _ _ => True := by
  have single {path : Scope} (fits : D.good path walk.analysis) :
      D.Holds D.ofWalk (liftM (Site.join [path])) walk fun _ _ => True :=
    .lift ready (law.join [path] walk.toSite (by simp) ready.site (by simpa using fits))
  have both : D.Holds D.ofWalk (liftM (Site.joinArms yes.scope? no.scope?)) walk fun _ _ => True :=
    .lift ready (law.joinArms ready.site yesGood noGood)
  cases yes with
  | absent =>
    cases no with
    | aborting => exact .pure law ready trivial
    | absent => exact both
    | reached path => exact both
  | aborting =>
    cases no with
    | reached path => exact single (noGood path rfl)
    | absent => exact .pure law ready trivial
    | aborting => exact .pure law ready trivial
  | reached path =>
    cases no with
    | aborting => exact single (yesGood path rfl)
    | absent => exact both
    | reached other => exact both

theorem holds_joinBreaks {walk : Walk} (ready : D.Ready D.ofWalk walk) {breaks : List Scope}
    (fits : ∀ path ∈ breaks, D.good path walk.analysis) :
    D.Holds D.ofWalk (Walk.joinBreaks breaks) walk fun _ _ => True := by
  cases breaks with
  | nil => exact .pure law ready trivial
  | cons path paths =>
    exact .lift ready (law.join (path :: paths) walk.toSite (by simp) ready.site fits)

theorem yields_trimBody {body : Option NodeId} (mem : ∀ node ∈ body, D.region.stmts node) :
    D.Yields D.ofWalk (Walk.trimBody body) D.AnswersInside := by
  cases body with
  | none => exact .pure law mem
  | some body =>
    have held := mem body rfl
    refine .arenaHere_bind fun arena encloses => ?_
    have inside : ∀ stmt ∈ (arena.block? body).getD [], D.region.stmts stmt := by
      cases found : arena.block? body with
      | none => simp
      | some stmts => exact encloses.block? held found
    dsimp only
    split
    · split
      · exact .pure law nofun
      · have fits : ∀ stmt ∈ ((arena.block? body).getD []).dropLast, D.region.stmts stmt :=
          fun stmt mem => inside stmt (List.dropLast_subset _ mem)
        exact Obeys.bind law (.editStmt law body fun _ has => has.withStmts fits)
          fun _ => .pure law mem
    · exact .pure law (answersInside_stay held)

theorem holds_behindArms {walk : Walk} (ready : D.Ready D.ofWalk walk) {id : NodeId}
    (mem : D.region.stmts id) {cond : NodeId} (inside : D.region.exprs cond)
    {yes no : Option NodeId × Walk.Arm}
    (yesGood : (∀ node ∈ yes.1, D.region.stmts node) ∧ ∀ path ∈ yes.2.scope?,
      D.good path walk.analysis)
    (noGood : (∀ node ∈ no.1, D.region.stmts node) ∧ ∀ path ∈ no.2.scope?,
      D.good path walk.analysis) :
    D.Holds D.ofWalk (Walk.behindArms id cond yes no) walk fun answer _ =>
      D.AnswersInside answer := by
  refine .bind law (holds_joinBehind law ready yesGood.2 noGood.2) fun _ joined kept _ => ?_
  split
  · have added : D.Yields D.ofWalk (Walk.pushLike id (.stmt (.effect cond)))
        fun id => D.region.stmts id ∧ D.region.exprs id := by
      refine .pushLike law id (fun stmt same => ?_) nofun
      obtain rfl := Option.some.inj same
      exact ⟨nofun, by simpa [Stmt.operands] using inside, nofun⟩
    refine (Yields.bind law added fun effect held => .pure law ?_) joined kept.toReady
    rintro node ⟨⟩
    exact held.1
  · exact (Obeys.bind law (.editStmt law id fun _ has => has.withArms inside yesGood.1 noGood.1)
      fun _ => .pure law (answersInside_stay mem)) joined kept.toReady

theorem holds_behindBody {walk : Walk} (ready : D.Ready D.ofWalk walk) {id : NodeId}
    (mem : D.region.stmts id) {node : Option NodeId} (inside : ∀ id ∈ node, D.region.stmts id)
    {breaks : List Scope} (fits : ∀ path ∈ breaks, D.good path walk.analysis) :
    D.Holds D.ofWalk (Walk.behindBody id node breaks) walk fun answer _ =>
      D.AnswersInside answer := by
  refine .bind law (yields_trimBody law inside walk ready) fun left trimmed kept held => ?_
  have carried : ∀ path ∈ breaks, D.good path trimmed.analysis :=
    fun path mem => law.carry (fits path mem) kept.good kept.grows
  refine .bind law (Yields.editStmt law id (fun _ has => has.withBody held) trimmed kept.toReady)
    fun _ edited kept _ => ?_
  have carried : ∀ path ∈ breaks, D.good path edited.analysis :=
    fun path mem => law.carry (carried path mem) kept.good kept.grows
  refine .bind law (holds_joinBreaks law kept.toReady carried) fun _ joined kept _ =>
    .arenaHere_bind ?_
  split
  · exact .pure law kept.toReady (answersInside_removed _)
  · exact .pure law kept.toReady (answersInside_stay mem)

section Statements

variable {visit : NodeId → WalkM (Option NodeId)}
  (visits : ∀ id, D.region.stmts id → D.Yields D.ofWalk (visit id) fun answer => ∀ node ∈ answer, D.region.stmts node)
include visits

theorem yields_rewriteStmts {stmts : List NodeId} (inside : ∀ stmt ∈ stmts, D.region.stmts stmt) :
    D.Yields D.ofWalk (Walk.rewriteStmts visit stmts) fun kept => ∀ stmt ∈ kept,
      D.region.stmts stmt := by
  induction stmts with
  | nil => exact .pure law (by simp)
  | cons stmt rest ih =>
    have remaining := ih fun stmt mem => inside stmt (by simp [mem])
    refine .bind law (visits stmt (inside stmt (by simp))) fun left held => ?_
    split
    · exact remaining
    · rename_i node
      refine .arenaHere_bind fun arena encloses => ?_
      have own : ∀ stmt ∈ (arena.block? node).getD [node], D.region.stmts stmt := by
        cases found : arena.block? node with
        | none => simpa using held node rfl
        | some stmts => exact encloses.block? (held node rfl) found
      dsimp only
      split
      · refine Obeys.bind law ?_ fun _ => .pure law own
        cases rest with
        | nil => exact .pure law trivial
        | cons dead rest => exact .signal law dead (some _)
      · refine .bind law remaining fun kept fits => .pure law fun stmt mem => ?_
        exact (List.mem_append.1 mem).elim (own stmt) (fits stmt)

theorem yields_rewriteBlock {id : NodeId} (mem : D.region.stmts id) {stmts : List NodeId}
    (inside : ∀ stmt ∈ stmts, D.region.stmts stmt) :
    D.Yields D.ofWalk (Walk.rewriteBlock visit id stmts) D.AnswersInside := by
  refine .bind law (yields_rewriteStmts law visits inside) fun kept fits => ?_
  split
  · exact .pure law (answersInside_removed _)
  · exact Obeys.bind law (.editStmt law id fun _ has => has.withStmts fits) fun _ =>
      .pure law (answersInside_stay mem)

/-- The scope that an arm brings to the join is good behind the arm. -/
theorem holds_walkArm {walk : Walk} (ready : D.Ready D.ofWalk walk) (label : String)
    {arm : Option NodeId} (inside : ∀ node ∈ arm, D.region.stmts node) :
    D.Holds D.ofWalk (Walk.walkArm visit label arm) walk fun answer after =>
      (∀ node ∈ answer.1, D.region.stmts node) ∧ ∀ path ∈ answer.2.scope?,
        D.good path after.analysis := by
  cases arm with
  | none => exact .pure law ready (by simp [Walk.Arm.scope?])
  | some arm =>
    have inner := visits arm (inside arm rfl) { walk with scope := walk.scope.fork label }
      ⟨law.fork label ready.good, ready.fits⟩
    refine .bind law (.inFork law ready inner) fun answer after kept fits => .arenaHere_bind ?_
    split
    · exact .pure law kept.toReady ⟨fits.2, by simp [Walk.Arm.scope?]⟩
    · refine .pure law kept.toReady ⟨fits.2, ?_⟩
      rintro path ⟨⟩
      exact fits.1

theorem yields_takeArm (truth : Bool) {yes no : Option NodeId}
    (insideYes : ∀ node ∈ yes, D.region.stmts node) (insideNo : ∀ node ∈ no, D.region.stmts node) :
    D.Yields D.ofWalk (Walk.takeArm visit truth yes no) D.AnswersInside := by
  have inside : ∀ node ∈ (if truth then yes else no), D.region.stmts node := by
    cases truth with
    | true => exact insideYes
    | false => exact insideNo
  unfold Walk.takeArm
  dsimp only
  split
  · rename_i arm taken
    exact .bind law (visits arm (inside arm taken)) fun node held => .pure law held
  · exact .bind law (.pure law (by simp))
      fun node (held : ∀ id ∈ node, D.region.stmts id) => .pure law held

/-- From the walk of the second arm on. -/
theorem holds_behindYes {walk : Walk} (ready : D.Ready D.ofWalk walk) {id : NodeId}
    (mem : D.region.stmts id) {cond : NodeId} (inside : D.region.exprs cond)
    {yes : Option NodeId × Walk.Arm} {no : Option NodeId}
    (insideNo : ∀ node ∈ no, D.region.stmts node)
    (yesGood : (∀ node ∈ yes.1, D.region.stmts node) ∧ ∀ path ∈ yes.2.scope?,
      D.good path walk.analysis) :
    D.Holds D.ofWalk (Walk.walkArm visit "branch no" no >>= Walk.behindArms id cond yes) walk
      fun answer _ => D.AnswersInside answer := by
  refine .bind law (holds_walkArm law visits ready _ insideNo) fun noAnswer after kept noGood => ?_
  have carried : ∀ path ∈ yes.2.scope?, D.good path after.analysis :=
    fun path mem => law.carry (yesGood.2 path mem) kept.good kept.grows
  exact holds_behindArms law kept.toReady mem inside ⟨yesGood.1, carried⟩ noGood

theorem yields_behindCond {id : NodeId} (mem : D.region.stmts id) {cond : NodeId}
    {yes no : Option NodeId} (inside : D.region.exprs cond)
    (insideYes : ∀ node ∈ yes, D.region.stmts node) (insideNo : ∀ node ∈ no, D.region.stmts node) :
    D.Yields D.ofWalk (Walk.behindCond visit id yes no cond) D.AnswersInside := by
  refine .arenaHere_bind fun arena _ => ?_
  split
  · exact yields_takeArm law visits _ insideYes insideNo
  · intro walk ready
    refine .bind law (holds_walkArm law visits ready _ insideYes)
      fun yesAnswer walked kept yesGood => ?_
    exact holds_behindYes law visits kept.toReady mem inside insideNo yesGood

theorem yields_rewriteBranch {id : NodeId} (mem : D.region.stmts id) {cond : NodeId}
    {yes no : Option NodeId} (inside : D.region.exprs cond)
    (insideYes : ∀ node ∈ yes, D.region.stmts node) (insideNo : ∀ node ∈ no, D.region.stmts node) :
    D.Yields D.ofWalk (Walk.rewriteBranch visit id cond yes no) D.AnswersInside :=
  .bind law (yields_walkExpr law inside) fun _ fits =>
    yields_behindCond law visits mem fits insideYes insideNo

/-- The snapshots taken at the breaks of a loop are good behind its body. -/
theorem holds_walkLoopBody {walk : Walk} (ready : D.Ready D.ofWalk walk) {body : NodeId}
    (mem : D.region.stmts body) :
    D.Holds D.ofWalk (Walk.walkLoopBody visit body) walk fun answer after =>
      (∀ node ∈ answer.1, D.region.stmts node) ∧ ∀ path ∈ answer.2, D.good path after.analysis := by
  have written := ready.fits.variablesWritten mem
  have inFork : D.Ready D.ofWalk { walk with scope := walk.scope.fork "loop" } :=
    ⟨law.fork "loop" ready.good, ready.fits⟩
  have start : D.Ready D.ofWalk
      { walk with scope := walk.scope.fork "loop", analysis := walk.analysis.inside .byLoop } :=
    ⟨law.inside .byLoop inFork.good, ready.fits⟩
  have inside : D.Holds D.ofWalk
      (liftM (Site.forgetAll (walk.arena.variablesWritten body)) >>= fun _ => visit body)
      { walk with scope := walk.scope.fork "loop", analysis := walk.analysis.inside .byLoop }
      fun node _ => ∀ id ∈ node, D.region.stmts id :=
    .bind law (Yields.lift (law.forgetAll written) _ start) fun _ forgotten kept _ =>
      visits body mem forgotten kept.toReady
  have collected : D.Holds D.ofWalk (Walk.catching .byLoop do
      Site.forgetAll (walk.arena.variablesWritten body)
      let node ← visit body
      pure (node, ← Analysis.takeExits .byLoop .brk)) { walk with scope := walk.scope.fork "loop" }
        fun answer after =>
        (∀ node ∈ answer.1, D.region.stmts node) ∧ ∀ path ∈ answer.2,
          D.good path after.analysis := by
    rw [← bind_assoc]
    exact .collecting law rfl law.breaks inFork inside
  exact .arenaHere_bind (.bind law (.inFork law ready collected) fun answer after kept fits =>
    .pure law kept.toReady fits.2)

theorem yields_rewriteLoop {id : NodeId} (mem : D.region.stmts id) {body : Option NodeId}
    (inside : ∀ node ∈ body, D.region.stmts node) :
    D.Yields D.ofWalk (Walk.rewriteLoop visit id body) D.AnswersInside := by
  cases body with
  | none => exact .pure law (answersInside_stay mem)
  | some body =>
    rw [Walk.rewriteLoop_eq]
    refine .arenaHere_bind fun arena _ => ?_
    split
    · exact .throw law (law.wrongShape body _)
    intro walk ready
    refine .bind law (holds_walkLoopBody law visits ready (inside body rfl))
      fun answer walked kept fits => ?_
    exact holds_behindBody law kept.toReady mem fits.1 fits.2

theorem yields_rewriteStmt {id : NodeId} (mem : D.region.stmts id) :
    D.Yields D.ofWalk (Walk.rewriteStmt visit id) D.AnswersInside := by
  refine .arenaHere_bind fun arena encloses => ?_
  have has := fun stmt (found : arena.stmt? id = some stmt) => encloses.stmt id stmt mem found
  split
  · exact .throw law (law.wrongShape id _)
  · rename_i stmts found
    exact yields_rewriteBlock law visits mem (has _ found).children
  · rename_i target value _ found
    exact yields_rewriteAssign law mem ((has _ found).target target rfl)
      ((has _ found).operands value (by simp [Stmt.operands]))
  · rename_i target tolerant _ found
    exact yields_rewriteDelete law mem ((has _ found).target target rfl) tolerant
  · exact Obeys.bind law (Yields.map (.lift (law.release _)) fun _ _ => trivial) fun _ =>
      .pure law (answersInside_stay mem)
  · rename_i expr found
    exact yields_rewriteEffect law mem ((has _ found).operands expr (by simp [Stmt.operands]))
  · rename_i cond yes no found
    refine yields_rewriteBranch law visits mem
      ((has _ found).operands cond (by simp [Stmt.operands]))
      (fun node arm => (has _ found).children node ?_)
      (fun node arm => (has _ found).children node ?_)
    · exact List.mem_append_left _ (Option.mem_toList.2 arm)
    · exact List.mem_append_right _ (Option.mem_toList.2 arm)
  · rename_i body found
    exact yields_rewriteLoop law visits mem fun node held => (has _ found).children node
      (Option.mem_toList.2 held)
  · exact yields_rewriteExit law mem .brk
  · exact yields_rewriteExit law mem .cont
  · rename_i value found
    refine Obeys.bind law ?_ fun _ => yields_rewriteExit law mem .ret
    unfold Walk.rewriteResult
    split
    · rename_i result
      refine Yields.bind law
        (yields_walkExpr law ((has _ found).operands result (by simp [Stmt.operands])))
        fun value fits => ?_
      exact .editStmt law id fun _ has => has.withResult fits
    · exact .pure law trivial

end Statements

/-- The walk of a statement of the region keeps to the discipline. -/
theorem yields_walkStmtWithin (depth : Nat) {id : NodeId} (mem : D.region.stmts id) :
    D.Yields D.ofWalk (Walk.walkStmtWithin depth id) fun answer => ∀ node ∈ answer,
      D.region.stmts node := by
  induction depth generalizing id with
  | zero => exact .throw law (law.cyclicNesting id)
  | succ depth ih =>
    refine .arenaHere_bind fun arena _ => .located law _ ?_
    refine .bind law (yields_rewriteStmt law (fun _ => ih) mem) fun answer held => ?_
    exact Obeys.bind law (.signal law id _) fun _ => .pure law held

theorem yields_walkStmt {id : NodeId} (mem : D.region.stmts id) :
    D.Yields D.ofWalk (Walk.walkStmt id) fun answer => ∀ node ∈ answer, D.region.stmts node :=
  .arenaHere_bind fun _ _ => yields_walkStmtWithin law _ mem

/-- The exits of a function are joined if they are good. -/
theorem holds_behindFunction {walk : Walk} (ready : D.Ready D.ofWalk walk) {node : Option NodeId}
    (mem : ∀ id ∈ node, D.region.stmts id) {returns : List Scope}
    (fits : ∀ path ∈ returns, D.good path walk.analysis) :
    D.Holds D.ofWalk (Walk.behindFunction node returns) walk fun answer _ => ∀ id ∈ answer,
      D.region.stmts id := by
  have met : D.Holds D.ofWalk (Walk.functionExits node returns) walk
      fun exits after => ∀ path ∈ exits, D.good path after.analysis := by
    refine .arenaHere_bind ?_
    split
    · exact .pure law ready fits
    · have own := law.fork "fall through" ready.good
      refine .scopeHere_bindWalk (.pure law ready fun path mem => ?_)
      rcases List.mem_append.1 mem with snapshot | last
      · exact fits path snapshot
      · rw [List.mem_singleton.1 last]
        exact own
  refine .bind law met fun exits after kept good => ?_
  cases exits with
  | nil => exact .pure law kept.toReady mem
  | cons path paths =>
    refine .bind law (.lift kept.toReady (law.join _ after.toSite (by simp) kept.toReady.site good))
      fun _ _ kept _ => ?_
    exact .pure law kept.toReady mem

/-- The snapshots taken at the returns of a function are good behind its body, if parked ones are
good. -/
theorem holds_walkCaught {walk : Walk} (ready : D.Ready D.ofWalk walk) {body : NodeId}
    (mem : D.region.stmts body) (returns : D.Parks .ret) :
    D.Holds D.ofWalk (Walk.walkCaught body) walk fun answer after =>
      (∀ node ∈ answer.1, D.region.stmts node) ∧ ∀ path ∈ answer.2, D.good path after.analysis :=
  .collecting law rfl returns.collects ready
    (yields_walkStmt law mem _ ⟨law.inside .byFunction ready.good, ready.fits⟩)

/-- The walk of a body of the region keeps to the discipline, if the snapshots at returns are
good. -/
theorem yields_walkBody (kind : BodyKind) {body : NodeId} (mem : D.region.stmts body)
    (returns : D.Parks .ret) :
    D.Yields D.ofWalk (Walk.walkBody kind body) fun answer => ∀ node ∈ answer,
      D.region.stmts node := by
  cases kind with
  | moduleBody => exact yields_walkStmt law mem
  | functionBody =>
    intro walk ready
    exact .bind law (holds_walkCaught law ready mem returns) fun answer after kept fits =>
      holds_behindFunction law kept.toReady fits.1 fits.2

end Walks

end Discipline

end ValueFlow
