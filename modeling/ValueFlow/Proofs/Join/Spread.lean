import ValueFlow.Proofs.Discipline.Walk
import ValueFlow.Proofs.Join.Exact
import ValueFlow.Proofs.Routing.Registries

/-!
# Scopes only spread

No walk takes a variable out of its scope, and every snapshot that it enters in a registry holds the
variables that were in the scope when the walk began (`Site.Spreads`). The joins on the way rely on
that themselves: a join of several paths starts over from an empty scope, and keeps the variables of
the scope it replaces only because each of the paths has them. So the scope around a part of a walk
lies within the scopes that come out of the part (`Walk.gives_arm`, `Walk.gives_loopBody`).

Nothing is asked of the site that a walk starts from, nor of the arena.
-/

namespace ValueFlow
set_option autoImplicit false

/-- The scope has kept its variables, and the registries have gained only snapshots that have them
too. -/
structure Site.Spreads (before after : Site) : Prop where
  scope : before.scope.Within after.scope
  exits : before.analysis.exits.Gains (fun _ taken => ∀ path ∈ taken, before.scope.Within path) after.analysis.exits

namespace Site.Spreads

variable {first second third before after : Site}

theorem of_exits (scope : before.scope.Within after.scope)
    (exits : after.analysis.exits = before.analysis.exits) :
    before.Spreads after where
  scope := scope
  exits := .of_eq exits fun _ => List.forall_mem_nil _

theorem refl (site : Site) : site.Spreads site := of_exits (.refl _) rfl

theorem trans (early : first.Spreads second) (late : second.Spreads third) :
    first.Spreads third where
  scope := early.scope.trans late.scope
  exits := early.exits.trans late.exits fun _ _ _ within withinMore =>
    List.forall_mem_append.2 ⟨within, fun path mem => early.scope.trans (withinMore path mem)⟩

/-- What happens in a fork shows in the registries only. -/
theorem inFork (label : String) (inner : Spreads ⟨before.scope.fork label, before.analysis⟩ after) :
    before.Spreads ⟨before.scope, after.analysis⟩ := ⟨.refl _, inner.exits⟩

/-- The registries that a construct has opened are closed behind it. -/
theorem leave {caught : Catch}
    (inner : Spreads ⟨before.scope, before.analysis.inside caught⟩ after) :
    before.Spreads ⟨after.scope, after.analysis.behind caught before.analysis.exits⟩ where
  scope := inner.scope
  exits := inner.exits.leave (fun _ _ => List.forall_mem_nil _) fun _ _ _ within => within

end Site.Spreads

/-- A computation on a state with a site in it lets the site spread, if it ends well. -/
def Spreading {σ α : Type} (site : σ → Site) (act : EStateM Fault σ α) : Prop :=
  ∀ state, Gives act state fun _ after => (site state).Spreads (site after)

namespace Spreading

section Composition

variable {σ α β : Type} {site : σ → Site} {act : EStateM Fault σ α}

theorem pure (value : α) : Spreading site (Pure.pure value : EStateM Fault σ α) :=
  fun _ => .pure (.refl _)

theorem throw (fault : Fault) : Spreading site (MonadExcept.throw fault : EStateM Fault σ α) :=
  fun _ => .throw

theorem bind {next : α → EStateM Fault σ β} (first : Spreading site act)
    (rest : ∀ value, Spreading site (next value)) :
    Spreading site (act >>= next) :=
  fun state => (first state).bind fun value middle early => (rest value middle).mono fun _ _ late =>
    early.trans late

theorem get_bind {next : σ → EStateM Fault σ β} (rest : ∀ state, Spreading site (next state)) :
    Spreading site (get >>= next) :=
  fun state => rest state state

theorem discard (first : Spreading site act) : Spreading site (Functor.discard act) :=
  fun state => .discard (first state)

theorem forM {f : α → EStateM Fault σ PUnit} (each : ∀ value, Spreading site (f value))
    (list : List α) :
    Spreading site (list.forM f) := by
  induction list with
  | nil => exact .pure _
  | cons head tail ih => exact bind (each head) fun _ => ih

theorem mapM {f : α → EStateM Fault σ β} (each : ∀ value, Spreading site (f value))
    (list : List α) :
    Spreading site (list.mapM f) := by
  induction list with
  | nil => exact .pure _
  | cons head tail ih =>
    rw [List.mapM_cons]
    exact bind (each head) fun _ => bind ih fun _ => .pure _

theorem ofExcept (answer : Except Fault α) : Spreading site (ofExcept answer : EStateM Fault σ α) :=
  fun _ => ends_ofExcept.2 ⟨fun _ _ => .refl _, fun _ _ => trivial⟩

end Composition

section Sites

variable {α β : Type}

/-- What leaves the scope alone keeps to the habit of the registries. -/
theorem lift {act : AnalysisM α}
    (keeps : Analysis.Keeps (fun before after => after.exits = before.exits) act) :
    Spreading id (liftM act : SiteM α) :=
  fun site => ends_liftAnalysis.2
    ((keeps site.analysis).mono (fun _ _ same => .of_exits (.refl _) same) fun _ _ _ => trivial)

theorem scopeHere_bind {next : Scope → SiteM β} (rest : ∀ scope, Spreading id (next scope)) :
    Spreading id (Site.scopeHere >>= next) :=
  fun site => rest site.scope site

theorem setVersion (var : VarId) (version : Version) : Spreading id (Site.setVersion var version) :=
  fun _ => .of_exits (Scope.within_setVersion _ _ _) rfl

theorem currentVersion (var : VarId) : Spreading id (Site.currentVersion var) := by
  refine .get_bind fun site => ?_
  split
  · exact .pure _
  · have entered : Spreading id (Site.setVersion var .entry >>= fun _ => Pure.pure Version.entry) :=
      bind (setVersion var .entry) fun _ => .pure _
    split
    · exact bind (lift (Exits.habit.recordEntry var)) fun _ => entered
    · exact entered

theorem write (var : VarId) (origin : Version → Origin) : Spreading id (Site.write var origin) :=
  bind (currentVersion var) fun previous =>
    bind (lift (Exits.habit.recordNext var (origin previous))) fun version =>
    bind (setVersion var version) fun _ => .pure _

theorem assign (var : VarId) (node : NodeId) : Spreading id (Site.assign var node) :=
  bind (write var _) fun _ => .pure _

theorem delete (var : VarId) : Spreading id (Site.delete var) := bind (write var _) fun _ => .pure _

theorem forget (var : VarId) : Spreading id (Site.forget var) := bind (write var _) fun _ => .pure _

theorem currentKey (var : VarId) : Spreading id (Site.currentKey var) :=
  bind (currentVersion var) fun _ => .pure _

theorem release (var : VarId) : Spreading id (Site.release var) :=
  bind (currentKey var) fun key => bind (lift (Exits.habit.noteRelease key)) fun _ => .pure _

theorem read (var : VarId) : Spreading id (Site.read var) :=
  bind (currentKey var) fun key => lift (Exits.habit.noteRead key)

theorem lookup (var : VarId) : Spreading id (liftM (Analysis.lookup var) : SiteM Variable) := by
  refine lift fun state => ?_
  rw [Analysis.lookup, ends_bind, ends_get]
  split <;> rfl

theorem escape (var : VarId) : Spreading id (Site.escape var) := by
  refine bind (lookup var) fun slot => .get_bind fun site => ?_
  split
  · exact .discard (forget var)
  · exact .pure _

theorem escapeAll : Spreading id Site.escapeAll :=
  .scopeHere_bind fun scope => forM escape scope.activeVars

theorem forgetAll (vars : List VarId) : Spreading id (Site.forgetAll vars) :=
  forM (fun var => .discard (forget var)) vars

/-- The snapshot at an exit is a copy of the scope. -/
theorem exit (kind : ExitKind) :
    Spreading id (Site.scopeHere >>= fun scope => liftM (Analysis.recordExit kind scope)) := by
  refine fun site => ends_liftAnalysis.2
    ((Analysis.gives_recordExit_gains site.scope).mono fun _ state gains => ⟨.refl _, ?_⟩)
  refine gains.mono fun other taken held path mem => ?_
  rw [held] at mem
  split at mem
  · rw [List.mem_singleton.1 mem]
    exact .refl _
  · cases mem

end Sites

end Spreading

/-- A join keeps the variables of the scope it replaces, if each of the paths has them. -/
theorem Site.gives_join_spreads (site : Site) {paths : List Scope}
    (within : ∀ path ∈ paths, site.scope.Within path) :
    Gives (join paths) site fun _ after => site.Spreads after := by
  have exits := (Exits.habit.join paths site).gives
  match paths with
  | [] => exact .throw
  | [path] =>
    refine Site.Spreads.of_exits (fun var mem => ?_) rfl
    exact Std.ExtTreeMap.mem_union_iff.2 (.inl mem)
  | first :: second :: rest =>
    refine ((gives_join_exactly site (by simp)).and exits).mono fun _ after told => .of_exits
      (fun var mem => ?_) told.2
    exact (told.1.active var).2 ⟨first, by simp, within first (by simp) var mem⟩

namespace Walk

variable {α β : Type}

section Lifts

theorem spreading_lift {act : SiteM α} (spreading : Spreading id act) :
    Spreading Walk.toSite (liftM act : WalkM α) :=
  fun walk => ends_liftSite.2 (spreading walk.toSite)

/-- What is done to the arena does not show at the site. -/
theorem spreading_setArena (change : Walk → Arena) :
    Spreading Walk.toSite (modify fun walk => { walk with arena := change walk } : WalkM Unit) :=
  fun _ => .refl _

theorem spreading_arenaHere_bind {next : Arena → WalkM β}
    (rest : ∀ arena, Spreading Walk.toSite (next arena)) :
    Spreading Walk.toSite (arenaHere >>= next) :=
  fun walk => rest walk.arena walk

theorem spreading_pushLike (old : NodeId) (node : Node) :
    Spreading Walk.toSite (pushLike old node) :=
  spreading_arenaHere_bind fun _ => .bind (spreading_setArena _) fun _ => .pure _

theorem spreading_signal (id : NodeId) (edit : Option Edit) :
    Spreading Walk.toSite (signal id edit) := by
  cases edit with
  | none => exact .pure _
  | some edit =>
    exact spreading_arenaHere_bind fun arena walk => ends_liftAnalysisWalk.2
      (Site.Spreads.of_exits (.refl _) rfl)

theorem spreading_located (span : Span) {act : WalkM α} (spreading : Spreading Walk.toSite act) :
    Spreading Walk.toSite (located span act) :=
  fun walk => ends_located.2 (spreading walk)

/-- A part of a walk in a fork: the scope is as before, and lies within the fork that comes out. -/
theorem gives_inFork_spreads (label : String) {act : WalkM α}
    (spreading : Spreading Walk.toSite act) (walk : Walk) :
    Gives (inFork label act) walk fun answer after =>
      walk.toSite.Spreads after.toSite ∧ after.scope = walk.scope ∧ walk.scope.Within answer.2 :=
  ends_inFork.2 ((spreading { walk with scope := walk.scope.fork label }).mono fun _ _ inner =>
    ⟨inner.inFork label, rfl, inner.scope⟩)

end Lifts

section Expressions

theorem spreading_countRead (id : NodeId) : Spreading Walk.toSite (countRead id) := by
  refine spreading_arenaHere_bind fun arena => ?_
  split
  · refine .bind (spreading_lift (.read _)) fun _ =>
      .bind (.get_bind fun _ => .pure _) fun other => ?_
    split
    · exact spreading_lift (.read _)
    · exact .pure _
  · exact .pure _

theorem spreading_rewriteBuiltin (id : NodeId) (name : String) :
    Spreading Walk.toSite (rewriteBuiltin id name) := by
  refine .get_bind fun walk => ?_
  split
  · exact .pure _
  · exact .bind (spreading_pushLike id _) fun _ => .pure _

theorem spreading_rewriteExpr {visit : NodeId → WalkM NodeId}
    (visits : ∀ id, Spreading Walk.toSite (visit id)) (id : NodeId) :
    Spreading Walk.toSite (rewriteExpr visit id) := by
  refine spreading_arenaHere_bind fun arena => ?_
  split
  · exact .throw _
  · exact .pure _
  · exact .bind (spreading_lift (.currentVersion _)) fun _ => .bind (spreading_setArena _)
      fun _ => .pure _
  · exact spreading_rewriteBuiltin id _
  · exact .bind (visits _) fun _ => .bind (.mapM visits _) fun _ => .bind (spreading_setArena _)
      fun _ => .bind (spreading_lift .escapeAll) fun _ => .pure _
  · exact .bind (visits _) fun _ => .bind (spreading_setArena _) fun _ =>
      .bind (fun _ => ends_liftAnalysisWalk.2 (Site.Spreads.of_exits (.refl _) rfl)) fun _ =>
        .bind (spreading_lift .escapeAll) fun _ => .pure _

theorem spreading_walkExprWithin (depth : Nat) (id : NodeId) :
    Spreading Walk.toSite (walkExprWithin depth id) := by
  induction depth generalizing id with
  | zero => exact .throw _
  | succ depth ih =>
    exact .bind (spreading_rewriteExpr ih id) fun _ => .bind (spreading_signal id _) fun _ =>
      .bind (spreading_countRead _) fun _ => .pure _

theorem spreading_walkExpr (id : NodeId) : Spreading Walk.toSite (walkExpr id) :=
  spreading_arenaHere_bind fun _ => spreading_walkExprWithin _ id

end Expressions

section Simple

theorem spreading_rewriteAssign (id : NodeId) (target : VarId) (value : NodeId) :
    Spreading Walk.toSite (rewriteAssign id target value) :=
  .bind (spreading_walkExpr value) fun _ => .bind (spreading_lift (.assign target id)) fun _ =>
    .bind (spreading_setArena _) fun _ => .pure _

theorem spreading_rewriteDelete (id : NodeId) (target : VarId) (tolerant : Bool) :
    Spreading Walk.toSite (rewriteDelete id target tolerant) := by
  have asked (prior : TraceKey) : Spreading Walk.toSite (isIdleDelete tolerant prior) := by
    unfold isIdleDelete
    split
    · exact .get_bind fun _ => .ofExcept _
    · exact .pure _
  refine .bind (spreading_lift (.delete target)) fun prior => .bind (asked prior) fun idle => ?_
  split
  · exact .pure _
  · exact .bind (spreading_lift (.scopeHere_bind fun scope => .pure scope)) fun _ =>
      .bind (spreading_setArena _) fun _ => .pure _

theorem spreading_rewriteEffect (id expr : NodeId) :
    Spreading Walk.toSite (rewriteEffect id expr) := by
  refine .bind (spreading_walkExpr expr) fun expr => spreading_arenaHere_bind fun arena => ?_
  split
  · exact .pure _
  · exact .bind (spreading_setArena _) fun _ => .pure _

theorem spreading_rewriteExit (id : NodeId) (kind : ExitKind) :
    Spreading Walk.toSite (rewriteExit id kind) := by
  have taken : Spreading Walk.toSite
      (liftM (Site.scopeHere >>= fun scope => liftM (Analysis.recordExit kind scope)) :
        WalkM Unit) := spreading_lift (.exit kind)
  exact fun walk => (Spreading.bind taken fun _ => .pure (stay id)) walk

end Simple

section Branches

variable {visit : NodeId → WalkM (Option NodeId)}

/-- The scope around an arm lies within the scope that the arm brings to the join. -/
theorem gives_arm (visits : ∀ id, Spreading Walk.toSite (visit id)) (label : String)
    (arm : Option NodeId) (walk : Walk) :
    Gives (walkArm visit label arm) walk fun answer after =>
      walk.toSite.Spreads after.toSite ∧ after.scope = walk.scope ∧ ∀ path ∈ answer.2.scope?,
        walk.scope.Within path := by
  cases arm with
  | none => exact .pure ⟨.refl _, rfl, by simp [Arm.scope?]⟩
  | some arm =>
    refine (gives_inFork_spreads label (visits arm) walk).bind fun answer after told => ?_
    change Gives (arenaHere >>= _) after _
    refine ends_bind.2 ?_
    change Gives (if _ then _ else _) after _
    split
    · exact .pure ⟨told.1, told.2.1, by simp [Arm.scope?]⟩
    · exact .pure ⟨told.1, told.2.1, by simpa [Arm.scope?] using told.2.2⟩

theorem gives_joinBehind_spreads {walk : Walk} {yes no : Arm}
    (withinYes : ∀ path ∈ yes.scope?, walk.scope.Within path)
    (withinNo : ∀ path ∈ no.scope?, walk.scope.Within path) :
    Gives (joinBehind yes no) walk fun _ after => walk.toSite.Spreads after.toSite := by
  have joins (paths : List Scope) (within : ∀ path ∈ paths, walk.scope.Within path) :
      Gives (liftM (Site.join paths) : WalkM Unit) walk fun _ after =>
        walk.toSite.Spreads after.toSite :=
    ends_liftSite.2 (Site.gives_join_spreads walk.toSite within)
  have idle : Gives (pure () : WalkM Unit) walk fun _ after =>
      walk.toSite.Spreads after.toSite := .pure (.refl _)
  have own := Scope.Within.refl walk.scope
  cases yes with
  | absent =>
    cases no with
    | absent => exact idle
    | aborting => exact idle
    | reached other => exact joins [walk.scope, other] (by simpa using ⟨own, withinNo other rfl⟩)
  | aborting =>
    cases no with
    | absent => exact idle
    | aborting => exact idle
    | reached other => exact joins [other] (by simpa using withinNo other rfl)
  | reached path =>
    cases no with
    | absent => exact joins [walk.scope, path] (by simpa using ⟨own, withinYes path rfl⟩)
    | aborting => exact joins [path] (by simpa using withinYes path rfl)
    | reached other =>
      exact joins [path, other] (by simpa using ⟨withinYes path rfl, withinNo other rfl⟩)

/-- What is done with the nodes of a conditional behind its join does not show at the site. -/
theorem gives_behindJoin_site (walk : Walk) (id cond : NodeId) (yes no : Option NodeId) :
    Gives (match yes, no with
      | none, none => do
        let effect ← pushLike id (.stmt (.effect cond))
        pure (.changed (some effect) .statements "Removed conditional statement without effect.")
      | yes, no => do
        editStmt id (.withArms cond yes no)
        pure (stay id) : WalkM StmtAnswer) walk fun _ after => after.toSite = walk.toSite := by
  split
  · exact rfl
  · exact rfl

theorem spreading_takeArm (visits : ∀ id, Spreading Walk.toSite (visit id)) (truth : Bool)
    (yes no : Option NodeId) :
    Spreading Walk.toSite (takeArm visit truth yes no) := by
  unfold takeArm
  dsimp only
  split
  · exact .bind (visits _) fun _ => .pure _
  · exact .bind (.pure _) fun _ => .pure _

theorem spreading_rewriteBranch (visits : ∀ id, Spreading Walk.toSite (visit id))
    (id cond : NodeId) (yes no : Option NodeId) :
    Spreading Walk.toSite (rewriteBranch visit id cond yes no) := by
  refine .bind (spreading_walkExpr cond) fun cond => spreading_arenaHere_bind fun arena => ?_
  split
  · exact spreading_takeArm visits _ yes no
  · intro walk
    refine (gives_arm visits "branch yes" yes walk).bind fun first middle early => ?_
    refine (gives_arm visits "branch no" no middle).bind fun second last late => ?_
    have withinYes : ∀ path ∈ first.2.scope?, last.scope.Within path :=
      late.2.1 ▸ early.2.1 ▸ early.2.2
    refine (gives_joinBehind_spreads withinYes (late.2.1 ▸ late.2.2)).bind fun _ joined behind => ?_
    refine (gives_behindJoin_site joined id cond first.1 second.1).mono fun _ after same => ?_
    exact same ▸ (early.1.trans late.1).trans behind

end Branches

section Loops

variable {visit : NodeId → WalkM (Option NodeId)}

/-- The scope around a loop lies within the scopes at its breaks. -/
theorem gives_loopBody (visits : ∀ id, Spreading Walk.toSite (visit id)) (body : NodeId)
    (walk : Walk) :
    Gives (walkLoopBody visit body) walk fun answer after =>
      walk.toSite.Spreads after.toSite ∧ after.scope = walk.scope ∧ ∀ path ∈ answer.2,
        walk.scope.Within path := by
  unfold walkLoopBody arenaHere
  refine ends_bind.2
    (ends_bind.2 (ends_get.2 (ends_pure.2 (ends_bind.2 (ends_inFork.2 (ends_catching.2 ?_))))))
  have inside : Spreading Walk.toSite
      (liftM (Site.forgetAll (walk.arena.variablesWritten body)) >>= fun _ => visit body) :=
    .bind (spreading_lift (.forgetAll _)) fun _ => visits body
  change Ends (liftM (Site.forgetAll (walk.arena.variablesWritten body)) >>= fun _ =>
    visit body >>= fun node => (fun breaks => (node, breaks)) <$>
    (liftM (Analysis.takeExits .byLoop .brk) : WalkM (List Scope))) _ _ _
  rw [← bind_assoc]
  refine ends_bind.2
    ((inside _).mono fun node after inner => ends_map.2 (ends_liftAnalysisWalk.2 ?_))
  refine (Analysis.ends_takeExits .byLoop).mono ?_ fun _ _ _ => trivial
  -- The registry was opened empty, so what is taken out of it was entered in the body.
  obtain ⟨taken, only, within⟩ :=
    Exits.Gains.collected inner.exits (show Catch.byLoop.catches .brk = true from rfl)
  have outer (exits : Exits)
      (same : exits.leave .byLoop walk.analysis.exits =
        after.analysis.exits.leave .byLoop walk.analysis.exits) :
      walk.toSite.Spreads
        ⟨walk.scope, { after.analysis with exits := exits.leave .byLoop walk.analysis.exits }⟩ := by
    rw [same]
    exact Site.Spreads.inFork "loop" (Site.Spreads.leave inner)
  rintro snapshots state (⟨-, opened, rfl⟩ | ⟨rfl, -, rfl⟩)
  · refine ⟨outer _ (Exits.leave_set _ _ rfl _), rfl, fun path mem => within path ?_⟩
    rwa [Option.some.inj (opened.symm.trans only)] at mem
  · exact ⟨outer _ rfl, rfl, by simp⟩

/-- What is done with the nodes of a body does not show at the site. -/
theorem gives_trimBody_site (walk : Walk) (node : Option NodeId) :
    Gives (trimBody node) walk fun _ after => after.toSite = walk.toSite := by
  cases node with
  | none => exact .pure rfl
  | some body =>
    change Gives (if _ then _ else _) walk _
    split
    · split
      · exact .pure rfl
      · exact rfl
    · exact .pure rfl

theorem gives_joinBreaks_spreads {walk : Walk} {breaks : List Scope}
    (within : ∀ path ∈ breaks, walk.scope.Within path) :
    Gives (joinBreaks breaks) walk fun _ after => walk.toSite.Spreads after.toSite := by
  cases breaks with
  | nil => exact .pure (.refl _)
  | cons path paths => exact ends_liftSite.2 (Site.gives_join_spreads walk.toSite within)

/-- Behind the body of a loop nothing shows at the site but the join of the breaks. -/
theorem gives_behindBody_site {walk : Walk} {id : NodeId} {node : Option NodeId}
    {breaks : List Scope} (well : Site → Prop)
    (joins : ∀ middle : Walk, middle.toSite = walk.toSite → Gives (joinBreaks breaks) middle
      fun _ after => well after.toSite) :
    Gives (behindBody id node breaks) walk fun _ after => well after.toSite := by
  refine (gives_trimBody_site walk node).bind fun left trimmed same => ?_
  have edits : Gives (editStmt id (.withBody left.node)) trimmed fun _ edited => edited.toSite =
      walk.toSite := same
  refine edits.bind fun _ edited same => ?_
  refine (joins edited same).bind fun _ joined told => ?_
  change Gives (if _ then _ else _) joined _
  split
  · exact .pure told
  · exact .pure told

theorem spreading_rewriteLoop (visits : ∀ id, Spreading Walk.toSite (visit id)) (id : NodeId)
    (body : Option NodeId) :
    Spreading Walk.toSite (rewriteLoop visit id body) := by
  cases body with
  | none => exact .pure _
  | some body =>
    rw [rewriteLoop_eq]
    refine spreading_arenaHere_bind fun arena => ?_
    split
    · exact .throw _
    · intro walk
      refine (gives_loopBody visits body walk).bind fun answer middle told => ?_
      refine gives_behindBody_site walk.toSite.Spreads fun edited same => ?_
      have within : ∀ path ∈ answer.2, edited.scope.Within path := by
        rw [congrArg Site.scope same, told.2.1]
        exact told.2.2
      refine (gives_joinBreaks_spreads within).mono fun _ after late => (same ▸ told.1).trans late

end Loops

section Statements

variable {visit : NodeId → WalkM (Option NodeId)}

theorem spreading_rewriteStmts (visits : ∀ id, Spreading Walk.toSite (visit id))
    (stmts : List NodeId) :
    Spreading Walk.toSite (rewriteStmts visit stmts) := by
  induction stmts with
  | nil => exact .pure _
  | cons stmt rest ih =>
    refine .bind (visits stmt) fun left => ?_
    split
    · exact ih
    · refine spreading_arenaHere_bind fun arena => ?_
      dsimp only
      split
      · refine .bind ?_ fun _ => .pure _
        cases rest with
        | nil => exact .pure _
        | cons dead rest => exact spreading_signal dead (some _)
      · exact .bind ih fun _ => .pure _

theorem spreading_rewriteStmt (visits : ∀ id, Spreading Walk.toSite (visit id)) (id : NodeId) :
    Spreading Walk.toSite (rewriteStmt visit id) := by
  refine spreading_arenaHere_bind fun arena => ?_
  split
  · exact .throw _
  · refine .bind (spreading_rewriteStmts visits _) fun kept => ?_
    split
    · exact .pure _
    · exact .bind (spreading_setArena _) fun _ => .pure _
  · exact spreading_rewriteAssign id _ _
  · exact spreading_rewriteDelete id _ _
  · exact .bind (.discard (spreading_lift (.release _))) fun _ => .pure _
  · exact spreading_rewriteEffect id _
  · exact spreading_rewriteBranch visits id _ _ _
  · exact spreading_rewriteLoop visits id _
  · exact spreading_rewriteExit id .brk
  · exact spreading_rewriteExit id .cont
  · refine .bind ?_ fun _ => spreading_rewriteExit id .ret
    unfold rewriteResult
    split
    · exact .bind (spreading_walkExpr _) fun _ => spreading_setArena _
    · exact .pure _

/-- A walk only lets its scope spread. -/
theorem spreading_walkStmtWithin (depth : Nat) (id : NodeId) :
    Spreading Walk.toSite (walkStmtWithin depth id) := by
  induction depth generalizing id with
  | zero => exact .throw _
  | succ depth ih =>
    refine spreading_arenaHere_bind fun arena => spreading_located _ ?_
    exact .bind (spreading_rewriteStmt ih id) fun _ => .bind (spreading_signal id _)
      fun _ => .pure _

end Statements

end Walk

end ValueFlow
