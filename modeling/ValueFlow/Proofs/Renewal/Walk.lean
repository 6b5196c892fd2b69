import ValueFlow.Proofs.Renewal.Simple

/-!
# Two walks abreast

The walks of a statement and of a body agree with themselves. The arms of a conditional and the
breaks of a loop reach the join behind over paths that tell the same on both sides. The paths at the
returns of a function are joined where nothing is decided any more, so that nothing is asked of
them.
-/

namespace ValueFlow
set_option autoImplicit false

namespace Walk

/-- Walks the body of a loop from where its targets are forgotten, and answers with the scopes at
its breaks. -/
def aroundBody (visit : NodeId → WalkM (Option NodeId)) (body : NodeId) (written : List VarId) : WalkM (Option NodeId × List Scope) := do
  Site.forgetAll written
  let node ← visit body
  pure (node, ← Analysis.takeExits .byLoop .brk)

theorem walkLoopBody_eq_aroundBody (visit : NodeId → WalkM (Option NodeId)) (body : NodeId) :
    walkLoopBody visit body = arenaHere >>= fun arena =>
      inFork "loop" (catching .byLoop (aroundBody visit body (arena.variablesWritten body))) >>=
        fun answer => pure answer.1 := rfl

end Walk

namespace Track

variable {track : Track} {frame : Frame} {left right : Walk}

/-- The two arms reach the join behind alike. -/
inductive ArmsReach (track : Track) (left right : Site) : Walk.Arm → Walk.Arm → Prop
  | absent : track.ArmsReach left right .absent .absent
  | aborting : track.ArmsReach left right .aborting .aborting
  | reached {path other : Scope} (reach : track.Reach left right path other) : track.ArmsReach left right (.reached path) (.reached other)

/-- Arms reach the join behind still, when another arm was walked. -/
theorem ArmsReach.carry {leftAfter rightAfter : Walk} {arm other : Walk.Arm}
    (reaches : track.ArmsReach left.toSite right.toSite arm other)
    (beside : track.Beside track.ofWalk frame left right)
    (onward : track.Onward track.ofWalk frame left leftAfter right rightAfter)
    (same : leftAfter.scope = left.scope) :
    track.ArmsReach leftAfter.toSite rightAfter.toSite arm other := by
  cases reaches with
  | absent => exact .absent
  | aborting => exact .aborting
  | reached reach => exact .reached (Reach.carry beside onward same reach)

/-- Paths that were parked pairwise, and tell no less than the floor. -/
structure Parked (track : Track) (floor : VarId → Prop) (traces tracesRight : Traces) (paths others : List Scope) : Prop where
  backed : ∀ path ∈ paths, path.Backed traces
  backedRight : ∀ path ∈ others, path.Backed tracesRight
  rows : List.Forall₂ (track.Paths floor) (paths.map (·.outline traces)) (others.map (·.outline tracesRight))

/-- Paths that were parked at breaks reach the point behind the loop, for each of them has looked at
what the scope around the loop has looked at. -/
theorem Parked.reach {leftAfter rightAfter : Walk} {paths others : List Scope}
    (parked : track.Parked (fun var => (left.sketch.scope var).isSome = true)
      leftAfter.analysis.traces rightAfter.analysis.traces paths others)
    (beside : track.Beside track.ofWalk frame left right)
    (onward : track.Onward track.ofWalk frame left leftAfter right rightAfter)
    (same : leftAfter.scope = left.scope) :
    List.Forall₂ (track.Reach leftAfter.toSite rightAfter.toSite) paths others := by
  have own : leftAfter.sketch.scope = left.sketch.scope := onward.sketch_scope beside same
  have rows := List.forall₂_map_left_iff.1 (List.forall₂_map_right_iff.1 parked.rows)
  have backed := (List.forall₂_and_left paths others).2 ⟨parked.backed, rows⟩
  refine .flip (((List.forall₂_and_left others paths).2 ⟨parked.backedRight, .flip backed⟩).imp ?_)
  rintro other path ⟨backedRight, backed, told⟩
  exact ⟨backed, backedRight, told.level, fun var some_ => told.above var (own ▸ some_)⟩

section Joins

variable (beside : track.Beside track.ofWalk frame left right)
include beside

theorem concurs_joinBehind {yes no yesOther noOther : Walk.Arm}
    (yesReach : track.ArmsReach left.toSite right.toSite yes yesOther)
    (noReach : track.ArmsReach left.toSite right.toSite no noOther) :
    track.Concurs track.ofWalk frame (Walk.joinBehind yes no) left
      (Walk.joinBehind yesOther noOther) right fun _ _ _ _ => True := by
  have joins {paths others : List Scope} (some_ : paths ≠ [])
      (reach : List.Forall₂ (track.Reach left.toSite right.toSite) paths others) :
      track.Concurs track.ofWalk frame (liftM (Site.join paths) : WalkM Unit) left
        (liftM (Site.join others) : WalkM Unit) right
        fun _ _ _ _ => True :=
    .lift beside (.join_of_reach beside some_ reach)
  have own := beside.reach
  cases yesReach with
  | absent =>
    cases noReach with
    | absent | aborting => exact .pure beside trivial
    | reached noReach => exact joins (List.cons_ne_nil _ _) (.cons own (.cons noReach .nil))
  | aborting =>
    cases noReach with
    | absent | aborting => exact .pure beside trivial
    | reached noReach => exact joins (List.cons_ne_nil _ _) (.cons noReach .nil)
  | reached yesReach =>
    cases noReach with
    | absent => exact joins (List.cons_ne_nil _ _) (.cons own (.cons yesReach .nil))
    | aborting => exact joins (List.cons_ne_nil _ _) (.cons yesReach .nil)
    | reached noReach => exact joins (List.cons_ne_nil _ _) (.cons yesReach (.cons noReach .nil))

theorem concurs_joinBreaks {breaks others : List Scope}
    (reach : List.Forall₂ (track.Reach left.toSite right.toSite) breaks others) :
    track.Concurs track.ofWalk frame (Walk.joinBreaks breaks) left (Walk.joinBreaks others) right
      fun _ _ _ _ => True := by
  cases reach with
  | nil => exact .pure beside trivial
  | cons first rest =>
    exact .lift beside (.join_of_reach beside (List.cons_ne_nil _ _) (.cons first rest))

theorem concurs_behindArms {id cond : NodeId} (mem : track.stmts id) {yes no : Option NodeId}
    (insideYes : ∀ node ∈ yes, track.stmts node) (insideNo : ∀ node ∈ no, track.stmts node)
    {yesArm noArm yesOther noOther : Walk.Arm}
    (yesReach : track.ArmsReach left.toSite right.toSite yesArm yesOther)
    (noReach : track.ArmsReach left.toSite right.toSite noArm noOther) :
    track.Concurs track.ofWalk frame (Walk.behindArms id cond (yes, yesArm) (no, noArm)) left
      (Walk.behindArms id cond (yes, yesOther) (no, noOther)) right (Same track.Inside) := by
  refine .bind (concurs_joinBehind beside yesReach noReach) fun _ _ _ _ onward _ =>
    Agrees.concurs ?_ onward.toBeside
  dsimp only
  split
  · refine (Agrees.pushLike id (by simp [Node.stmt?, Stmt.children, Stmt.tolerated?])).map
      fun effect added => ?_
    rintro _ ⟨⟩
    exact added
  · have edits : track.Agrees (Walk.editStmt id (.withArms cond yes no)) fun _ => True :=
      .editStmt (fun stmt => stmt.bare_withArms cond yes no)
        (fun _ has => has.withArms trivial insideYes insideNo) fun stmt => by cases stmt <;> rfl
    exact edits.map fun _ _ => inside_stay mem

/-- A trailing continue is removed on both sides or on neither. -/
theorem concurs_trimBody {body : Option NodeId} (mem : ∀ node ∈ body, track.stmts node) :
    track.Concurs track.ofWalk frame (Walk.trimBody body) left (Walk.trimBody body) right
      fun answer after other afterRight =>
      (other = answer ∧ track.Inside answer) ∧ after.toSite = left.toSite ∧
        afterRight.toSite = right.toSite := by
  cases body with
  | none => exact .pure beside ⟨⟨rfl, nofun⟩, rfl, rfl⟩
  | some body =>
    have held := mem body rfl
    refine .arenaHere_bind ?_
    have block : right.arena.block? body = left.arena.block? body :=
      beside.ask (·.block? body) (Arena.block?_bare · body)
    have inside : ∀ stmt ∈ (left.arena.block? body).getD [], track.stmts stmt := by
      cases found : left.arena.block? body with
      | none => simp
      | some stmts => exact beside.fits.guards.encloses.block? held found
    dsimp only
    rw [block, Arena.isCont_of_bare beside.fits.bare]
    split
    · have fits : ∀ stmt ∈ ((left.arena.block? body).getD []).dropLast, track.stmts stmt :=
        fun stmt mem => inside stmt (List.dropLast_subset _ mem)
      cases kept : ((left.arena.block? body).getD []).dropLast with
      | nil => exact .pure beside ⟨⟨rfl, nofun⟩, rfl, rfl⟩
      | cons first rest =>
        rw [kept] at fits
        have edits := Concurs.editStmt body (.withStmts (first :: rest)) beside
          (fun stmt => stmt.bare_withStmts _) (fun stmt => stmt.bare_withStmts _)
          (fun _ has => has.withStmts fits) fun stmt => by cases stmt <;> rfl
        exact .bind edits fun _ _ _ _ onward still => .pure onward.toBeside
          ⟨⟨rfl, inside_stay held⟩, still⟩
    · exact .pure beside ⟨⟨rfl, inside_stay held⟩, rfl, rfl⟩

theorem concurs_behindBody {id : NodeId} (mem : track.stmts id) {node : Option NodeId}
    (inside : ∀ id ∈ node, track.stmts id) {breaks others : List Scope}
    (reach : List.Forall₂ (track.Reach left.toSite right.toSite) breaks others) :
    track.Concurs track.ofWalk frame (Walk.behindBody id node breaks) left
      (Walk.behindBody id node others) right (Same track.Inside) := by
  refine .bind (concurs_trimBody beside inside) ?_
  rintro _ trimmed rest trimmedRight onward ⟨⟨rfl, fits⟩, still, stillRight⟩
  have edits := Concurs.editStmt id (.withBody rest.node) onward.toBeside
    (fun stmt => stmt.bare_withBody rest.node) (fun stmt => stmt.bare_withBody rest.node)
    (fun _ has => has.withBody fits) fun stmt => by cases stmt <;> rfl
  refine .bind edits ?_
  rintro _ edited _ editedRight onward ⟨edited_, editedRight_⟩
  rw [← still, ← stillRight, ← edited_, ← editedRight_] at reach
  refine .bind (concurs_joinBreaks onward.toBeside reach) fun _ joined _ joinedRight onward _ =>
    .arenaHere_bind ?_
  have lone : Walk.isLoneBreak joinedRight.arena = Walk.isLoneBreak joined.arena :=
    funext fun body => onward.toBeside.ask (Walk.isLoneBreak · body) (Arena.isLoneBreak_bare · body)
  rw [lone]
  split
  · exact .pure onward.toBeside ⟨rfl, nofun⟩
  · exact .pure onward.toBeside ⟨rfl, inside_stay mem⟩

end Joins

section Statements

variable {visit : NodeId → WalkM (Option NodeId)}
  (visits : ∀ id, track.stmts id → track.Agrees (visit id) fun node => ∀ id ∈ node, track.stmts id)
include visits

theorem agrees_rewriteStmts {stmts : List NodeId} (inside : ∀ stmt ∈ stmts, track.stmts stmt) :
    track.Agrees (Walk.rewriteStmts visit stmts) fun kept => ∀ stmt ∈ kept, track.stmts stmt := by
  induction stmts with
  | nil => exact .pure (by simp)
  | cons stmt rest ih =>
    have remaining := ih fun stmt mem => inside stmt (by simp [mem])
    refine .bind (visits stmt (inside stmt (by simp))) fun left held => ?_
    cases left with
    | none => exact remaining
    | some node =>
      intro frame left right beside
      refine .arenaHere_bind ?_
      have block : right.arena.block? node = left.arena.block? node :=
        beside.ask (·.block? node) (Arena.block?_bare · node)
      have aborts : right.arena.isAborting node = left.arena.isAborting node :=
        beside.ask (·.isAborting node) (Arena.isAborting_bare · node)
      have own : ∀ stmt ∈ (left.arena.block? node).getD [node], track.stmts stmt := by
        cases found : left.arena.block? node with
        | none => simpa using held node rfl
        | some stmts => exact beside.fits.guards.encloses.block? (held node rfl) found
      rw [block, aborts]
      refine Agrees.concurs ?_ beside
      dsimp only
      split
      · have dead : track.Agrees (Walk.signalDead rest) fun _ => True := by
          cases rest with
          | nil => exact .pure trivial
          | cons dead rest => exact .signal dead (some _)
        exact dead.map fun _ _ => own
      · refine remaining.map fun kept fits stmt mem => ?_
        exact (List.mem_append.1 mem).elim (own stmt) (fits stmt)

theorem agrees_rewriteBlock {id : NodeId} (mem : track.stmts id) {stmts : List NodeId}
    (inside : ∀ stmt ∈ stmts, track.stmts stmt) :
    track.Agrees (Walk.rewriteBlock visit id stmts) track.Inside := by
  refine .bind (agrees_rewriteStmts visits inside) fun kept fits => ?_
  split
  · exact .pure nofun
  · have edits : track.Agrees (Walk.editStmt id (.withStmts kept)) fun _ => True :=
      .editStmt (fun stmt => stmt.bare_withStmts kept) (fun _ has => has.withStmts fits)
        fun stmt => by cases stmt <;> rfl
    exact edits.map fun _ _ => inside_stay mem

theorem concurs_walkArm (beside : track.Beside track.ofWalk frame left right) (label : String)
    {arm : Option NodeId} (inside : ∀ node ∈ arm, track.stmts node) :
    track.Concurs track.ofWalk frame (Walk.walkArm visit label arm) left
      (Walk.walkArm visit label arm) right fun answer after other afterRight =>
      other.1 = answer.1 ∧ (∀ node ∈ answer.1, track.stmts node) ∧ after.scope = left.scope ∧
        track.ArmsReach after.toSite afterRight.toSite answer.2 other.2 := by
  cases arm with
  | none => exact .pure beside ⟨rfl, nofun, rfl, .absent⟩
  | some arm =>
    have forked : track.Concurs track.ofWalk frame (Walk.inFork label (visit arm)) left
        (Walk.inFork label (visit arm)) right
        fun answer after other afterRight => other.1 = answer.1 ∧
          (∀ node ∈ answer.1, track.stmts node) ∧ after.scope = left.scope ∧
          track.Reach after.toSite afterRight.toSite answer.2 other.2 :=
      .inFork beside ((visits arm (inside arm rfl)).concurs (beside.fork label))
        fun _ _ _ _ _ reach held => ⟨held.1, held.2, rfl, reach⟩
    refine .bind forked ?_
    rintro ⟨node, path⟩ after ⟨_, other⟩ afterRight onward ⟨rfl, fits, same, reach⟩
    have aborts : afterRight.arena.isAborting = after.arena.isAborting :=
      funext fun id => onward.toBeside.ask (·.isAborting id) (Arena.isAborting_bare · id)
    refine .arenaHere_bind ?_
    dsimp only
    rw [aborts]
    split
    · exact .pure onward.toBeside ⟨rfl, fits, same, .aborting⟩
    · exact .pure onward.toBeside ⟨rfl, fits, same, .reached reach⟩

theorem agrees_takeArm (truth : Bool) {yes no : Option NodeId}
    (insideYes : ∀ node ∈ yes, track.stmts node) (insideNo : ∀ node ∈ no, track.stmts node) :
    track.Agrees (Walk.takeArm visit truth yes no) track.Inside := by
  have inside : ∀ node ∈ (if truth then yes else no), track.stmts node := by
    cases truth with
    | true => exact insideYes
    | false => exact insideNo
  unfold Walk.takeArm
  dsimp only
  split
  · rename_i arm taken
    exact (visits arm (inside arm taken)).map fun _ held => held
  · exact .pure nofun

theorem agrees_behindCond {id cond : NodeId} (mem : track.stmts id) {yes no : Option NodeId}
    (insideYes : ∀ node ∈ yes, track.stmts node) (insideNo : ∀ node ∈ no, track.stmts node) :
    track.Agrees (Walk.behindCond visit id yes no cond) track.Inside := by
  refine fun frame left right beside => .arenaHere_bind ?_
  have literal : right.arena.literal? cond = left.arena.literal? cond :=
    beside.ask (·.literal? cond) (Arena.literal?_bare · cond)
  rw [literal]
  cases left.arena.literal? cond with
  | some value => exact (agrees_takeArm visits value.isTruthy insideYes insideNo).concurs beside
  | none =>
    refine .bind (concurs_walkArm visits beside _ insideYes) ?_
    rintro ⟨yesLeft, yesArm⟩ middle ⟨_, yesOther⟩ middleRight onwardYes ⟨rfl, fitsYes, -, yesReach⟩
    refine .bind (concurs_walkArm visits onwardYes.toBeside _ insideNo) ?_
    rintro ⟨noLeft, noArm⟩ after ⟨_, noOther⟩ afterRight onwardNo ⟨rfl, fitsNo, same, noReach⟩
    exact concurs_behindArms onwardNo.toBeside mem fitsYes fitsNo
      (yesReach.carry onwardYes.toBeside onwardNo same) noReach

theorem agrees_rewriteBranch {id cond : NodeId} (mem : track.stmts id) {yes no : Option NodeId}
    (insideYes : ∀ node ∈ yes, track.stmts node) (insideNo : ∀ node ∈ no, track.stmts node) :
    track.Agrees (Walk.rewriteBranch visit id cond yes no) track.Inside :=
  .bind (agrees_walkExpr cond) fun _ _ => agrees_behindCond visits mem insideYes insideNo

/-- From the head of a loop to where its breaks are taken out. -/
theorem concurs_aroundBody (beside : track.Beside track.ofWalk frame left right) {body : NodeId}
    (mem : track.stmts body) (written : List VarId) :
    track.Concurs track.ofWalk frame (Walk.aroundBody visit body written) left
      (Walk.aroundBody visit body written) right
      fun answer after other afterRight =>
        other.1 = answer.1 ∧ (∀ node ∈ answer.1, track.stmts node) ∧
          track.Parked frame.floor after.analysis.traces afterRight.analysis.traces
            answer.2 other.2 := by
  refine .bind (.lift beside (.forgetAll beside.sites _)) fun _ _ _ _ onward _ => ?_
  refine .bind ((visits body mem).concurs onward.toBeside) ?_
  rintro node _ _ _ onward ⟨rfl, fits⟩
  refine .bind (.lift onward.toBeside (.takeExits onward.toBeside.sites rfl)) ?_
  rintro paths _ others _ onward ⟨backed, backedRight, rows⟩
  exact .pure onward.toBeside ⟨rfl, fits, backed, backedRight, rows rfl⟩

/-- A loop is walked in a fork with registries of its own, and its breaks reach the statement behind
it alike. -/
theorem concurs_inLoop (beside : track.Beside track.ofWalk frame left right) {body : NodeId}
    (mem : track.stmts body) (written : List VarId) :
    track.Concurs track.ofWalk frame
      (Walk.inFork "loop" (Walk.catching .byLoop (Walk.aroundBody visit body written))) left
      (Walk.inFork "loop" (Walk.catching .byLoop (Walk.aroundBody visit body written))) right
        fun answer after other afterRight =>
        other.1.1 = answer.1.1 ∧ (∀ node ∈ answer.1.1, track.stmts node) ∧
          List.Forall₂ (track.Reach after.toSite afterRight.toSite) answer.1.2 other.1.2 := by
  have forked := beside.fork "loop"
  have caught : track.Concurs track.ofWalk frame
      (Walk.catching .byLoop (Walk.aroundBody visit body written))
      { left with scope := left.scope.fork "loop" }
        (Walk.catching .byLoop (Walk.aroundBody visit body written))
      { right with scope := right.scope.fork "loop" } fun answer after other afterRight =>
        other.1 = answer.1 ∧ (∀ node ∈ answer.1, track.stmts node) ∧
          track.Parked (fun var => (left.sketch.scope var).isSome = true) after.analysis.traces
            afterRight.analysis.traces answer.2 other.2 :=
    .catching forked (concurs_aroundBody visits (forked.inside .byLoop) mem written)
      fun _ _ _ _ held => held
  refine .inFork beside caught ?_
  rintro ⟨node, breaks⟩ inside ⟨_, others⟩ insideRight onward - ⟨rfl, fits, parked⟩
  exact ⟨rfl, fits, Parked.reach parked beside onward rfl⟩

theorem concurs_walkLoopBody (beside : track.Beside track.ofWalk frame left right) {body : NodeId}
    (mem : track.stmts body) :
    track.Concurs track.ofWalk frame (Walk.walkLoopBody visit body) left
      (Walk.walkLoopBody visit body) right fun answer after other afterRight =>
      other.1 = answer.1 ∧ (∀ node ∈ answer.1, track.stmts node) ∧
        List.Forall₂ (track.Reach after.toSite afterRight.toSite) answer.2 other.2 := by
  have written : right.arena.variablesWritten body = left.arena.variablesWritten body :=
    beside.ask (·.variablesWritten body) (Arena.variablesWritten_bare · body)
  rw [Walk.walkLoopBody_eq_aroundBody]
  refine .arenaHere_bind ?_
  rw [written]
  refine .bind (concurs_inLoop visits beside mem _) ?_
  rintro ⟨⟨node, breaks⟩, _⟩ after ⟨⟨_, others⟩, _⟩ afterRight onward ⟨rfl, fits, reach⟩
  exact .pure onward.toBeside ⟨rfl, fits, reach⟩

theorem agrees_rewriteLoop {id : NodeId} (mem : track.stmts id) {body : Option NodeId}
    (inside : ∀ node ∈ body, track.stmts node) :
    track.Agrees (Walk.rewriteLoop visit id body) track.Inside := by
  cases body with
  | none => exact .pure (inside_stay mem)
  | some body =>
    rw [Walk.rewriteLoop_eq]
    refine fun frame left right beside => .arenaHere_bind ?_
    have block : right.arena.block? body = left.arena.block? body :=
      beside.ask (·.block? body) (Arena.block?_bare · body)
    rw [block]
    split
    · exact .throw beside
    refine .bind (concurs_walkLoopBody visits beside (inside body rfl)) ?_
    rintro ⟨node, breaks⟩ _ ⟨_, others⟩ _ onward ⟨rfl, fits, reach⟩
    exact concurs_behindBody onward.toBeside mem fits reach

theorem agrees_rewriteStmt {id : NodeId} (mem : track.stmts id) :
    track.Agrees (Walk.rewriteStmt visit id) track.Inside := by
  refine fun frame left right beside => .arenaHere_bind ?_
  have has := fun stmt (found : left.arena.stmt? id = some stmt) =>
    beside.fits.guards.encloses.stmt id stmt mem found
  have deletes {target : VarId} {tolerant : Bool} {made : Option Version}
      (found : left.arena.stmt? id = some (.delete target tolerant made)) :=
    (agrees_rewriteDelete mem target tolerant fun tolerates => beside.fits.guards.clears id _ mem
      found target (by simp [Stmt.tolerated?, tolerates])).concurs beside
  rcases Arena.stmt?_of_bare beside.fits.bare id with
    same | ⟨target, value, made, late, found, foundRight⟩ |
      ⟨target, tolerant, made, late, found, foundRight⟩
  · rw [same]
    cases found : left.arena.stmt? id with
    | none => exact .throw beside
    | some stmt =>
      cases stmt with
      | block stmts => exact (agrees_rewriteBlock visits mem (has _ found).children).concurs beside
      | assign target value made => exact (agrees_rewriteAssign mem target value).concurs beside
      | delete target tolerant made => exact deletes found
      | release target => exact (agrees_rewriteRelease mem target).concurs beside
      | effect expr => exact (agrees_rewriteEffect mem expr).concurs beside
      | branch cond yes no =>
        have arms := (has _ found).children
        refine (agrees_rewriteBranch visits mem (fun node arm => arms node ?_) fun node arm =>
          arms node ?_).concurs beside
        · exact List.mem_append_left _ (Option.mem_toList.2 arm)
        · exact List.mem_append_right _ (Option.mem_toList.2 arm)
      | loop body =>
        exact (agrees_rewriteLoop visits mem fun node held =>
          (has _ found).children node (Option.mem_toList.2 held)).concurs beside
      | brk => exact (agrees_rewriteExit mem .brk).concurs beside
      | cont => exact (agrees_rewriteExit mem .cont).concurs beside
      | ret value =>
        exact ((agrees_rewriteResult id value).bind fun _ _ =>
          agrees_rewriteExit mem .ret).concurs beside
  · rw [found, foundRight]
    exact (agrees_rewriteAssign mem target value).concurs beside
  · rw [found, foundRight]
    exact deletes found

end Statements

theorem agrees_walkStmtWithin (depth : Nat) {id : NodeId} (mem : track.stmts id) :
    track.Agrees (Walk.walkStmtWithin depth id) fun node => ∀ id ∈ node, track.stmts id := by
  induction depth generalizing id with
  | zero => exact .throw
  | succ depth ih =>
    refine fun frame left right beside => .arenaHere_bind ?_
    have span : right.arena.span id = left.arena.span id :=
      beside.ask (·.span id) (Arena.span_bare · id)
    rw [span]
    refine .located _ (Agrees.concurs ?_ beside)
    exact (agrees_rewriteStmt (fun _ => ih) mem).bind fun answer fits =>
      (Agrees.signal id answer.edit).map fun _ _ => fits

theorem agrees_walkStmt {id : NodeId} (mem : track.stmts id) :
    track.Agrees (Walk.walkStmt id) fun node => ∀ id ∈ node, track.stmts id := by
  refine fun frame left right beside => .arenaHere_bind ?_
  rw [beside.ask Arena.size Arena.size_bare]
  exact (agrees_walkStmtWithin _ mem).concurs beside

/-- Around a whole body no registry is open. -/
def Frame.outermost : Frame := ⟨fun _ => false, fun _ => False⟩

/-- Behind a body nothing is asked of the scopes. The notices and the arenas agree, and the later
state may go on. -/
structure Settled (track : Track) (left right : Walk) : Prop where
  sound : right.toSite.Sound
  edits : right.analysis.edits = left.analysis.edits
  mirrors : track.Mirrors left.arena right.arena
  slots : left.analysis.vars.slots = track.slots
  slotsRight : right.analysis.vars.slots = track.slots
  options : left.analysis.options = track.options
  optionsRight : right.analysis.options = track.options
  closed : ∀ kind, right.sketch.exits kind = none

theorem Beside.settled (beside : track.Beside track.ofWalk .outermost left right) :
    track.Settled left right where
  sound := beside.soundRight
  edits := beside.edits
  mirrors := beside.fits
  slots := beside.matches_.slotsFirst
  slotsRight := beside.matches_.slotsSecond
  options := beside.matches_.optionsFirst
  optionsRight := beside.matches_.optionsSecond
  closed kind :=
    Option.not_isSome_iff_eq_none.1 (ne_true_of_eq_false (beside.matches_.openedSecond kind))

/-- Only the scope is another, where the exits of a function were joined. -/
structure OnlyScope (before after : Walk) : Prop where
  arena : after.arena = before.arena
  sound : after.toSite.Sound
  edits : after.analysis.edits = before.analysis.edits
  sketch : ∃ scope, after.sketch = { before.sketch with scope }

theorem ends_behindFunction {walk : Walk} {node : Option NodeId} {returns : List Scope}
    (sound : walk.toSite.Sound) (backed : ∀ path ∈ returns, path.Backed walk.analysis.traces) :
    Ends (Walk.behindFunction node returns) walk
      (fun answer after => answer = node ∧ OnlyScope walk after) fun _ _ => False := by
  have met : Ends (Walk.functionExits node returns) walk
      (fun exits after => after = walk ∧ ∀ path ∈ exits, path.Backed walk.analysis.traces)
      fun _ _ => False := by
    change Ends (if node.any walk.arena.isAborting then _ else _ : WalkM (List Scope)) walk _ _
    split
    · exact ⟨rfl, backed⟩
    · refine ⟨rfl, fun path mem => ?_⟩
      rcases List.mem_append.1 mem with snapshot | last
      · exact backed path snapshot
      · rw [List.mem_singleton.1 last]
        exact sound.scope.fork _
  refine ends_bind.2 (met.mono ?_ fun _ _ impossible => impossible)
  rintro exits after ⟨rfl, backed⟩
  cases exits with
  | nil => exact ⟨rfl, rfl, sound, rfl, _, rfl⟩
  | cons path paths =>
    have joins : Site.Draws (Site.join (path :: paths)) _ _ fun _ _ => True :=
      Site.draws_join sound (List.cons_ne_nil path paths) backed
    refine ends_bind.2 (ends_liftSite.2 (Ends.mono joins ?_ fun _ _ fell => absurd fell nofun))
    rintro _ site ⟨drawn, -⟩
    have joined := (Option.some.inj drawn.image).symm.trans (Sketch.join_eq _)
    exact ⟨rfl, rfl, drawn.sound, drawn.edits, _, joined⟩

theorem Settled.joined {leftAfter rightAfter : Walk} (settled : track.Settled left right)
    (leftJoined : OnlyScope left leftAfter) (rightJoined : OnlyScope right rightAfter) :
    track.Settled leftAfter rightAfter := by
  obtain ⟨_, sketch⟩ := leftJoined.sketch
  obtain ⟨_, sketchRight⟩ := rightJoined.sketch
  exact {
    sound := rightJoined.sound
    edits := rightJoined.edits.trans (settled.edits.trans leftJoined.edits.symm)
    mirrors := leftJoined.arena ▸ rightJoined.arena ▸ settled.mirrors
    slots := (congrArg Sketch.slots sketch).trans settled.slots
    slotsRight := (congrArg Sketch.slots sketchRight).trans settled.slotsRight
    options := (congrArg Sketch.options sketch).trans settled.options
    optionsRight := (congrArg Sketch.options sketchRight).trans settled.optionsRight
    closed := fun kind => (congrFun (congrArg Sketch.exits sketchRight) kind).trans
      (settled.closed kind) }

/-- The walks of a body run abreast, with the same answer. -/
theorem abreast_walkBody (kind : BodyKind) {body : NodeId} (mem : track.stmts body)
    (beside : track.Beside track.ofWalk .outermost left right) :
    Abreast (Walk.walkBody kind body) left (Walk.walkBody kind body) right
      (fun answer leftAfter other rightAfter => (other = answer ∧ ∀ id ∈ answer, track.stmts id) ∧
        track.Settled leftAfter rightAfter)
      fun leftAfter rightAfter => rightAfter.analysis.edits = leftAfter.analysis.edits ∧
        track.Mirrors leftAfter.arena rightAfter.arena := by
  cases kind with
  | moduleBody =>
    exact Abreast.mono ((agrees_walkStmt mem).concurs beside) fun _ _ _ _ told =>
      ⟨told.2, told.1.toBeside.settled⟩
  | functionBody =>
    have caught : track.Concurs track.ofWalk .outermost (Walk.walkCaught body) left
        (Walk.walkCaught body) right
      fun answer after other afterRight => (other.1 = answer.1 ∧ ∀ id ∈ answer.1, track.stmts id) ∧
        (∀ path ∈ answer.2, path.Backed after.analysis.traces) ∧
          ∀ path ∈ other.2, path.Backed afterRight.analysis.traces := by
      refine .catching beside (.bind ((agrees_walkStmt mem).concurs (beside.inside .byFunction)) ?_)
        fun _ _ _ _ held => held
      rintro node _ _ _ onward same
      refine .bind (.lift onward.toBeside (.takeExits onward.toBeside.sites rfl))
        fun _ _ _ _ onward taken => ?_
      exact .pure onward.toBeside ⟨same, taken.1, taken.2.1⟩
    refine Abreast.bind caught ?_
    rintro ⟨node, returns⟩ leftHere ⟨_, others⟩ rightHere ⟨onward, ⟨rfl, fits⟩, backed, backedRight⟩
    refine abreast_of_ends (ends_behindFunction onward.soundLeft backed)
      (ends_behindFunction onward.soundRight backedRight) ?_
      (fun _ _ _ _ _ impossible => impossible) (fun _ _ _ _ impossible _ => impossible)
      fun _ _ _ _ impossible _ => impossible.elim
    rintro _ leftAfter _ rightAfter ⟨rfl, leftJoined⟩ ⟨rfl, rightJoined⟩
    exact ⟨⟨rfl, fits⟩, onward.toBeside.settled.joined leftJoined rightJoined⟩

end Track

end ValueFlow
