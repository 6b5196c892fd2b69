import ValueFlow.Proofs.Account.Branch
import ValueFlow.Proofs.Account.Loop
import ValueFlow.Proofs.Normal.Simple

/-!
# Walks of compound statements leave normal trees

From the walk of the statements below. A row ends behind the first statement of which an aborting
one is left, so control runs past all others in it. Dead statements are not walked, and neither is
the arm that a known condition does not take, so no exit in them is entered, and nothing in them is
noted or counted. A loop keeps the breaks and continues of its body: the breaks are those that are
left in the body, for only a continue is cut off behind the walk.
-/

namespace ValueFlow
set_option autoImplicit false

namespace Walk

variable {walk : Walk} {id body : NodeId} {code : Code} {visit : NodeId → WalkM (Option NodeId)}

/-- The walk leaves a normal tree of every statement. -/
def ReshapesStmts (visit : NodeId → WalkM (Option NodeId)) : Prop :=
  ∀ {walk : Walk} {id : NodeId} {code : Code}, walk.arena.Shows (.one .stmt id) code → code.ids.Nodup →
    Gives (visit id) walk fun node after => walk.LeavesNormal code node after

/-- Statements in a row are rewritten in order, up to one of which an aborting one is left. -/
theorem reshapes_rewriteStmts (visits : ReshapesStmts visit) {stmts : List NodeId} {row : Code}
    (shows_ : walk.arena.Shows (.row .stmt stmts) row) (nodup : row.ids.Nodup) :
    Gives (rewriteStmts visit stmts) walk fun kept after => ∃ newRow,
      walk.Reshaped row after (.row .stmt kept) newRow := by
  induction stmts generalizing walk row with
  | nil =>
    cases shows_
    exact .pure ⟨.nil, .idle .nil nodup trivial (fun _ => rfl) rfl⟩
  | cons stmt rest ih =>
    cases shows_ with
    | @cons _ _ _ head tail here others =>
      have apart : head.ids.Disjoint tail.ids := List.disjoint_of_nodup_append nodup
      refine .bind (visits here nodup.of_append_left) ?_
      rintro node middle ⟨newHead, first, -⟩
      have onward := ih (first.changes.keep others (List.disjoint_symm apart)) nodup.of_append_right
      cases node with
      | none =>
        obtain rfl := first.shows_.eq_nil_iff.2 rfl
        refine onward.mono ?_
        rintro kept after ⟨newTail, second⟩
        exact ⟨_, first.through rfl (.inl rfl) second others.inside apart second.shows_⟩
      | some node =>
        have brought := first.shows_.here.contents
        have form := first.shows_.here.contents_forms
        have aborts : middle.arena.isAborting node = newHead.aborts := by
          simpa using first.shows_.isAborting_eq first.changes.nodup
        rw [gives_arenaHere_bind, aborts]
        split
        · refine .bind (Spares.signalDead rest middle) ?_
          rintro _ after spared
          exact .pure ⟨_, (first.dead form brought).spared spared⟩
        · rename_i goes
          refine .bind onward ?_
          rintro kept after ⟨newTail, second⟩
          -- What the statement brings into the row stays as it is while the rest is walked.
          have beside : (newHead.contents.append .nil).ids.Disjoint tail.ids := by
            rw [Code.ids_append, Code.ids, List.append_nil]
            exact fun node held mem => first.changes.disjoint others.inside apart
              ((Code.ids_contents_sublist newHead).subset held) mem
          have whole := (second.changes.keep brought beside).append second.shows_
          rw [Code.append_assoc, Code.append_nil_left] at whole
          exact .pure ⟨_, first.through (by simpa using goes) form second others.inside apart whole⟩

/-- A block is rewritten with its row, and removed if nothing is left in it. -/
theorem leavesNormal_rewriteBlock (visits : ReshapesStmts visit) {stmts : List NodeId}
    {row : Code} (found : walk.arena.stmt? id = some (.block stmts))
    (rowShows : walk.arena.Shows (.row .stmt stmts) row) (nodup : (Code.block id row).ids.Nodup) :
    Gives (rewriteBlock visit id stmts) walk fun answer after =>
      walk.LeavesNormal (.block id row) answer.node after := by
  refine .bind (reshapes_rewriteStmts visits rowShows (List.nodup_cons.1 nodup).2) ?_
  rintro kept after ⟨newRow, first⟩
  cases kept with
  | nil =>
    have nothing : newRow = .nil := by
      cases first.shows_
      rfl
    subst nothing
    exact .pure ⟨.nil, first.toAltered.removed (List.subset_cons_self _ _) (fun _ => rfl) rfl,
      fun _ _ _ => .inl rfl⟩
  | cons node rest =>
    have something : newRow ≠ .nil := by
      rintro rfl
      cases first.shows_
    dsimp only
    rw [gives_editStmt_bind]
    refine .pure
      ⟨.block id newRow, first.above first.shows_ found _ rfl rfl nodup
        (fun _ => rfl) (.refl _) .block ⟨something, first.normal⟩, ?_⟩
    rintro other _ same
    obtain ⟨rfl, -⟩ := Code.block.inj same
    exact .inr ⟨newRow, rfl⟩

section Branch

variable {cond : NodeId} {yes no : Option NodeId} {condCode yesCode noCode newCondCode : Code}
  {middle : Walk} {newCond : NodeId}

/-- What may be absent is walked. -/
theorem reshapes_visitArm (visits : ReshapesStmts visit) {arm : Option NodeId}
    (shows_ : walk.arena.Shows (.maybe .stmt arm) code) (nodup : code.ids.Nodup) :
    Gives (visitArm visit arm) walk fun node after => ∃ newCode,
      walk.Reshaped code after (.maybe .stmt node) newCode := by
  cases shows_ with
  | absent => exact .pure ⟨.nil, .idle .absent nodup trivial (fun _ => rfl) rfl⟩
  | present here => exact (visits here nodup).mono fun _ _ left => left.imp fun _ told => told.1

/-- The fork in which an arm is walked does not show. -/
theorem reshapes_walkArm (visits : ReshapesStmts visit) (label : String) {arm : Option NodeId}
    (shows_ : walk.arena.Shows (.maybe .stmt arm) code) (nodup : code.ids.Nodup) :
    Gives (walkArm visit label arm) walk fun answer after => ∃ newCode,
      walk.Reshaped code after (.maybe .stmt answer.1) newCode := by
  cases shows_ with
  | absent => exact .pure ⟨.nil, .idle .absent nodup trivial (fun _ => rfl) rfl⟩
  | @present _ arm _ here =>
    have visited : Gives (inFork label (visit arm)) walk fun answer after =>
        ∃ newCode, walk.Reshaped code after (.maybe .stmt answer.1) newCode := by
      refine ends_inFork.2 (Gives.mono (visits here nodup) ?_)
      rintro node after ⟨newCode, left, -⟩
      exact ⟨newCode, ⟨left.changes, left.counts, left.noted⟩, left.shows_, left.normal⟩
    refine .bind visited ?_
    rintro ⟨node, last⟩ after left
    rw [gives_arenaHere_bind]
    split
    · exact .pure left
    · exact .pure left

/-- A condition of known value was walked: the arm that it takes stands for the conditional, and the
other one was not walked. -/
theorem leavesNormal_takeArm (visits : ReshapesStmts visit) (truth : Bool)
    (first : walk.Reshaped condCode middle (.one .expr newCond) newCondCode)
    (known : newCondCode.literal?.isSome = true)
    (yesShows : walk.arena.Shows (.maybe .stmt yes) yesCode)
    (noShows : walk.arena.Shows (.maybe .stmt no) noCode)
    (nodup : (Code.branch id condCode yesCode noCode).ids.Nodup) :
    Gives (takeArm visit truth yes no) middle fun answer after =>
      walk.LeavesNormal (.branch id condCode yesCode noCode) answer.node after := by
  have takenShows : walk.arena.Shows (.maybe .stmt (if truth then yes else no))
      (if truth then yesCode else noCode) := by
    split
    · exact yesShows
    · exact noShows
  have taken : (if truth then yesCode else noCode).ids.Sublist (yesCode.ids ++ noCode.ids) := by
    split
    · exact List.sublist_append_left _ _
    · exact List.sublist_append_right _ _
  have nodupAll := (List.nodup_cons.1 nodup).2
  have apart : condCode.ids.Disjoint (if truth then yesCode else noCode).ids :=
    fun _ held mem => List.disjoint_of_nodup_append nodupAll held (taken.subset mem)
  rw [takeArm_eq]
  refine .bind (reshapes_visitArm visits (first.changes.keep takenShows (List.disjoint_symm apart))
    (nodupAll.of_append_right.sublist taken)) ?_
  rintro node after ⟨newCode, second⟩
  have both := first.append second takenShows.inside apart
  have altered :=
    (both.widen fun _ mem => List.mem_cons_of_mem id ((taken.append_left _).subset mem)).sublist
      (List.sublist_append_right _ _)
  refine .pure
    ⟨newCode, ⟨(altered.congr fun kind => ?_).renote ?_, second.shows_, second.normal⟩, nofun⟩
  · rw [first.shows_.exitCount_of_exprs rfl, Nat.zero_add]
  · rw [Code.notes_of_literal known, List.nil_append]

/-- Both arms were walked, one behind the other, and the condition that was walked before them is
not known. -/
structure ArmsReshaped (before : Walk) (condCode yesCode noCode : Code) (after : Walk) (cond : NodeId) (yes no : Option NodeId)
    (newCond newYes newNo : Code) : Prop
    extends Altered before (condCode.ids ++ (yesCode.ids ++ noCode.ids)) after (newCond.ids ++ (newYes.ids ++ newNo.ids))
      (fun kind => newYes.exitCount kind + newNo.exitCount kind) (newCond.notes ++ (newYes.notes ++ newNo.notes)) where
  condShows : after.arena.Shows (.one .expr cond) newCond
  yesShows : after.arena.Shows (.maybe .stmt yes) newYes
  noShows : after.arena.Shows (.maybe .stmt no) newNo
  unknown : newCond.literal? = none
  normalCond : newCond.IsNormal
  normalYes : newYes.IsNormal
  normalNo : newNo.IsNormal

theorem armsReshaped {walkedYes after : Walk} {newYes newNo : Option NodeId}
    {newYesCode newNoCode : Code}
    (first : walk.Reshaped condCode middle (.one .expr newCond) newCondCode)
    (unknown : newCondCode.literal? = none)
    (second : middle.Reshaped yesCode walkedYes (.maybe .stmt newYes) newYesCode)
    (third : walkedYes.Reshaped noCode after (.maybe .stmt newNo) newNoCode)
    (inside : ∀ id ∈ yesCode.ids ++ noCode.ids, id < walk.arena.size)
    (nodup : (condCode.ids ++ (yesCode.ids ++ noCode.ids)).Nodup) :
    walk.ArmsReshaped condCode yesCode noCode after newCond newYes newNo newCondCode
      newYesCode newNoCode := by
  have apartCond : condCode.ids.Disjoint (yesCode.ids ++ noCode.ids) :=
    List.disjoint_of_nodup_append nodup
  have apartArms : yesCode.ids.Disjoint noCode.ids :=
    List.disjoint_of_nodup_append nodup.of_append_right
  have insideNo : ∀ id ∈ noCode.ids, id < middle.arena.size := fun id mem =>
    Nat.lt_of_lt_of_le (inside id (List.mem_append_right _ mem)) first.changes.grown
  have arms := second.append third insideNo apartArms
  exact {
    toAltered := (first.toAltered.append arms inside apartCond).congr fun kind => by
      rw [first.shows_.exitCount_of_exprs rfl, Nat.zero_add]
    condShows := first.beside arms inside apartCond
    yesShows := second.beside third.toAltered insideNo apartArms
    noShows := third.shows_
    unknown := unknown
    normalCond := first.normal
    normalYes := second.normal
    normalNo := third.normal }

/-- A conditional stays with what is left of its arms. If that is nothing, its condition becomes a
statement. -/
theorem reshapes_behindArms {after : Walk} {yesAnswer noAnswer : Option NodeId × Arm}
    {newYesCode newNoCode : Code}
    (arms : walk.ArmsReshaped condCode yesCode noCode after newCond yesAnswer.1 noAnswer.1
      newCondCode newYesCode newNoCode)
    (found : walk.arena.stmt? id = some (.branch cond yes no))
    (free : id ∉ condCode.ids ++ (yesCode.ids ++ noCode.ids)) :
    Gives (behindArms id newCond yesAnswer noAnswer) after fun answer last =>
      walk.LeavesNormal (.branch id condCode yesCode noCode) answer.node last := by
  obtain ⟨newYes, yesArm⟩ := yesAnswer
  obtain ⟨newNo, noArm⟩ := noAnswer
  refine .bind (Spares.joinBehind yesArm noArm after) ?_
  rintro _ joined spared
  have all := arms.toAltered.spared spared
  have condLeft : joined.arena.Shows (.one .expr newCond) newCondCode :=
    spared.arena ▸ arms.condShows
  have yesLeft : joined.arena.Shows (.maybe .stmt newYes) newYesCode := spared.arena ▸ arms.yesShows
  have noLeft : joined.arena.Shows (.maybe .stmt newNo) newNoCode := spared.arena ▸ arms.noShows
  dsimp only
  split
  · -- No arm is left, so no exit that the arms entered would be.
    rw [gives_pushLike_bind]
    have effect :=
      ((all.widen (List.subset_cons_self id _)).sublist (List.sublist_append_left _ _)).push
        (.stmt (.effect newCond)) (joined.arena.span id)
    cases yesLeft
    cases noLeft
    refine .pure
      ⟨.effect joined.arena.size newCondCode,
        ⟨(effect.congr fun kind => rfl).renote (List.append_nil _).symm,
          .present (.effect ?_ (condLeft.push _ _)), arms.unknown, arms.normalCond⟩, nofun⟩
    exact (Arena.stmt?_push _ _ _ _).trans (if_pos rfl)
  · rename_i someArm
    rw [gives_editStmt_bind]
    have edited := all.editStmt found free (.withArms newCond newYes newNo)
    have below := edited.not_mem
    simp only [List.mem_append, not_or] at below
    refine .pure
      ⟨.branch id newCondCode newYesCode newNoCode,
        ⟨edited.congr fun kind => List.length_append,
          .present (.branch ?_ (condLeft.mapStmt below.1 _) (yesLeft.mapStmt below.2.1 _)
            (noLeft.mapStmt below.2.2 _)), arms.unknown, fun none_ => ?_, arms.normalCond,
          arms.normalYes, arms.normalNo⟩, nofun⟩
    · exact Arena.stmt?_mapStmt_self (all.changes.stmt?_eq found free) _
    · exact someArm (yesLeft.eq_nil_iff.1 none_.1) (noLeft.eq_nil_iff.1 none_.2)

/-- A conditional is rewritten with its arms, or the arm that it is known to take stands for it. -/
theorem leavesNormal_rewriteBranch (visits : ReshapesStmts visit)
    (found : walk.arena.stmt? id = some (.branch cond yes no))
    (condShows : walk.arena.Shows (.one .expr cond) condCode)
    (yesShows : walk.arena.Shows (.maybe .stmt yes) yesCode)
    (noShows : walk.arena.Shows (.maybe .stmt no) noCode)
    (nodup : (Code.branch id condCode yesCode noCode).ids.Nodup) :
    Gives (rewriteBranch visit id cond yes no) walk fun answer after =>
      walk.LeavesNormal (.branch id condCode yesCode noCode) answer.node after := by
  obtain ⟨free, nodupAll⟩ := List.nodup_cons.1 nodup
  have nodupArms := nodupAll.of_append_right
  have apartCond : condCode.ids.Disjoint (yesCode.ids ++ noCode.ids) :=
    List.disjoint_of_nodup_append nodupAll
  have apartArms : yesCode.ids.Disjoint noCode.ids := List.disjoint_of_nodup_append nodupArms
  have inside : ∀ id ∈ yesCode.ids ++ noCode.ids, id < walk.arena.size := fun id mem =>
    (List.mem_append.1 mem).elim (yesShows.inside id) (noShows.inside id)
  rw [rewriteBranch_eq]
  refine .bind (reshapes_walkExpr condShows nodupAll.of_append_left) ?_
  rintro newCond middle ⟨newCondCode, first⟩
  unfold behindCond
  rw [gives_arenaHere_bind, first.shows_.literal?_eq]
  split
  · rename_i known
    exact leavesNormal_takeArm visits _ first (Option.isSome_iff_exists.2 ⟨_, known⟩)
      yesShows noShows nodup
  · rename_i unknown
    have yesMiddle := first.changes.keep yesShows fun _ mem held =>
      apartCond held (List.mem_append_left _ mem)
    have noMiddle := first.changes.keep noShows fun _ mem held =>
      apartCond held (List.mem_append_right _ mem)
    refine .bind (reshapes_walkArm visits _ yesMiddle nodupArms.of_append_left) ?_
    rintro yesAnswer walkedYes ⟨newYesCode, second⟩
    refine .bind
      (reshapes_walkArm visits _ (second.changes.keep noMiddle (List.disjoint_symm apartArms))
        nodupArms.of_append_right) ?_
    rintro noAnswer walkedNo ⟨newNoCode, third⟩
    exact reshapes_behindArms (armsReshaped first unknown second third inside nodupAll) found free

end Branch

section Loop

/-- The body of a loop was walked, and the scopes at its breaks were taken out. -/
structure BodyReshaped (before : Walk) (code : Code) (after : Walk) (answer : Option NodeId × List Scope) (newCode : Code) : Prop
    extends Altered before code.ids after newCode.ids (fun kind => if kind = .ret then newCode.exitCount kind else 0) newCode.notes where
  shows_ : after.arena.Shows (.maybe .stmt answer.1) newCode
  normal : newCode.IsNormal
  staysBlock : code.StaysBlock newCode
  collected : answer.2.length = newCode.exitCount .brk

/-- The registries of a loop collect the breaks that are left in its body. -/
theorem reshapes_walkLoopBody (visits : ReshapesStmts visit)
    (shows_ : walk.arena.Shows (.one .stmt body) code) (nodup : code.ids.Nodup) :
    Gives (walkLoopBody visit body) walk fun answer after => ∃ newCode,
      walk.BodyReshaped code after answer newCode := by
  have walked : Gives (inFork "loop" <| catching .byLoop do
      Site.forgetAll (walk.arena.variablesWritten body)
      let node ← visit body
      pure (node, ← Analysis.takeExits .byLoop .brk)) walk fun answer after =>
        ∃ newCode, walk.BodyReshaped code after answer.1 newCode := by
    refine ends_inFork.2 (ends_catching.2 ?_)
    refine Gives.bind (Spares.lift (annotates_quiet.forgetAll _) _) ?_
    rintro _ start spared
    have startShows : start.arena.Shows (.one .stmt body) code := spared.arena ▸ shows_
    refine Gives.bind (visits startShows nodup) ?_
    rintro node last ⟨newCode, left, staysBlock⟩
    refine Gives.bind (gives_takeExits rfl) ?_
    rintro snapshots taken ⟨rfl, -, arena, behind⟩
    have entered : start.analysis.exits = walk.analysis.exits.enter .byLoop := spared.exits
    have counts := entered ▸ left.counts
    obtain ⟨breaks, held, counted⟩ :=
      Exits.Gains.collected counts (show Catch.byLoop.catches .brk = true from rfl)
    have exits := congrArg Analysis.exits (behind walk.analysis.exits)
    refine .pure ⟨newCode, ?_, ?_, left.normal, staysBlock, ?_⟩
    · refine ⟨arena ▸ spared.arena ▸ left.changes, ?_, ?_⟩
      · change walk.analysis.exits.Counts _ (taken.analysis.exits.leave .byLoop walk.analysis.exits)
        rw [show taken.analysis.exits.leave .byLoop walk.analysis.exits =
          last.analysis.exits.leave .byLoop walk.analysis.exits from exits]
        exact counts.leave.congr fun kind => by cases kind <;> rfl
      · have traces := congrArg Analysis.traces (behind walk.analysis.exits)
        have vars := congrArg Analysis.vars (behind walk.analysis.exits)
        have outside : walk.analysis.Annotates [] (walk.analysis.inside .byLoop) := .of_log rfl rfl
        exact outside.after_quiet
          (spared.notes.after_quiet (left.noted.quiet_after (.of_log traces vars)))
    · change taken.arena.Shows _ _
      rw [arena]
      exact left.shows_
    · rw [held]
      exact counted
  unfold walkLoopBody
  rw [gives_arenaHere_bind]
  exact .bind walked fun answer after told => .pure told

/-- What the registries of a loop that stays, or is removed, count. -/
theorem exitCount_cycle_trim (id : NodeId) (code : Code) (kind : ExitKind) :
    (Code.cycle id code.trim).exitCount kind = if kind = .ret then code.exitCount kind else 0 := by
  rw [Code.exitCount, Code.exitNodes_cycle]
  split
  · rename_i returns
    rw [Code.exitNodes_trim code (by simp [returns]), Code.exitCount]
  · rfl

/-- A loop stays with what is left of its body, and is removed if it is left at once. -/
theorem reshapes_behindBody {walked : Walk} {answer : Option NodeId × List Scope} {newCode : Code}
    (left : walk.BodyReshaped code walked answer newCode)
    (found : walk.arena.stmt? id = some (.loop (some body))) (free : id ∉ code.ids)
    (stays : newCode = .nil ∨ ∃ row, newCode = .block body row) :
    Gives (behindBody id answer.1 answer.2) walked fun answer after =>
      walk.Reshaped (.loop id code) after (.maybe .stmt answer.node) (.cycle id newCode.trim) := by
  have normal : (Code.cycle id newCode.trim).IsNormal := Code.isNormal_cycle_trim left.normal stays
  have counted := exitCount_cycle_trim id newCode
  refine .bind (gives_trimBody left.shows_ left.changes.nodup) ?_
  rintro cutting trimmed cut
  have idle : trimmed.analysis.exits = walked.analysis.exits := by rw [cut.same]
  have log : walked.analysis.Annotates [] trimmed.analysis :=
    .of_log (by rw [cut.same]) (by rw [cut.same])
  have altered : walk.Altered code.ids trimmed newCode.trim.ids _ newCode.notes :=
    ⟨left.changes.trans cut.changes, idle ▸ left.counts, left.noted.quiet_after log⟩
  have edited := altered.editStmt found free (.withBody cutting.node)
  rw [gives_editStmt_bind]
  refine .bind (Spares.joinBreaks answer.2 _) ?_
  rintro _ after spared
  have whole := edited.spared spared
  have bodyLeft : after.arena.Shows (.maybe .stmt cutting.node) newCode.trim :=
    spared.arena ▸ cut.shows_.mapStmt edited.not_mem _
  have noted : (Code.cycle id newCode.trim).notes = newCode.notes := by
    rw [Code.notes_cycle, Code.notes_trim]
  rw [gives_arenaHere_bind, bodyLeft.any_isLoneBreak]
  split
  · rename_i lone
    have gone : Code.cycle id newCode.trim = .nil := if_pos lone
    rw [gone] at normal counted noted ⊢
    exact .pure ⟨((whole.sublist (List.nil_sublist _)).congr counted).renote noted, .absent, normal⟩
  · rename_i circles
    have here : Code.cycle id newCode.trim = .loop id newCode.trim := if_neg circles
    have foundAfter : after.arena.stmt? id = some (.loop cutting.node) :=
      spared.arena ▸ Arena.stmt?_mapStmt_self (altered.changes.stmt?_eq found free) _
    rw [here] at normal counted noted ⊢
    exact .pure ⟨(whole.congr counted).renote noted, .present (.loop foundAfter bodyLeft), normal⟩

/-- A loop around a body is rewritten with it. Its breaks are those that are left in the body. -/
theorem reshapes_rewriteLoop (visits : ReshapesStmts visit)
    (found : walk.arena.stmt? id = some (.loop (some body)))
    (bodyShows : walk.arena.Shows (.one .stmt body) code) (nodup : (Code.loop id code).ids.Nodup) :
    Gives (rewriteLoop visit id (some body)) walk fun answer after =>
      ∃ (newCode : Code) (view : LoopView) (last : Walk),
      viewLoop visit body walk = .ok view last ∧ view.breaks.length = newCode.exitCount .brk ∧
        walk.Reshaped (.loop id code) after (.maybe .stmt answer.node)
          (.cycle id newCode.trim) := by
  obtain ⟨free, nodupBody⟩ := List.nodup_cons.1 nodup
  rw [rewriteLoop_eq, gives_arenaHere_bind]
  split
  · exact .throw
  · rename_i isBlock
    refine .bind
      ((reshapes_walkLoopBody visits bodyShows nodupBody).and
        (ends_reached (walkLoopBody visit body) walk).gives) ?_
    rintro answer walked ⟨⟨newCode, left⟩, reached⟩
    obtain ⟨view, seen, taken⟩ := viewLoop_of_walkLoopBody reached
    -- Only a block is walked as a body, so a block or nothing is left of it.
    have stays : newCode = .nil ∨ ∃ row, newCode = .block body row := by
      rcases bodyShows.block?_cases with ⟨_, row, -, rfl, -⟩ | ⟨noBlock, -⟩
      · exact left.staysBlock body row rfl
      · exact absurd (by rw [noBlock]; rfl) isBlock
    refine (reshapes_behindBody left found free stays).mono fun _ _ reshaped => ?_
    exact ⟨newCode, view, walked, seen, taken ▸ left.collected, reshaped⟩

/-- A loop without a body stays. -/
theorem leavesNormal_rewriteLoop (visits : ReshapesStmts visit) {node : Option NodeId}
    (found : walk.arena.stmt? id = some (.loop node))
    (bodyShows : walk.arena.Shows (.maybe .stmt node) code)
    (nodup : (Code.loop id code).ids.Nodup) :
    Gives (rewriteLoop visit id node) walk fun answer after =>
      walk.LeavesNormal (.loop id code) answer.node after := by
  cases bodyShows with
  | absent =>
    have shows_ : walk.arena.Shows (.maybe .stmt (some id)) (.loop id .nil) :=
      .present (.loop found .absent)
    exact .pure ⟨.loop id .nil,
      .idle shows_ nodup ⟨.inl rfl, trivial⟩ (fun kind => by cases kind <;> rfl) rfl, nofun⟩
  | present here =>
    refine (reshapes_rewriteLoop visits found here nodup).mono ?_
    rintro answer after ⟨newCode, _, _, -, -, reshaped⟩
    exact ⟨_, reshaped, nofun⟩

end Loop

end Walk

end ValueFlow
