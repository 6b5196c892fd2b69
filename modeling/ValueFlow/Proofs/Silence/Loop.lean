import ValueFlow.Proofs.Silence.Branch

/-!
# Silent walks of loops

The body is foretold from where its targets are forgotten. What its breaks tell is joined behind the
loop, and what its continues tell is dropped. Notice is given of a continue at the end of what is
left of the body, and of a body that is left at once.
-/

namespace ValueFlow
set_option autoImplicit false

namespace Walk

variable {walk : Walk} {id body : NodeId} {code : Code} {visit : NodeId → WalkM (Option NodeId)}
  {depth : Nat}

/-- What the breaks of a loop tell is joined. -/
theorem tells_joinBreaks {breaks : List Scope} (sound : walk.toSite.Sound)
    (backed : ∀ path ∈ breaks, path.Backed walk.analysis.traces) :
    Tells (joinBreaks breaks) walk
      (some (walk.sketch.join (breaks.map (·.outline walk.analysis.traces))))
      (fun _ after => after.arena = walk.arena)
      nothingDue := by
  cases breaks with
  | nil => exact .pure sound rfl
  | cons path paths =>
    exact .lift (Site.draws_join sound (List.cons_ne_nil _ _) backed) fun _ _ _ _ => rfl

/-- A loop stays with what is left of its body, unless an edit is due or the loop is left at
once. -/
theorem tells_close {left : StmtAnswer} {breaks : List Scope} (sound : walk.toSite.Sound)
    (backed : ∀ path ∈ breaks, path.Backed walk.analysis.traces) :
    Tells (joinBreaks breaks >>= fun _ => arenaHere >>= fun arena =>
        if left.node.any (isLoneBreak arena) = true then
          (pure (removed "Removed useless loop with immediate 'break' statement.") :
            WalkM StmtAnswer)
        else pure ⟨some id, left.edit⟩) walk
      (if left.edit.isSome = true ∨ left.node.any (isLoneBreak walk.arena) = true then none
        else some (walk.sketch.join (breaks.map (·.outline walk.analysis.traces))))
      (fun answer after => answer = stay id ∧ after.arena = walk.arena) fun answer =>
        answer.edit.isSome = true := by
  have holds := Discipline.holds_joinBreaks integrity_law (ready_of_sound sound) fun path mem =>
    ⟨sound.analysis, backed path mem⟩
  have steady : Steady (arenaHere >>= fun arena => if left.node.any (isLoneBreak arena) = true then
      (pure (removed "Removed useless loop with immediate 'break' statement.") : WalkM StmtAnswer)
        else pure ⟨some id, left.edit⟩) := by
    refine .arenaHere_bind fun arena => ?_
    split <;> exact .pure
  refine (tells_joinBreaks sound backed).bind_to holds
    (fun _ after kept _ => steady after kept.toReady) nofun fun _ after drawn _ still => ?_
  rw [Tells.arenaHere_bind, still]
  split
  · rename_i lone
    rw [if_pos (.inr lone)]
    exact .due drawn.sound rfl
  · rename_i stays
    cases edit : left.edit with
    | some edit =>
      rw [if_pos (.inl rfl)]
      exact .due drawn.sound rfl
    | none =>
      rw [if_neg (by simpa using stays), Option.some.inj drawn.image]
      exact .pure drawn.sound ⟨rfl, still⟩

/-- Notice is given of a body that does not lead back to the head from its end. -/
theorem tells_behindBody {row : Code} {breaks : List Scope} {stmts : List NodeId}
    (sound : walk.toSite.Sound) (foundBody : walk.arena.block? body = some stmts)
    (rowShows : walk.arena.Shows (.row .stmt stmts) row) (free : id ∉ (Code.block body row).ids)
    (backed : ∀ path ∈ breaks, path.Backed walk.analysis.traces) :
    Tells (behindBody id (some body) breaks) walk
      (if (Code.block body row).circles = true then
        some (walk.sketch.join (breaks.map (·.outline walk.analysis.traces))) else none)
      (fun answer after => answer = stay id ∧ after.arena = walk.arena.mapStmt id
        (.withBody (some body))) fun answer => answer.edit.isSome = true := by
  unfold behindBody trimBody trimContinue
  rw [bind_assoc, Tells.arenaHere_bind, foundBody]
  dsimp only [Option.getD_some]
  rcases rowShows.withoutCont?_cases with ⟨kept, ends, last, -⟩ | ⟨ends, last⟩
  · have stops : (Code.block body row).circles = false := by simp [Code.circles, ends]
    rw [if_pos (by simp [last]), if_neg (by simp [stops])]
    cases stmts.dropLast with
    | nil => exact .of_none (tells_close sound backed)
    | cons node rest => exact .of_none (tells_close sound backed)
  · have lone : (some body).any (isLoneBreak (walk.arena.mapStmt id (.withBody (some body)))) =
        (Code.block body row).isLoneBreak := by
      have bodyShows : walk.arena.Shows (.one .stmt body) (.block body row) :=
        .block (Arena.block?_eq_some.1 foundBody) rowShows
      exact (Arena.Shows.present (bodyShows.mapStmt free _)).any_isLoneBreak
    have image :
        (if (Code.block body row).circles = true then
          some (walk.sketch.join (breaks.map (·.outline walk.analysis.traces))) else none) =
        if (stay body).edit.isSome = true ∨
            (some body).any (isLoneBreak (walk.arena.mapStmt id (.withBody (some body)))) = true
          then none
        else some (walk.sketch.join (breaks.map (·.outline walk.analysis.traces))) := by
      simp only [lone, Code.circles, ends, Option.isNone_none, Bool.true_and, stay,
        Rewritten.unchanged, Option.isSome_none, Bool.false_eq_true, false_or, Bool.not_eq_true']
      cases (Code.block body row).isLoneBreak <;> rfl
    rw [if_neg (by simpa using last), pure_bind, image]
    exact tells_close sound backed

/-- The body of a loop was foretold from its head to its foot, and stays. -/
structure LoopTold (walk : Walk) (body : NodeId) (code : Code)
    (answer : Option NodeId × List Scope) (after : Walk) (head foot : Sketch) : Prop where
  forgets : (walk.sketch.inside .byLoop).forget code.targets = some head
  silent : code.silent head = some foot
  stays : answer.1 = some body
  parked : answer.2.map (·.outline after.analysis.traces) = (foot.exits .brk).getD []
  spliced : walk.arena.Spliced code after.arena (.one .stmt body)

/-- Behind a loop that is silent only what its breaks tell is joined. -/
theorem LoopTold.tells_behindBody {row : Code} {breaks : List Scope} {middle : Walk}
    {head foot : Sketch}
    (told : walk.LoopTold body (.block body row) (some body, breaks) middle head foot)
    (found : walk.arena.stmt? id = some (.loop (some body)))
    (free : id ∉ (Code.block body row).ids) (sound : middle.toSite.Sound)
    (backed : ∀ path ∈ breaks, path.Backed middle.analysis.traces) :
    Tells (behindBody id (some body) breaks) middle
      (if (Code.block body row).flat.circles = true then
        some (middle.sketch.join ((foot.exits .brk).getD [])) else none)
      (walk.StaysStmt id (.loop id (.block body row))) fun answer =>
        answer.edit.isSome = true := by
  obtain ⟨newCode, left, sameCode⟩ := told.spliced.shows_
  have circles : (Code.block body row).flat.circles = newCode.circles := by
    rw [← Code.circles_bare newCode, sameCode, Code.circles_bare]
  have freeNew : id ∉ newCode.ids := fun mem =>
    free ((Code.ids_sublist_of_flat sameCode).subset mem)
  rw [circles, ← told.parked]
  rcases left.block?_cases with ⟨newStmts, newRow, foundNow, rfl, newShows⟩ | ⟨-, noBlock⟩
  · refine (Walk.tells_behindBody sound foundNow newShows freeNew backed).mono ?_
      fun _ held => held
    rintro _ after _ ⟨rfl, edited⟩
    have foundLoop := (told.spliced.stmt?_eq free).trans found
    have above := Arena.Stays.mapStmt foundLoop (.withBody (some body)) fun _ : True => rfl
    rw [StaysStmt, edited]
    refine ⟨rfl, (told.spliced.above above).widen (by simp [Code.ids]) (by simp [Code.isFlat]),
      .loop id (.block body newRow), .loop (Arena.stmt?_mapStmt_self foundLoop _)
      (.present (left.mapStmt freeNew _)), ?_⟩
    simp only [Code.bare, Code.flat] at sameCode ⊢
    rw [sameCode]
  · cases newCode with
    | block id row => exact absurd rfl (noBlock id row)
    | _ => cases sameCode

namespace Foretold

variable (foretold : Foretold visit depth)
include foretold

/-- The body is foretold in the fork and with the registries of the loop. -/
theorem tells_inLoop (sound : walk.toSite.Sound)
    (shows_ : walk.arena.Shows (.one .stmt body) code) (nodup : code.ids.Nodup)
    (low : code.ids.length ≤ depth) :
    Tells (do
        Site.forgetAll (walk.arena.variablesWritten body)
        let node ← visit body
        pure (node, ← Analysis.takeExits .byLoop .brk))
      { walk with scope := walk.scope.fork "loop", analysis := walk.analysis.inside .byLoop }
      (((walk.sketch.inside .byLoop).forget code.targets).bind fun head =>
        (code.silent head).bind fun foot => some (foot.take .brk))
      (fun answer after => ∃ head foot, walk.LoopTold body code answer after head foot)
      nothingDue := by
  have soundInside : Site.Sound ⟨walk.scope.fork "loop", walk.analysis.inside .byLoop⟩ :=
    ⟨sound.analysis.inside .byLoop, sound.scope.fork "loop"⟩
  have start : Site.sketch ⟨walk.scope.fork "loop", walk.analysis.inside .byLoop⟩ =
      walk.sketch.inside .byLoop := Site.sketch_inside _ _
  have written : (walk.sketch.inside .byLoop).forget (walk.arena.variablesWritten body) =
      (walk.sketch.inside .byLoop).forget code.targets := Sketch.forget_congr fun var =>
    shows_.mem_variablesWritten_iff nodup
  have forgets := Site.draws_forgetAll soundInside (walk.arena.variablesWritten body)
  rw [start, written] at forgets
  refine Tells.lift_bind forgets fun _ head drawnHead _ => ?_
  refine .bind (foretold.tells drawnHead.sound shows_ nodup low) drawnHead.sound
    (foretold.steady body) (fun node => .bind (.takeExits .byLoop .brk) fun _ => .pure) ?_
  rintro _ foot drawnFoot ⟨rfl, spliced⟩
  change Tells
    ((liftM (liftM (Analysis.takeExits .byLoop .brk) : SiteM (List Scope)) :
        WalkM (List Scope)) >>= fun breaks => pure (some body, breaks)) foot _ _ _
  refine .lift_then (Site.draws_takeExits drawnFoot.sound rfl)
    fun breaks last drawnLast told => ?_
  exact .pure drawnLast.sound
    ⟨head.sketch, foot.sketch, drawnHead.image, drawnFoot.image, rfl, told, spliced⟩

/-- The body is walked in a fork with registries of its own. -/
theorem tells_walkLoopBody (sound : walk.toSite.Sound)
    (shows_ : walk.arena.Shows (.one .stmt body) code) (nodup : code.ids.Nodup)
    (low : code.ids.length ≤ depth) :
    Tells (walkLoopBody visit body) walk
      (((walk.sketch.inside .byLoop).forget code.targets).bind fun head =>
        (code.silent head).map fun foot => walk.sketch.beside (walk.sketch.leave .byLoop foot))
      (fun answer after => ∃ head foot, walk.LoopTold body code answer after head foot)
      nothingDue := by
  have forked : Site.Sound ⟨walk.scope.fork "loop", walk.analysis⟩ :=
    ⟨sound.analysis, sound.scope.fork "loop"⟩
  have image : (((walk.sketch.inside .byLoop).forget code.targets).bind fun head =>
        (code.silent head).map fun foot => walk.sketch.beside (walk.sketch.leave .byLoop foot)) =
      ((((walk.sketch.inside .byLoop).forget code.targets).bind fun head =>
        (code.silent head).bind fun foot => some (foot.take .brk)).map
        (walk.sketch.leave .byLoop)).map walk.sketch.beside := by
    cases (walk.sketch.inside .byLoop).forget code.targets with
    | none => rfl
    | some head =>
      rw [Option.bind_some, Option.bind_some]
      cases code.silent head with
      | none => rfl
      | some foot =>
        exact congrArg (fun behind => some (walk.sketch.beside behind))
          (Sketch.leave_take rfl foot).symm
  unfold walkLoopBody
  rw [Tells.arenaHere_bind, image]
  have inner := foretold.tells_inLoop sound shows_ nodup low
  refine Tells.map (.inFork sound (.catching forked inner)) ?_ fun _ none_ => none_
  rintro answer _ _ ⟨_, -, -, ⟨last, -, -, ⟨head, foot, told⟩, rfl⟩, -, rfl⟩
  exact ⟨head, foot, { told with }⟩

theorem tells_rewriteLoop {node : Option NodeId} (sound : walk.toSite.Sound)
    (found : walk.arena.stmt? id = some (.loop node))
    (shows_ : walk.arena.Shows (.maybe .stmt node) code) (nodup : (Code.loop id code).ids.Nodup)
    (low : code.ids.length ≤ depth) :
    TellsRewrite (rewriteLoop visit id node) walk id (.loop id code) := by
  obtain ⟨free, nodupBody⟩ := List.nodup_cons.1 nodup
  cases shows_ with
  | absent =>
    have stays : walk.arena.Shows (.one .stmt id) (.loop id .nil) := .loop found .absent
    exact .pure sound ⟨rfl, .refl stays rfl⟩
  | @present _ body _ here =>
    rw [rewriteLoop_eq, TellsRewrite, Tells.arenaHere_bind]
    rcases here.block?_cases with ⟨stmts, row, foundBody, rfl, rowShows⟩ | ⟨foundBody, single⟩
    · have silent : (Code.loop id (.block body row)).silent walk.sketch =
          ((walk.sketch.inside .byLoop).forget (Code.block body row).targets).bind fun head =>
            ((Code.block body row).silent head).bind fun foot =>
            if (Code.block body row).flat.circles then
              some ((walk.sketch.beside (walk.sketch.leave .byLoop foot)).join
                ((foot.exits .brk).getD []))
            else none := rfl
      have holds : integrity.Holds integrity.ofWalk (walkLoopBody visit body) walk
          fun answer after =>
          (∀ node ∈ answer.1, integrity.region.stmts node) ∧ ∀ path ∈ answer.2,
            integrity.good path after.analysis :=
        Discipline.holds_walkLoopBody integrity_law (fun id _ => foretold.yields id)
          (ready_of_sound sound) trivial
      rw [foundBody, if_neg (by simp), silent]
      refine (foretold.tells_walkLoopBody sound here nodupBody low).bind_to holds ?_ ?_ ?_
      · exact fun answer after kept good =>
          (Discipline.holds_behindBody integrity_law kept.toReady trivial good.1 good.2).mono
          fun _ _ _ _ => trivial
      · intro none_
        simp_all
      rintro ⟨node, breaks⟩ middle drawn good ⟨head, foot, told⟩
      obtain rfl : node = some body := told.stays
      have image := drawn.image
      rw [told.forgets, Option.bind_some, told.silent] at image
      have sketchNow : walk.sketch.beside (walk.sketch.leave .byLoop foot) = middle.sketch :=
        Option.some.inj image
      rw [told.forgets, Option.bind_some, told.silent, Option.bind_some, sketchNow]
      exact told.tells_behindBody found free drawn.sound fun path mem => (good.2 path mem).2
    · have circles : code.flat.circles = false := by
        cases here with
        | block => exact absurd rfl (single _ _)
        | _ => rfl
      have silent : (Code.loop id code).silent walk.sketch = none := by
        simp [Code.silent, circles, here.single.1]
      rw [foundBody, if_pos Option.isNone_none, silent]
      exact .throw

end Foretold

end Walk

end ValueFlow
