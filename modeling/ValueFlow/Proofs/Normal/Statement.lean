import ValueFlow.Proofs.Join.Incoming
import ValueFlow.Proofs.Normal.Compound

/-!
# The result of a walk is normal, and tells what was entered

One walk, from left to right, leaves a normal tree (`leaves_normal_tree`), and the registries have
gained as many snapshots as exits are left in it (`entered_exits_are_left`): no exit is removed that
was walked, and none is left that was not. So the queries for exits, which look at the result, tell
what was entered, and a loop from which no break leads out is one that control never runs past.
Likewise the notes in the result account for what the log has gained.
-/

namespace ValueFlow
set_option autoImplicit false

namespace Walk

variable {walk after : Walk} {id body node : NodeId} {left : Option NodeId} {code : Code}
  {depth : Nat}

/-- Every kind of statement is rewritten, if the statements below it are. -/
theorem leavesNormal_rewriteStmt {visit : NodeId → WalkM (Option NodeId)}
    (visits : ReshapesStmts visit) (shows_ : walk.arena.Shows (.one .stmt id) code)
    (nodup : code.ids.Nodup) :
    Gives (rewriteStmt visit id) walk fun answer after =>
      walk.LeavesNormal code answer.node after := by
  unfold rewriteStmt
  rw [gives_arenaHere_bind]
  cases shows_ with
  | hole _ lacks =>
    rw [show walk.arena.stmt? id = none from lacks]
    exact .throw
  | block found stmts =>
    rw [found]
    exact leavesNormal_rewriteBlock visits found stmts nodup
  | assign found value =>
    rw [found]
    exact leavesNormal_rewriteAssign found value nodup
  | delete found =>
    rw [found]
    exact leavesNormal_rewriteDelete found
  | release found =>
    rw [found]
    exact leavesNormal_rewriteRelease found
  | effect found expr =>
    rw [found]
    exact leavesNormal_rewriteEffect found expr nodup
  | branch found cond yes no =>
    rw [found]
    exact leavesNormal_rewriteBranch visits found cond yes no nodup
  | loop found body =>
    rw [found]
    exact leavesNormal_rewriteLoop visits found body nodup
  | brk found =>
    rw [found]
    exact leavesNormal_rewriteExit (.brk found) nofun fun other => by cases other <;> rfl
  | cont found =>
    rw [found]
    exact leavesNormal_rewriteExit (.cont found) nofun fun other => by cases other <;> rfl
  | ret found value =>
    rw [found]
    exact leavesNormal_rewriteReturn found value nodup

/-- Whatever the depth, a walk that ends well leaves a normal tree. -/
theorem reshapes_walkStmtWithin (depth : Nat) : ReshapesStmts (walkStmtWithin depth) := by
  induction depth with
  | zero => exact fun _ _ => .throw
  | succ depth ih =>
    intro walk id code shows_ nodup
    unfold walkStmtWithin
    rw [gives_arenaHere_bind]
    refine ends_located.2 (Gives.bind (leavesNormal_rewriteStmt ih shows_ nodup) ?_)
    rintro answer rewritten ⟨newCode, reshaped, staysBlock⟩
    refine .bind (Spares.signal id answer.edit rewritten) ?_
    rintro _ after spared
    exact .pure ⟨newCode, reshaped.spared spared, staysBlock⟩

/-- If control runs past what is left of a loop, then because of a break that led out of its
body. -/
theorem gives_walkLoop_breaks (found : walk.arena.stmt? id = some (.loop (some body)))
    (bodyShows : walk.arena.Shows (.one .stmt body) code) (nodup : (Code.loop id code).ids.Nodup) :
    Gives (walkStmtWithin (depth + 1) id) walk fun left after => ∃ (view : LoopView) (last : Walk),
      viewLoop (walkStmtWithin depth) body walk = .ok view last ∧
        ∀ node, left = some node → (view.breaks ≠ [] ↔ after.arena.isAborting node = false) := by
  have rewrites : Gives (rewriteStmt (walkStmtWithin depth) id) walk fun answer after =>
      ∃ (newCode : Code) (view : LoopView) (last : Walk),
      viewLoop (walkStmtWithin depth) body walk = .ok view last ∧
        view.breaks.length = newCode.exitCount .brk ∧
        walk.Reshaped (.loop id code) after (.maybe .stmt answer.node)
          (.cycle id newCode.trim) := by
    unfold rewriteStmt
    rw [gives_arenaHere_bind, found]
    exact reshapes_rewriteLoop (reshapes_walkStmtWithin depth) found bodyShows nodup
  unfold walkStmtWithin
  rw [gives_arenaHere_bind]
  refine ends_located.2 (rewrites.bind ?_)
  rintro answer rewritten ⟨newCode, view, last, viewed, counted, reshaped⟩
  refine .bind (Spares.signal id answer.edit rewritten) ?_
  rintro _ after spared
  refine .pure ⟨view, last, viewed, fun node here => ?_⟩
  have leads : view.breaks = [] ↔ newCode.mayBreak = false := by
    rw [← List.length_eq_zero_iff, counted, Code.exitCount, List.length_eq_zero_iff,
      Code.exitNodes_brk_eq_nil]
  have settled := reshaped.spared spared
  have aborts : after.arena.isAborting node = !newCode.mayBreak := by
    rw [← newCode.mayBreak_trim, ← Code.aborts_cycle id,
      ← settled.shows_.isAborting_eq settled.changes.nodup, here, Option.any_some]
  rw [aborts, ne_eq, leads, Bool.not_eq_false, Bool.not_eq_false']

/-- A loop without a body stays, and nothing happens. -/
theorem gives_walkLoop_empty (found : walk.arena.stmt? id = some (.loop none)) :
    Gives (walkStmtWithin (depth + 1) id) walk fun left after => left = some id ∧ after = walk := by
  have rewrites : Gives (rewriteStmt (walkStmtWithin depth) id) walk fun answer after =>
      answer = stay id ∧ after = walk := by
    unfold rewriteStmt
    rw [gives_arenaHere_bind, found]
    exact .pure ⟨rfl, rfl⟩
  unfold walkStmtWithin
  rw [gives_arenaHere_bind]
  refine ends_located.2 (rewrites.bind ?_)
  rintro _ _ ⟨rfl, rfl⟩
  exact .pure ⟨rfl, rfl⟩

/-- A body with something to fold, to splice and to cut off:
`if True { x; if x { break } }; loop { if x { break }; if x { return }; None; continue }; return; break`. -/
def cluttered : Arena :=
  ⟨#[⟨.expr (.builtin "True"), ⟨0, 1⟩⟩, ⟨.expr (.read 0 none), ⟨1, 2⟩⟩, ⟨.stmt (.effect 1), ⟨2, 3⟩⟩, ⟨.stmt .brk, ⟨3, 4⟩⟩,
    ⟨.expr (.read 0 none), ⟨4, 5⟩⟩, ⟨.stmt (.branch 4 (some 3) none), ⟨5, 6⟩⟩, ⟨.stmt (.block [2, 5]), ⟨6, 7⟩⟩,
    ⟨.stmt (.branch 0 (some 6) none), ⟨7, 8⟩⟩, ⟨.expr (.builtin "None"), ⟨8, 9⟩⟩, ⟨.stmt (.effect 8), ⟨9, 10⟩⟩, ⟨.stmt .brk, ⟨10, 11⟩⟩,
    ⟨.stmt (.ret none), ⟨11, 12⟩⟩, ⟨.expr (.read 0 none), ⟨12, 13⟩⟩, ⟨.stmt (.branch 12 (some 10) none), ⟨13, 14⟩⟩,
    ⟨.expr (.read 0 none), ⟨14, 15⟩⟩, ⟨.stmt (.branch 14 (some 11) none), ⟨15, 16⟩⟩, ⟨.stmt .cont, ⟨16, 17⟩⟩,
    ⟨.stmt (.block [13, 15, 9, 16]), ⟨17, 18⟩⟩, ⟨.stmt (.loop (some 17)), ⟨18, 19⟩⟩, ⟨.stmt (.ret none), ⟨19, 20⟩⟩, ⟨.stmt .brk, ⟨20, 21⟩⟩,
    ⟨.stmt (.block [7, 18, 19, 20]), ⟨21, 22⟩⟩]⟩

/-- The loop in it. -/
def clutteredLoop : Code :=
  .loop 18 (.block 17 (.cons (.branch 13 (.read 12 0 none) (.brk 10) .nil) (.cons (.branch 15 (.read 14 0 none) (.ret 11 .nil) .nil)
    (.cons (.effect 9 (.builtin 8 "None")) (.cons (.cont 16) .nil)))))

/-- The whole of it. -/
def clutteredCode : Code :=
  .block 21 (.cons (.branch 7 (.builtin 0 "True") (.block 6 (.cons (.effect 2 (.read 1 0 none))
    (.cons (.branch 5 (.read 4 0 none) (.brk 3) .nil) .nil))) .nil) (.cons clutteredLoop (.cons (.ret 19 .nil) (.cons (.brk 20) .nil))))

theorem isTree_clutteredLoop : cluttered.IsTree 18 clutteredLoop where
  shows_ := .loop rfl
    (.present (.block rfl
        (.cons (.branch rfl (.read rfl) (.present (.brk rfl)) .absent)
          (.cons (.branch rfl (.read rfl) (.present (.ret rfl .absent)) .absent)
            (.cons (.effect rfl (.builtin rfl)) (.cons (.cont rfl) .nil))))))
  nodup := by decide

theorem isTree_cluttered : cluttered.IsTree 21 clutteredCode where
  shows_ := .block rfl
    (.cons (.branch rfl (.builtin rfl)
        (.present (.block rfl
            (.cons (.effect rfl (.read rfl))
              (.cons (.branch rfl (.read rfl) (.present (.brk rfl)) .absent) .nil)))) .absent)
      (.cons isTree_clutteredLoop.shows_ (.cons (.ret rfl .absent) (.cons (.brk rfl) .nil))))
  nodup := by decide

/-- The start of a walk over it where exits of every kind are collected. -/
def atCluttered : Walk :=
  ⟨⟨.fresh "function body", { Analysis.fresh ⟨#[⟨"x", .parameter, false, 0⟩]⟩ {} with exits := ⟨some [], some [], some []⟩ }⟩, cluttered⟩

/-- The result of a walk is in normal form: below the statement that is left no block is empty or
directly below another one, and only the last statement of a block may be aborting; no conditional
has a literal for a condition, or no arm; no literal stands as a statement, and no built-in name of
known value is left; and the body of a loop is absent, or a block that neither ends with a continue
nor is a single break. -/
theorem leaves_normal_tree (tree : walk.arena.IsTree id code) (walked : walkStmtWithin depth id walk = .ok (some node) after) :
    ∃ newCode, after.arena.IsTree node newCode ∧ ∀ below ∈ newCode.ids, after.arena.NormalAt below := by
  obtain ⟨newCode, reshaped, -⟩ := (reshapes_walkStmtWithin depth tree.shows_ tree.nodup).of_ok walked
  exact ⟨newCode, ⟨reshaped.shows_.here, reshaped.changes.nodup⟩, reshaped.shows_.normalAt reshaped.normal reshaped.changes.nodup⟩

theorem cluttered_left_normal : ∃ after, walkStmtWithin 22 21 atCluttered = .ok (some 21) after ∧
    after.arena.block? 21 = some [2, 5, 18, 19] ∧ after.arena.block? 17 = some [13, 15] ∧
    ∃ newCode, after.arena.IsTree 21 newCode ∧ ∀ below ∈ newCode.ids, after.arena.NormalAt below := by
  have ends : endsWith (walkStmtWithin 22 21) atCluttered (fun left after =>
      left == some 21 && after.arena.block? 21 == some [2, 5, 18, 19] && after.arena.block? 17 == some [13, 15]) = true := by
    decide +kernel
  obtain ⟨left, after, walked, told⟩ := exists_of_endsWith ends
  simp only [Bool.and_eq_true, beq_iff_eq] at told
  obtain ⟨⟨rfl, whole⟩, body⟩ := told
  exact ⟨after, walked, whole, body, leaves_normal_tree isTree_cluttered walked⟩

/-- Every open registry has gained a snapshot for each exit of its kind that is left in the tree,
and the query for such exits tells whether it has gained any. -/
def EntersExits (before : Walk) (left : Option NodeId) (newCode : Code) (after : Walk) : Prop :=
  ∀ kind snapshots, before.analysis.exits.get kind = some snapshots → ∃ taken,
    after.analysis.exits.get kind = some (snapshots ++ taken) ∧ taken.length = (newCode.exitNodes kind).length ∧
      (taken ≠ [] ↔ left.any (after.arena.mayExit kind) = true)

/-- Behind a loop that stays the scope goes on from the breaks of its body, and there is one if
control runs past what is left of the loop. -/
def LoopGoesOnFromBreaks (visit : NodeId → WalkM (Option NodeId)) (body : NodeId) (before : Walk) (node : NodeId) (after : Walk) : Prop :=
  ∃ view last, viewLoop visit body before = .ok view last ∧ last.toSite.GoesOnFrom view.breaks before.scope after.toSite ∧
    (view.breaks ≠ [] ↔ after.arena.isAborting node = false)

/-- The registries agree with the queries for exits. Of each kind as many snapshots were entered as
there are exits in the tree that is left, where breaks and continues inside a loop do not count and
returns do. A loop that stays has merged a break into the scope behind it if it is not aborting, and
otherwise left the scope as it was. -/
theorem entered_exits_are_left (tree : walk.arena.IsTree id code) (walked : walkStmtWithin (depth + 1) id walk = .ok left after) :
    (∃ newCode, after.arena.Shows (.maybe .stmt left) newCode ∧ newCode.ids.Nodup ∧ walk.EntersExits left newCode after) ∧
    (∀ body node, walk.arena.stmt? id = some (.loop (some body)) → left = some node →
      LoopGoesOnFromBreaks (walkStmtWithin depth) body walk node after) ∧
    (walk.arena.stmt? id = some (.loop none) → left = some id ∧ after.scope = walk.scope ∧ after.arena.isAborting id = true) := by
  refine ⟨?_, fun body node found here => ?_, fun found => ?_⟩
  · obtain ⟨newCode, reshaped, -⟩ := (reshapes_walkStmtWithin (depth + 1) tree.shows_ tree.nodup).of_ok walked
    refine ⟨newCode, reshaped.shows_, reshaped.changes.nodup, fun kind snapshots opened => ?_⟩
    obtain ⟨taken, gained, counted⟩ := reshaped.counts kind
    rw [opened] at gained
    refine ⟨taken, gained, counted, ?_⟩
    rw [reshaped.shows_.any_mayExit_iff reshaped.changes.nodup, ← List.length_pos_iff, ← List.length_pos_iff, counted, Code.exitCount]
  · obtain ⟨_, rfl, bodyShows⟩ := tree.shows_.body_of_loop found
    have bodyShows := bodyShows.here
    obtain ⟨view, last, viewed, breaks⟩ := (gives_walkLoop_breaks found bodyShows tree.nodup).of_ok walked
    obtain ⟨other, end_, again, goes⟩ := loopGoesOn_of_walkStmt found walked
    obtain ⟨rfl, rfl⟩ := EStateM.Result.ok.inj (viewed.symm.trans again)
    exact ⟨view, last, viewed, goes, breaks node here⟩
  · obtain ⟨rfl, rfl⟩ := (gives_walkLoop_empty found).of_ok walked
    obtain ⟨_, rfl, bodyShows⟩ := tree.shows_.body_of_loop found
    cases bodyShows
    have aborts := tree.shows_.present.isAborting_eq tree.nodup
    exact ⟨rfl, rfl, by simpa [Code.aborts, Code.mayBreak] using aborts⟩

/-- The walk of the whole enters one break and two returns, and that of the loop takes its break. -/
theorem cluttered_exits_entered :
    (∃ left after, walkStmtWithin 22 21 atCluttered = .ok left after ∧
      [ExitKind.brk, .cont, .ret].map (fun kind => (after.analysis.exits.get kind).map (·.length)) = [some 1, some 0, some 2] ∧
      ∃ newCode, after.arena.Shows (.maybe .stmt left) newCode ∧ newCode.ids.Nodup ∧ atCluttered.EntersExits left newCode after) ∧
    (∃ after, walkStmtWithin 22 18 atCluttered = .ok (some 18) after ∧ after.arena.isAborting 18 = false ∧
      LoopGoesOnFromBreaks (walkStmtWithin 21) 17 atCluttered 18 after) := by
  have whole : endsWith (walkStmtWithin 22 21) atCluttered (fun _ after =>
      [ExitKind.brk, .cont, .ret].map (fun kind => (after.analysis.exits.get kind).map (·.length)) == [some 1, some 0, some 2]) = true := by
    decide +kernel
  have loop : endsWith (walkStmtWithin 22 18) atCluttered (fun left after =>
      left == some 18 && !after.arena.isAborting 18) = true := by
    decide +kernel
  obtain ⟨left, after, walked, told⟩ := exists_of_endsWith whole
  obtain ⟨leftLoop, afterLoop, walkedLoop, toldLoop⟩ := exists_of_endsWith loop
  simp only [Bool.and_eq_true, beq_iff_eq, Bool.not_eq_true'] at told toldLoop
  obtain ⟨rfl, goes⟩ := toldLoop
  exact ⟨⟨left, after, walked, told, (entered_exits_are_left isTree_cluttered walked).1⟩,
    ⟨afterLoop, walkedLoop, goes, (entered_exits_are_left isTree_clutteredLoop walkedLoop).2.1 17 18 rfl rfl⟩⟩

end Walk

end ValueFlow
