import ValueFlow.Proofs.Normal.Expression

/-!
# Walks of simple statements leave normal trees

A statement without statements below it is removed, or stays with what is left of its expression. An
early exit is entered where it stands, once, and is never removed. An assignment bears the version
that it has made, and so does a delete that stays; one that is removed has made a version of which
nothing tells.
-/

namespace ValueFlow
set_option autoImplicit false

/-- A block is left as a block, or nothing is left of it. -/
def Code.StaysBlock (code newCode : Code) : Prop := ∀ id row, code = .block id row → newCode = .nil ∨ ∃ newRow, newCode = .block id newRow

namespace Walk

variable {walk middle : Walk} {id value : NodeId} {target : VarId} {tolerant : Bool}
  {version : Option Version} {code newCode : Code}

/-- The walk of a statement has left a normal tree where there is something left. -/
def LeavesNormal (walk : Walk) (code : Code) (node : Option NodeId) (after : Walk) : Prop :=
  ∃ newCode, walk.Reshaped code after (.maybe .stmt node) newCode ∧ code.StaysBlock newCode

/-- Nothing is left of a part that has entered no exit and has no note. -/
theorem Altered.removed {old left : List NodeId} {count : ExitKind → Nat} {notes : List NodeNote}
    {after : Walk} (altered : walk.Altered old after left count notes) (sub : old ⊆ code.ids)
    (none_ : ∀ kind, count kind = 0) (bare : notes = []) :
    walk.Reshaped code after (.maybe .stmt none) .nil where
  toAltered :=
    (((altered.widen sub).sublist (List.nil_sublist _)).congr fun kind => (none_ kind).symm).renote
      bare.symm
  shows_ := .absent
  normal := trivial

theorem leavesNormal_rewriteAssign {valueCode : Code}
    (found : walk.arena.stmt? id = some (.assign target value version))
    (valueShows : walk.arena.Shows (.one .expr value) valueCode)
    (nodup : (Code.assign id target valueCode version).ids.Nodup) :
    Gives (rewriteAssign id target value) walk fun answer after =>
      walk.LeavesNormal (.assign id target valueCode version) answer.node after := by
  refine .bind (reshapes_walkExpr valueShows (List.nodup_cons.1 nodup).2) ?_
  rintro newValue middle ⟨newCode, first⟩
  refine .bind (gives_lift (Site.gives_assign_logged middle.toSite target id)) ?_
  rintro bound after ⟨⟨still, noted⟩, same⟩
  rw [gives_editStmt_bind]
  have none_ := first.shows_.exitCount_of_exprs rfl
  exact .pure ⟨.assign id target newCode (some bound),
    (first.note same still noted).above (same ▸ first.shows_) found _ rfl rfl nodup
    (fun kind => (none_ kind).symm) (List.perm_append_singleton _ _).symm .assign
    first.normal, nofun⟩

/-- Whether a delete is idle is only looked up. -/
theorem gives_isIdleDelete_same (tolerant : Bool) (prior : TraceKey) :
    Gives (isIdleDelete tolerant prior) walk fun _ after => after = walk := by
  unfold isIdleDelete
  split
  · exact gives_get_bind.2 (ends_ofExcept.2 ⟨fun _ _ => rfl, fun _ _ => trivial⟩)
  · exact .pure rfl

theorem leavesNormal_rewriteDelete
    (found : walk.arena.stmt? id = some (.delete target tolerant version)) :
    Gives (rewriteDelete id target tolerant) walk fun answer after =>
      walk.LeavesNormal (.delete id target tolerant version) answer.node after := by
  refine .bind (gives_lift (Site.gives_delete_logged walk.toSite target)) ?_
  rintro prior _ ⟨⟨⟨still, quiet⟩, made, current, noted⟩, same⟩
  refine .bind (gives_isIdleDelete_same tolerant prior) ?_
  rintro idle after rfl
  have nothing : walk.Altered [] walk [] (fun _ => 0) [] := .idle (List.forall_mem_nil _) .nil
  cases idle with
  | true =>
    exact .pure ⟨.nil, (nothing.spared ⟨same, still, quiet⟩).removed (List.nil_subset _)
      (fun _ => rfl) rfl, nofun⟩
  | false =>
    rw [if_neg (by simp), gives_scopeHere_bind, gives_editStmt_bind]
    have free : id ∉ ([] : List NodeId) := List.not_mem_nil
    have deleted := nothing.note same still (noted id)
    rw [current]
    refine .pure ⟨.delete id target tolerant (some made),
      ⟨deleted.editStmt found free _, .present (.delete ?_), trivial⟩, nofun⟩
    exact Arena.stmt?_mapStmt_self (deleted.changes.stmt?_eq found free) _

theorem leavesNormal_rewriteRelease (found : walk.arena.stmt? id = some (.release target)) :
    Gives (rewriteRelease id target) walk fun answer after =>
      walk.LeavesNormal (.release id target) answer.node after := by
  have idle : walk.Reshaped (.release id target) walk (.maybe .stmt (some id))
      (.release id target) := .idle (.present (.release found)) (List.nodup_singleton id) trivial
    (fun _ => rfl) rfl
  refine .bind (Spares.lift (annotates_quiet.release target) walk).discard ?_
  rintro _ after spared
  exact .pure ⟨_, idle.spared spared, nofun⟩

/-- A statement of which only a literal is left is removed. -/
theorem leavesNormal_rewriteEffect {expr : NodeId} {exprCode : Code}
    (found : walk.arena.stmt? id = some (.effect expr))
    (exprShows : walk.arena.Shows (.one .expr expr) exprCode)
    (nodup : (Code.effect id exprCode).ids.Nodup) :
    Gives (rewriteEffect id expr) walk fun answer after =>
      walk.LeavesNormal (.effect id exprCode) answer.node after := by
  refine .bind (reshapes_walkExpr exprShows (List.nodup_cons.1 nodup).2) ?_
  rintro newExpr after ⟨newCode, first⟩
  have none_ := first.shows_.exitCount_of_exprs rfl
  rw [gives_arenaHere_bind, first.shows_.literal?_eq]
  split
  · rename_i known
    exact .pure ⟨.nil, first.toAltered.removed (List.subset_cons_self _ _) none_
      (Code.notes_of_literal known), nofun⟩
  · rename_i unknown
    rw [gives_editStmt_bind]
    exact .pure ⟨.effect id newCode, first.above first.shows_ found _ rfl rfl nodup
      (fun kind => (none_ kind).symm) (.refl _) .effect
      ⟨by simpa using unknown, first.normal⟩, nofun⟩

/-- An exit is entered once behind what stands there. -/
theorem reshaped_rewriteExit {kind : ExitKind}
    (altered : walk.Altered code.ids middle newCode.ids (fun _ => 0) newCode.notes)
    (shows_ : middle.arena.Shows (.one .stmt id) newCode) (normal : newCode.IsNormal)
    (once : ∀ other, newCode.exitCount other = if other = kind then 1 else 0) :
    Gives (rewriteExit id kind) middle fun answer after => walk.Reshaped code after
      (.maybe .stmt answer.node) newCode := by
  have enters : Gives (liftM (Analysis.recordExit kind middle.scope) : WalkM Unit)
      middle fun _ after =>
      middle.analysis.exits.Counts (fun other => if other = kind then 1 else 0)
        after.analysis.exits ∧
        middle.analysis.Annotates [] after.analysis ∧ after.arena = middle.arena := by
    have noted : Gives (Analysis.recordExit kind middle.scope) middle.analysis fun _ after =>
        middle.analysis.Annotates [] after := by
      refine (Analysis.ends_recordExit middle.scope).gives.mono ?_
      rintro _ after (⟨_, _, rfl⟩ | ⟨-, -, rfl⟩)
      · exact .of_log rfl rfl
      · exact .refl _
    refine ends_liftAnalysisWalk.2
      (((Analysis.gives_recordExit_gains middle.scope).and noted).mono fun _ state told =>
        ⟨?_, told.2, rfl⟩)
    refine told.1.mono fun other taken held => ?_
    rw [held, apply_ite List.length]
    rfl
  unfold rewriteExit
  rw [gives_scopeHere_bind]
  refine .bind enters ?_
  rintro _ after ⟨counts, noted, same⟩
  refine .pure ⟨(altered.enter same counts noted).congr fun other => ?_,
    .present (same ▸ shows_), normal⟩
  rw [once, Nat.zero_add]

/-- The value of a return is rewritten, if there is one. -/
theorem altered_rewriteResult {result : Option NodeId} {valueCode : Code}
    (found : walk.arena.stmt? id = some (.ret result))
    (valueShows : walk.arena.Shows (.maybe .expr result) valueCode)
    (nodup : (Code.ret id valueCode).ids.Nodup) :
    Gives (rewriteResult id result) walk fun _ after => ∃ newCode,
      walk.Altered (Code.ret id valueCode).ids after (Code.ret id newCode).ids
        (fun _ => 0) newCode.notes ∧
      after.arena.Shows (.one .stmt id) (.ret id newCode) ∧ newCode.IsNormal := by
  obtain ⟨free, nodupValue⟩ := List.nodup_cons.1 nodup
  cases valueShows with
  | absent =>
    have shows_ : walk.arena.Shows (.one .stmt id) (.ret id .nil) := .ret found .absent
    exact .pure ⟨.nil, .idle shows_.inside nodup, shows_, trivial⟩
  | @present _ value _ here =>
    refine .bind (reshapes_walkExpr here nodupValue) ?_
    rintro newValue after ⟨newCode, first⟩
    have edited := first.toAltered.editStmt found free (.withResult newValue)
    have none_ := first.shows_.exitCount_of_exprs rfl
    refine ⟨newCode, edited.congr fun kind => (none_ kind).symm,
      .ret ?_ (.present (first.shows_.mapStmt edited.not_mem _)), first.normal⟩
    exact Arena.stmt?_mapStmt_self (first.changes.stmt?_eq found free) _

theorem leavesNormal_rewriteReturn {result : Option NodeId} {valueCode : Code}
    (found : walk.arena.stmt? id = some (.ret result))
    (valueShows : walk.arena.Shows (.maybe .expr result) valueCode)
    (nodup : (Code.ret id valueCode).ids.Nodup) :
    Gives (rewriteResult id result >>= fun _ => rewriteExit id .ret) walk fun answer after =>
      walk.LeavesNormal (.ret id valueCode) answer.node after := by
  refine .bind (altered_rewriteResult found valueShows nodup) ?_
  rintro _ middle ⟨newCode, altered, shows_, normal⟩
  refine (reshaped_rewriteExit altered shows_ normal fun other => ?_).mono fun _ _ reshaped =>
    ⟨_, reshaped, nofun⟩
  cases other <;> rfl

/-- The end of a round stays as it stands, and is entered once. -/
theorem leavesNormal_rewriteExit {kind : ExitKind} {exit : Code}
    (shows_ : walk.arena.Shows (.one .stmt id) exit) (ends : exit.roundEnd? ≠ none)
    (once : ∀ other, exit.exitCount other = if other = kind then 1 else 0) :
    Gives (rewriteExit id kind) walk fun answer after =>
      walk.LeavesNormal exit answer.node after := by
  cases exit with
  | brk | cont =>
    have idle := Altered.idle shows_.inside (List.nodup_singleton _)
    exact (reshaped_rewriteExit idle shows_ trivial once).mono fun _ _ reshaped =>
      ⟨_, reshaped, nofun⟩
  | _ => exact absurd rfl ends

end Walk

end ValueFlow
