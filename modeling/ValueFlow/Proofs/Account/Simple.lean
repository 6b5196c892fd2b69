import ValueFlow.Proofs.Account.Expression

/-!
# Walks of simple statements have an account

An assignment and a delete note the version that they make at the node. A delete that is removed is
noted as well: its version stands in the log, and whoever looks for the last write finds it there.
-/

namespace ValueFlow
set_option autoImplicit false

namespace Site

variable {site : Site} {var : VarId}

theorem gives_assign (sound : site.Sound) (var : VarId) (node : NodeId) :
    Gives (assign var node) site fun version after =>
      site.Wrote var (.assigned node) version after :=
  Gives.bind (ends_write sound (Origin.isWrite_assigned node) var).gives fun _ _ told => told.2

theorem gives_delete (sound : site.Sound) (var : VarId) :
    Gives (delete var) site fun prior after => prior = ⟨var, site.scope.versionOf var⟩ ∧
      ∃ version, site.Wrote var (fun previous => .unbound (some previous)) version after := by
  refine Gives.bind (ends_write sound Origin.isWrite_unbound var).gives fun answer _ told => ?_
  exact ⟨congrArg _ told.1, answer.2, told.2⟩

theorem gives_release (sound : site.Sound) (var : VarId) :
    Gives (release var) site fun _ after => site.Quiet after :=
  (ends_release sound var).gives.mono fun _ _ looked => looked.quiet

end Site

/-- The walk of a constant moves no variable. -/
theorem Ledger.Walks.same_of_constant {ledger : Ledger} {code newCode : Code}
    {before after : Versions} {breaks : List Versions}
    (walks : ledger.Walks code before newCode after breaks) {value : Literal}
    (constant : code.constant? ledger.options = some value) :
    after = before := by
  cases walks with
  | still | fold => rfl
  | _ => cases constant

namespace Walk

variable {walk : Walk} {id : NodeId} {target : VarId} {tolerant : Bool} {version : Option Version}

/-- The walk of a statement, or of nothing, has rewritten it, and some notices are still owed. -/
def LeavesStmt (walk : Walk) (code : Code) (node : Option NodeId) (owed : Nat) (after : Walk) : Prop :=
  ∃ newCode breaks notes, walk.Rewrote code after (.maybe .stmt node) newCode breaks notes ∧ walk.Pays code owed after newCode

@[simp] theorem owed_stay (id : NodeId) : (stay id).owed = 0 := rfl

@[simp] theorem owed_removed (message : String) : (removed message).owed = 1 := rfl

theorem gives_rewriteAssign {value : NodeId} {valueCode : Code} (sound : walk.toSite.Sound)
    (found : walk.arena.stmt? id = some (.assign target value version))
    (valueShows : walk.arena.Shows (.one .expr value) valueCode)
    (nodup : (id :: valueCode.ids).Nodup) :
    Gives (rewriteAssign id target value) walk fun answer after =>
      walk.LeavesStmt (.assign id target valueCode version) answer.node answer.owed after := by
  obtain ⟨free, nodupValue⟩ := List.nodup_cons.1 nodup
  refine .bind (gives_walkExpr sound valueShows nodupValue) ?_
  rintro newValue middle ⟨newCode, notes, first, -, paid⟩
  refine .bind
    (gives_liftDiscreet (Site.gives_assign first.moved.sound target id)
      (Site.discreet_assign target id)) ?_
  rintro version after ⟨wrote, same, unnoticed⟩
  rw [gives_editStmt_bind, same]
  have above : walk.Passed (id :: valueCode.ids)
      { after with arena := middle.arena.mapStmt id (.withBound newValue version) }
      (id :: newCode.ids) [] (notes ++ [⟨id, target, version, some true⟩]) :=
    first.toPassed.above wrote.made (by simp) (by simp) (Arena.lt_size_of_stmt? found) free
      (Arena.size_mapStmt _ _ _) fun other apart => Arena.node?_mapStmt_of_ne _ apart _
  refine .pure
    ⟨.assign id target newCode (some version), _, _, ⟨above, ?_, ?_, fun ledger closes => ?_⟩, ?_⟩
  · exact .present (.assign (Arena.stmt?_mapStmt_self (first.stmt?_eq found free) _)
      (first.shows_.mapStmt above.not_mem _))
  · rw [List.filterMap_append]
    exact first.ordered.append (.refl _)
  · have mem : (⟨id, target, version, some true⟩ : Note) ∈ notes ++
        [⟨id, target, version, some true⟩] := by simp
    have label : ledger.labels id = version := closes.labels _ mem
    change ledger.Walks _ _ _ after.scope.versionOf _
    rw [wrote.versionOf, ← label]
    exact .assign (first.walks ledger (closes.early wrote.grows)) (closes.made _ mem rfl)
      (label ▸ closes.traces _ _ wrote.recorded)
  · simp only [Pays, unnoticed, Code.weight, owed_stay] at paid ⊢
    omega

/-- A delete is idle if it is tolerant and all leaves of the version before it say that the variable
is unbound. -/
theorem gives_isIdleDelete (sound : walk.toSite.Sound) {prior : TraceKey}
    (recorded : prior ∈ walk.analysis.traces) :
    Gives (isIdleDelete tolerant prior) walk fun idle after => after = walk ∧
      (idle = true → tolerant = true ∧ walk.analysis.traces.AllLeaves prior.var prior.version
        Traces.leavesUnbound) := by
  unfold isIdleDelete
  cases tolerant with
  | false => exact .pure ⟨rfl, nofun⟩
  | true =>
    obtain ⟨answer, told, iff⟩ := sound.analysis.traces.everyLeaf Traces.leavesUnbound recorded
    have asked : walk.analysis.traces.isSurelyUnbound prior = .ok answer := told
    change Gives (ofExcept (walk.analysis.traces.isSurelyUnbound prior)) walk _
    rw [asked]
    exact .pure ⟨rfl, fun idle => ⟨rfl, iff.1 idle⟩⟩

theorem gives_rewriteDelete (sound : walk.toSite.Sound)
    (found : walk.arena.stmt? id = some (.delete target tolerant version)) :
    Gives (rewriteDelete id target tolerant) walk fun answer after =>
      walk.LeavesStmt (.delete id target tolerant version) answer.node answer.owed after := by
  have inside := Arena.lt_size_of_stmt? found
  refine .bind
    (gives_liftDiscreet (Site.gives_delete sound target) (Site.discreet_delete target)) ?_
  rintro prior middle ⟨⟨rfl, version, wrote⟩, same, unnoticed⟩
  have recorded := wrote.previous_mem Origin.isWrite_unbound
  refine .bind (gives_isIdleDelete wrote.sound recorded) ?_
  rintro idle after ⟨rfl, told⟩
  have mem : (⟨id, target, version, some false⟩ : Note) ∈
      [(⟨id, target, version, some false⟩ : Note)] := List.mem_singleton_self _
  have moved : walk.toSite.Moved after.toSite [] [⟨id, target, version, some false⟩] := wrote.made
  cases idle with
  | true =>
    obtain ⟨rfl, unbound⟩ := told rfl
    have passed := Passed.above (.idle sound (List.forall_mem_nil _) .nil) moved (by simp)
      (by simp) inside (by simp) (by rw [same]) fun other _ => by rw [same]
    refine .pure
      ⟨.nil, _, _,
        ⟨passed.sublist (List.nil_sublist _), .absent, .refl _, fun ledger closes => ?_⟩, by
        simp [Pays, unnoticed, Code.weight]⟩
    have label : ledger.labels id = version := closes.labels _ mem
    rw [wrote.versionOf, ← label]
    exact .idle (closes.made _ mem rfl) (label ▸ closes.traces _ _ wrote.recorded)
      (unbound.extend wrote.sound.analysis.traces.linked closes.traces recorded)
  | false =>
    rw [if_neg (by simp), gives_scopeHere_bind]
    have active : after.scope.active[target]? = some version := by
      rw [wrote.scope, Scope.getElem?_setVersion, if_pos rfl]
    rw [gives_editStmt_bind, same, active]
    have passed : walk.Passed [id]
        { after with arena := walk.arena.mapStmt id (.withDeleted (some version)) } [id] []
        [⟨id, target, version, some false⟩] :=
      Passed.above (.idle sound (List.forall_mem_nil _) .nil) moved (by simp) (by simp) inside
        (by simp) (Arena.size_mapStmt _ _ _) fun other apart => Arena.node?_mapStmt_of_ne _ apart _
    refine .pure
      ⟨.delete id target tolerant (some version), _, _,
        ⟨passed, .present (.delete (Arena.stmt?_mapStmt_self found _)), .refl _,
          fun ledger closes => ?_⟩, by simp [Pays, unnoticed, Code.weight]⟩
    have label : ledger.labels id = version := closes.labels _ mem
    change ledger.Walks _ _ _ after.scope.versionOf _
    rw [wrote.versionOf, ← label]
    exact .delete (closes.made _ mem rfl) (label ▸ closes.traces _ _ wrote.recorded)

theorem gives_rewriteRelease (sound : walk.toSite.Sound)
    (found : walk.arena.stmt? id = some (.release target)) :
    Gives (rewriteRelease id target) walk fun answer after =>
      walk.LeavesStmt (.release id target) answer.node answer.owed after := by
  have shows_ : walk.arena.Shows (.maybe .stmt (some id)) (.release id target) :=
    .present (.release found)
  refine .bind
    (gives_liftDiscreet (Site.gives_release sound target) (Site.discreet_release target)).discard ?_
  rintro _ after ⟨quiet, same, unnoticed⟩
  have before : walk.Rewrote (.release id target) walk (.maybe .stmt (some id)) (.release id target)
      [] [] := ⟨.idle sound shows_.inside (by simp [Code.ids]), shows_, .slnil,
      fun _ _ => .still rfl⟩
  exact .pure ⟨_, _, _, before.settle quiet same, by simp [Pays, unnoticed]⟩

theorem gives_rewriteEffect {expr : NodeId} {exprCode : Code} (sound : walk.toSite.Sound)
    (found : walk.arena.stmt? id = some (.effect expr))
    (exprShows : walk.arena.Shows (.one .expr expr) exprCode) (nodup : (id :: exprCode.ids).Nodup) :
    Gives (rewriteEffect id expr) walk fun answer after =>
      walk.LeavesStmt (.effect id exprCode) answer.node answer.owed after := by
  obtain ⟨free, nodupExpr⟩ := List.nodup_cons.1 nodup
  refine .bind (gives_walkExpr sound exprShows nodupExpr) ?_
  rintro newExpr after ⟨newCode, notes, first, folds, paid⟩
  rw [gives_arenaHere_bind, first.shows_.literal?_eq, folds.literal]
  split
  · rename_i constant
    obtain ⟨value, constant⟩ := Option.isSome_iff_exists.1 constant
    refine .pure
      ⟨.nil, [], notes,
        ⟨(first.toPassed.widen (List.subset_cons_self _ _)).sublist (List.nil_sublist _), .absent,
          first.ordered, fun ledger closes => ?_⟩, ?_⟩
    · have known : exprCode.constant? ledger.options = some value := closes.options ▸ constant
      rw [(first.walks ledger closes).same_of_constant known]
      exact .constant known
    · simp only [Pays, Code.weight, owed_removed] at paid ⊢
      omega
  · rw [gives_editStmt_bind]
    have edited := first.toPassed.editStmt found free (.withEffect newExpr)
    refine .pure
      ⟨.effect id newCode, _, _,
        ⟨edited, ?_, first.ordered, fun ledger closes => .effect (first.walks ledger closes)⟩, ?_⟩
    · exact .present (.effect (Arena.stmt?_mapStmt_self (first.stmt?_eq found free) _)
        (first.shows_.mapStmt edited.not_mem _))
    · simp only [Pays, Code.weight, owed_stay] at paid ⊢
      omega

/-- A break is taken at the scope at hand. -/
theorem gives_rewriteBreak (sound : walk.toSite.Sound) (found : walk.arena.stmt? id = some .brk) :
    Gives (rewriteExit id .brk) walk fun answer after =>
      walk.LeavesStmt (.brk id) answer.node answer.owed after := by
  have entered := gives_liftDiscreet (Site.gives_recordBreak sound)
    (.liftAnalysis (Analysis.discreet_recordExit .brk walk.scope))
  unfold rewriteExit
  rw [gives_scopeHere_bind]
  refine .bind entered ?_
  rintro _ after ⟨⟨moved, scope⟩, same, unnoticed⟩
  have passed := Passed.above (.idle sound (List.forall_mem_nil _) .nil) moved (by simp) (by simp)
    (Arena.lt_size_of_stmt? found) (by simp) (by rw [same]) fun other _ => by rw [same]
  refine .pure
    ⟨.brk id, _, _,
      ⟨passed, .present (.brk (same ▸ found)), .slnil, fun ledger closes => ?_⟩, by
      simp [Pays, unnoticed, Code.weight]⟩
  rw [scope]
  exact .brk

theorem gives_rewriteCont (sound : walk.toSite.Sound) (found : walk.arena.stmt? id = some .cont) :
    Gives (rewriteExit id .cont) walk fun answer after =>
      walk.LeavesStmt (.cont id) answer.node answer.owed after := by
  have shows_ : walk.arena.Shows (.maybe .stmt (some id)) (.cont id) := .present (.cont found)
  have entered :=
    gives_liftDiscreet (Site.gives_recordExit sound (show ExitKind.cont ≠ .brk by decide))
      (.liftAnalysis (Analysis.discreet_recordExit .cont walk.scope))
  unfold rewriteExit
  rw [gives_scopeHere_bind]
  refine .bind entered ?_
  rintro _ after ⟨quiet, same, unnoticed⟩
  have before : walk.Rewrote (.cont id) walk (.maybe .stmt (some id)) (.cont id) [] [] :=
    ⟨.idle sound shows_.inside (by simp [Code.ids]), shows_, .slnil, fun _ _ => .still rfl⟩
  exact .pure ⟨_, _, _, before.settle quiet same, by simp [Pays, unnoticed]⟩

/-- The value of a return is rewritten, if there is one. -/
theorem gives_rewriteResult {value : Option NodeId} {valueCode : Code} (sound : walk.toSite.Sound)
    (found : walk.arena.stmt? id = some (.ret value))
    (valueShows : walk.arena.Shows (.maybe .expr value) valueCode)
    (nodup : (id :: valueCode.ids).Nodup) :
    Gives (rewriteResult id value) walk fun _ after => walk.LeavesStmt (.ret id valueCode)
      (some id) 0 after := by
  obtain ⟨free, nodupValue⟩ := List.nodup_cons.1 nodup
  cases valueShows with
  | absent =>
    have shows_ : walk.arena.Shows (.maybe .stmt (some id)) (.ret id .nil) :=
      .present (.ret found .absent)
    exact .pure ⟨_, [], [],
      ⟨.idle sound shows_.inside (by simp [Code.ids]), shows_, .slnil,
        fun _ _ => .ret (.still rfl)⟩, Nat.le_refl _⟩
  | @present _ value _ here =>
    refine .bind (gives_walkExpr sound here nodupValue) ?_
    rintro newValue after ⟨newCode, notes, first, -, paid⟩
    have edited := first.toPassed.editStmt found free (.withResult newValue)
    refine ⟨.ret id newCode, _, _,
      ⟨edited, ?_, first.ordered, fun ledger closes => .ret (first.walks ledger closes)⟩, ?_⟩
    · exact .present (.ret (Arena.stmt?_mapStmt_self (first.stmt?_eq found free) _)
        (.present (first.shows_.mapStmt edited.not_mem _)))
    · simp only [Pays, Code.weight] at paid ⊢
      omega

theorem gives_rewriteReturn {value : Option NodeId} {valueCode : Code} (sound : walk.toSite.Sound)
    (found : walk.arena.stmt? id = some (.ret value))
    (valueShows : walk.arena.Shows (.maybe .expr value) valueCode)
    (nodup : (id :: valueCode.ids).Nodup) :
    Gives (rewriteResult id value >>= fun _ => rewriteExit id .ret) walk fun answer after =>
      walk.LeavesStmt (.ret id valueCode) answer.node answer.owed after := by
  refine .bind (gives_rewriteResult sound found valueShows nodup) ?_
  rintro _ middle ⟨newCode, breaks, notes, rewrote, paid⟩
  have entered :=
    gives_liftDiscreet
      (Site.gives_recordExit rewrote.moved.sound (show ExitKind.ret ≠ .brk by decide))
      (.liftAnalysis (Analysis.discreet_recordExit .ret middle.scope))
  unfold rewriteExit
  rw [gives_scopeHere_bind]
  refine .bind entered ?_
  rintro _ after ⟨quiet, same, unnoticed⟩
  exact .pure ⟨newCode, breaks, notes, rewrote.settle quiet same, paid.settle unnoticed⟩

end Walk

end ValueFlow
