import ValueFlow.Proofs.Account.Block

/-!
# Walks of loops have an account

The body is walked in a fork, with registries of its own, from versions that forget what the body
writes. The scopes at its breaks lead behind the loop (`gives_joinBreaks`). What is left of the body
loses a continue at its end, and a loop that is left at once is removed.
-/

namespace ValueFlow
set_option autoImplicit false

namespace Walk

variable {walk after : Walk} {id body : NodeId} {visit : NodeId → WalkM (Option NodeId)}
  {code : Code}

/-- The body of a loop was walked from its head to its foot, and the scopes at its breaks were taken
out. -/
structure LoopWalked (before : Walk) (code : Code) (after : Walk) (answer : Option NodeId × List Scope) (newCode : Code)
    (head foot : Versions) (notes : List Note) : Prop extends Passed before code.ids after newCode.ids [] notes where
  shows_ : after.arena.Shows (.maybe .stmt answer.1) newCode
  scope : after.scope = before.scope
  ordered : (notes.filterMap Note.write?).Sublist code.writes
  taken : ∀ path ∈ answer.2, before.scope.Within path ∧ path.Backed after.analysis.traces
  paid : before.Pays code 0 after newCode
  walks : ∀ ledger : Ledger, ledger.Closes before.analysis after.analysis notes →
    ledger.Forgets code before.scope.versionOf head ∧ ledger.Walks code head newCode foot (answer.2.map Scope.versionOf)

/-- The body was walked in the scope and the registries of the loop, from where it forgets its
targets. -/
theorem loopWalked {start last : Walk} {node : Option NodeId} {newCode : Code}
    {breaks : List Scope} {notes : List Note} (sound : walk.toSite.Sound)
    (shows_ : walk.arena.Shows (.one .stmt body) code) (nodup : code.ids.Nodup)
    (forgot : Site.Forgot (walk.arena.variablesWritten body)
      ⟨walk.scope.fork "loop", walk.analysis.inside .byLoop⟩ [] start.toSite)
    (same : start.arena = walk.arena) (unnoticed : start.analysis.edits = walk.analysis.edits)
    (rewrote : start.Rewrote code last (.maybe .stmt node) newCode breaks notes)
    (paid : start.Pays code 0 last newCode) :
    walk.LoopWalked code ⟨⟨walk.scope, last.analysis.behind .byLoop walk.analysis.exits⟩,
      last.arena⟩ (node, breaks) newCode
      start.scope.versionOf last.scope.versionOf notes where
  moved := by
    have inner := forgot.moved.trans rewrote.moved
    have forked : Site.Sound ⟨walk.scope.fork "loop", walk.analysis⟩ :=
      ⟨sound.analysis, sound.scope.fork "loop"⟩
    exact (Site.Moved.outOf forked inner).outOfFork sound
  changes := same ▸ rewrote.changes
  noted := rewrote.noted
  distinct := rewrote.distinct
  shows_ := rewrote.shows_
  scope := rfl
  ordered := rewrote.ordered
  taken := (forgot.moved.trans rewrote.moved).taken
  paid := by
    unfold Pays at *
    rwa [unnoticed] at paid
  walks := by
    intro ledger closes
    have grows : walk.analysis.Grows start.analysis :=
      ⟨forgot.grows.traces, forgot.grows.uses, forgot.grows.vars, forgot.grows.options,
        forgot.grows.edits⟩
    have closesBody : ledger.Closes start.analysis last.analysis notes :=
      { closes.onward grows with traces := closes.traces }
    refine ⟨fun var => ?_, rewrote.walks ledger closesBody⟩
    by_cases written : var ∈ walk.arena.variablesWritten body
    · have unknown := (forgot.done var written).resolve_left (by simp)
      have extends_ := rewrote.moved.grows.traces.trans closes.traces
      exact .inl ⟨unknown.extend extends_, (forgot.derives var).extend extends_⟩
    · exact .inr ⟨fun target => written ((shows_.mem_variablesWritten_iff nodup).2 target),
        forgot.kept var written⟩

theorem gives_walkLoopBody (visits : RewritesStmts visit) (sound : walk.toSite.Sound)
    (shows_ : walk.arena.Shows (.one .stmt body) code) (nodup : code.ids.Nodup) :
    Gives (walkLoopBody visit body) walk fun answer after =>
      ∃ newCode head foot notes, walk.LoopWalked code after answer newCode head foot notes := by
  have soundInside : Site.Sound ⟨walk.scope.fork "loop", walk.analysis.inside .byLoop⟩ :=
    ⟨sound.analysis.inside .byLoop, sound.scope.fork "loop"⟩
  have walked : Gives (inFork "loop" <| catching .byLoop do
      Site.forgetAll (walk.arena.variablesWritten body)
      let node ← visit body
      pure (node, ← Analysis.takeExits .byLoop .brk)) walk fun answer after =>
        ∃ newCode head foot notes, walk.LoopWalked code after answer.1 newCode head foot notes := by
    refine ends_inFork.2 (ends_catching.2 ?_)
    refine Gives.bind
      (gives_liftDiscreet (Site.ends_forgetAll soundInside _).gives (Site.discreet_forgetAll _)) ?_
    rintro _ start ⟨forgot, same, unnoticed⟩
    have startShows : start.arena.Shows (.one .stmt body) code := same ▸ shows_
    refine Gives.bind (visits forgot.sound startShows nodup) ?_
    rintro node last ⟨newCode, breaks, notes, rewrote, paid⟩
    refine Gives.bind (gives_takeExits rfl) ?_
    rintro snapshots taken ⟨collected, scope, arena, behind⟩
    have opened : start.analysis.exits.get .brk = some [] := by
      rw [forgot.logOnly.exits]
      rfl
    obtain rfl : snapshots = breaks := by
      rw [collected, rewrote.moved.exits, opened]
      rfl
    have loop := loopWalked sound shows_ nodup forgot same unnoticed rewrote paid
    rw [← behind, ← arena] at loop
    exact .pure ⟨newCode, _, _, notes, loop⟩
  unfold walkLoopBody
  rw [gives_arenaHere_bind]
  exact .bind walked fun answer after told => .pure told

/-- The continue at the end of a body was removed, if there was one. -/
structure Trimmed (before : Walk) (code : Code) (after : Walk) (answer : StmtAnswer) : Prop where
  same : after.toSite = before.toSite
  changes : before.arena.Changes code.ids after.arena code.trim.ids
  shows_ : after.arena.Shows (.maybe .stmt answer.node) code.trim
  paid : answer.owed + code.trim.weight ≤ code.weight

theorem Trimmed.idle {node : Option NodeId} (shows_ : walk.arena.Shows (.maybe .stmt node) code)
    (nodup : code.ids.Nodup) (same : code.trim = code) :
    walk.Trimmed code walk (.unchanged node) where
  same := rfl
  changes := same.symm ▸ .refl shows_.inside nodup
  shows_ := same.symm ▸ shows_
  paid := by simp [same]

theorem gives_trimBlock {stmts : List NodeId} {row : Code}
    (found : walk.arena.block? body = some stmts)
    (rowShows : walk.arena.Shows (.row .stmt stmts) row) (nodup : (Code.block body row).ids.Nodup) :
    Gives (trimContinue body) walk fun answer after =>
      walk.Trimmed (.block body row) after answer := by
  have foundStmt := Arena.block?_eq_some.1 found
  unfold trimContinue
  rw [gives_arenaHere_bind, found]
  dsimp only [Option.getD_some]
  rcases rowShows.withoutCont?_cases with ⟨kept, ends, last, keptShows⟩ | ⟨ends, last⟩
  · obtain ⟨free, nodupRow⟩ := List.nodup_cons.1 nodup
    obtain ⟨_, _, sub⟩ := Code.eq_append_of_withoutCont? ends
    have trim : (Code.block body row).trim = .wrap body kept := by rw [Code.trim, ends]
    have below := (Arena.Changes.refl rowShows.inside nodupRow).sublist sub
    have lighter := trim ▸ Code.weight_withoutCont body ends
    rw [if_pos (by simp [last])]
    cases dropped : stmts.dropLast with
    | nil =>
      rw [dropped] at keptShows
      cases keptShows
      exact .pure ⟨rfl, trim ▸ below.widen (List.subset_cons_self _ _), trim ▸ .absent, lighter⟩
    | cons node rest =>
      rw [dropped] at keptShows
      have something : Code.wrap body kept = .block body kept := by
        cases keptShows
        rfl
      have edited := below.edit (Arena.lt_size_of_stmt? foundStmt) free
        (Arena.size_mapStmt walk.arena body (.withStmts (node :: rest))) fun _ apart =>
        Arena.node?_mapStmt_of_ne _ apart _
      rw [something] at trim
      dsimp only
      rw [gives_editStmt_bind]
      refine .pure
        ⟨rfl, trim ▸ edited,
          trim ▸ .present (.block (Arena.stmt?_mapStmt_self foundStmt _) (keptShows.mapStmt ?_ _)),
          lighter⟩
      exact (List.nodup_cons.1 edited.nodup).1
  · rw [if_neg (by simpa using last)]
    exact .pure (.idle (.present (.block foundStmt rowShows)) nodup (by rw [Code.trim, ends]))

theorem gives_trimBody {node : Option NodeId} (shows_ : walk.arena.Shows (.maybe .stmt node) code)
    (nodup : code.ids.Nodup) :
    Gives (trimBody node) walk fun answer after => walk.Trimmed code after answer := by
  cases shows_ with
  | absent => exact .pure (.idle .absent nodup rfl)
  | @present _ body _ here =>
    rcases here.block?_cases with ⟨stmts, row, found, rfl, rowShows⟩ | ⟨found, single⟩
    · exact gives_trimBlock found rowShows nodup
    · have same : code.trim = code := code.trim_cases.resolve_right fun ⟨_, _, _, isBlock, _⟩ =>
        single _ _ isBlock
      unfold trimBody trimContinue
      rw [gives_arenaHere_bind, found]
      exact .pure (.idle (.present here) nodup same)

/-- Behind a loop each of its breaks leads to the point at hand. -/
theorem gives_joinBreaks {breaks : List Scope} (sound : walk.toSite.Sound)
    (fits : ∀ path ∈ breaks, walk.scope.Within path ∧ path.Backed walk.analysis.traces) :
    Gives (joinBreaks breaks) walk fun _ after => walk.toSite.Moved after.toSite [] [] ∧
      after.arena = walk.arena ∧
      after.analysis.edits = walk.analysis.edits ∧ ∀ path ∈ breaks,
        after.analysis.traces.Meets path.versionOf after.scope.versionOf := by
  cases breaks with
  | nil => exact .pure ⟨.refl sound, rfl, rfl, nofun⟩
  | cons path rest =>
    refine (gives_liftDiscreet (Site.gives_join sound fits) (Site.discreet_join _)).mono ?_
    rintro _ after ⟨⟨moved, meets, -⟩, same, unnoticed⟩
    exact ⟨moved, same, unnoticed, meets⟩

/-- From its head to behind its breaks the whole loop is walked. -/
theorem LoopWalked.walks_cycle {node : Option NodeId} {walked : Walk} {breaks : List Scope}
    {newCode : Code} {head foot behind : Versions} {notes : List Note} {ledger : Ledger}
    (loop : walk.LoopWalked code walked (node, breaks) newCode head foot notes)
    (closes : ledger.Closes walk.analysis walked.analysis notes)
    (meets : ∀ path ∈ breaks, ledger.traces.Meets path.versionOf behind) :
    ledger.Walks (.loop id code) walk.scope.versionOf (.cycle id newCode.trim) behind [] := by
  obtain ⟨forgets, walksBody⟩ := loop.walks ledger closes
  refine .loop forgets walksBody fun path mem => ?_
  obtain ⟨scope, held, rfl⟩ := List.mem_map.1 mem
  exact meets scope held

/-- Behind its body a loop is rewritten, and removed if it is left at once. -/
theorem LoopWalked.gives_behindBody {former node : Option NodeId} {walked : Walk}
    {breaks : List Scope} {newCode : Code} {head foot : Versions} {notes : List Note}
    (loop : walk.LoopWalked code walked (node, breaks) newCode head foot notes)
    (found : walk.arena.stmt? id = some (.loop former)) (free : id ∉ code.ids) :
    Gives (behindBody id node breaks) walked fun answer after =>
      walk.LeavesStmt (.loop id code) answer.node answer.owed after := by
  refine .bind (gives_trimBody loop.shows_ loop.changes.nodup) ?_
  rintro left trimmed cut
  have passed : walk.Passed code.ids trimmed newCode.trim.ids [] notes :=
    { loop.toPassed with
      moved := cut.same ▸ loop.moved, changes := loop.changes.trans cut.changes }
  have edited := passed.editStmt found free (.withBody left.node)
  have fits : ∀ path ∈ breaks, trimmed.scope.Within path ∧
      path.Backed trimmed.analysis.traces := by
    rw [cut.same, loop.scope]
    exact loop.taken
  rw [gives_editStmt_bind]
  refine .bind (gives_joinBreaks edited.moved.sound fits) ?_
  rintro _ after ⟨moved, same, unnoticed, meets⟩
  have whole := edited.settle moved same
  have bodyShows : after.arena.Shows (.maybe .stmt left.node) newCode.trim :=
    same ▸ cut.shows_.mapStmt edited.not_mem _
  have paid : after.analysis.edits.size + left.owed + (1 + newCode.trim.weight) ≤
      walk.analysis.edits.size + (1 + code.weight) := by
    have walkedPaid := loop.paid
    have cutPaid := cut.paid
    have quiet : trimmed.analysis = walked.analysis := congrArg Site.analysis cut.same
    rw [unnoticed, quiet]
    unfold Pays at walkedPaid
    omega
  have account (ledger : Ledger) (closes : ledger.Closes walk.analysis after.analysis notes) :
      ledger.Walks (.loop id code) walk.scope.versionOf
        (.cycle id newCode.trim) after.scope.versionOf [] := by
    have behind : ledger.Closes walk.analysis trimmed.analysis notes := closes.upTo moved.grows
    rw [cut.same] at behind
    exact loop.walks_cycle behind fun path mem => (meets path mem).extend closes.traces
  rw [gives_arenaHere_bind, bodyShows.any_isLoneBreak]
  unfold Code.cycle at account
  split
  · rename_i lone
    rw [if_pos lone] at account
    refine .pure
      ⟨.nil, [], notes, ⟨whole.sublist (List.nil_sublist _), .absent, loop.ordered, account⟩, ?_⟩
    simp only [Pays, Code.weight, owed_removed]
    omega
  · rename_i stays
    rw [if_neg stays] at account
    have foundAfter : after.arena.stmt? id = some (.loop left.node) :=
      same ▸ Arena.stmt?_mapStmt_self (passed.stmt?_eq found free) _
    refine .pure
      ⟨.loop id newCode.trim, [], notes,
        ⟨whole, .present (.loop foundAfter bodyShows), loop.ordered, account⟩, ?_⟩
    simpa only [Pays, Code.weight, Rewritten.owed] using paid

theorem gives_rewriteLoop (visits : RewritesStmts visit) {node : Option NodeId}
    (sound : walk.toSite.Sound) (found : walk.arena.stmt? id = some (.loop node))
    (bodyShows : walk.arena.Shows (.maybe .stmt node) code)
    (nodup : (Code.loop id code).ids.Nodup) :
    Gives (rewriteLoop visit id node) walk fun answer after =>
      walk.LeavesStmt (.loop id code) answer.node answer.owed after := by
  obtain ⟨free, nodupBody⟩ := List.nodup_cons.1 nodup
  cases bodyShows with
  | absent =>
    have shows_ : walk.arena.Shows (.maybe .stmt (some id)) (.loop id .nil) :=
      .present (.loop found .absent)
    exact .pure ⟨.loop id .nil, [], [],
      ⟨.idle sound shows_.inside nodup, shows_, .slnil, fun _ _ => .still rfl⟩, by simp [Pays]⟩
  | @present _ body _ here =>
    rw [rewriteLoop_eq, gives_arenaHere_bind]
    split
    · exact .throw
    refine .bind (gives_walkLoopBody visits sound here nodupBody) ?_
    rintro ⟨node, breaks⟩ walked ⟨newCode, head, foot, notes, loop⟩
    exact loop.gives_behindBody found free

end Walk

end ValueFlow
