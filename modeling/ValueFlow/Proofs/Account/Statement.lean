import ValueFlow.Proofs.Account.Branch
import ValueFlow.Proofs.Account.Loop

/-!
# Walks of statements and of bodies have an account

Wherever the walk of a statement ends well, it has rewritten the tree that stood there
(`gives_walkStmt`), and so has the walk of a body (`gives_walkBody`). Behind the body of a function
its exits are joined. That adds to the log and takes nothing from it, so the account stands.
-/

namespace ValueFlow
set_option autoImplicit false

namespace Walk

variable {walk after : Walk} {id : NodeId} {code : Code}

/-- Every kind of statement is rewritten, if the statements below it are. -/
theorem gives_rewriteStmt {visit : NodeId → WalkM (Option NodeId)} (visits : RewritesStmts visit)
    (sound : walk.toSite.Sound) (shows_ : walk.arena.Shows (.one .stmt id) code)
    (nodup : code.ids.Nodup) :
    Gives (rewriteStmt visit id) walk fun answer after =>
      walk.LeavesStmt code answer.node answer.owed after := by
  unfold rewriteStmt
  rw [gives_arenaHere_bind]
  cases shows_ with
  | hole _ lacks =>
    rw [show walk.arena.stmt? id = none from lacks]
    exact .throw
  | block found stmts =>
    rw [found]
    exact gives_rewriteBlock visits sound found stmts nodup
  | assign found value =>
    rw [found]
    exact gives_rewriteAssign sound found value nodup
  | delete found =>
    rw [found]
    exact gives_rewriteDelete sound found
  | release found =>
    rw [found]
    exact gives_rewriteRelease sound found
  | effect found expr =>
    rw [found]
    exact gives_rewriteEffect sound found expr nodup
  | branch found cond yes no =>
    rw [found]
    exact gives_rewriteBranch visits sound found cond yes no nodup
  | loop found body =>
    rw [found]
    exact gives_rewriteLoop visits sound found body nodup
  | brk found =>
    rw [found]
    exact gives_rewriteBreak sound found
  | cont found =>
    rw [found]
    exact gives_rewriteCont sound found
  | ret found value =>
    rw [found]
    exact gives_rewriteReturn sound found value nodup

/-- Whatever the depth, a walk that ends well has rewritten the statement. -/
theorem gives_walkStmtWithin (depth : Nat) : RewritesStmts (walkStmtWithin depth) := by
  induction depth with
  | zero => exact fun _ _ _ => .throw
  | succ depth ih =>
    intro walk id code sound shows_ nodup
    unfold walkStmtWithin
    rw [gives_arenaHere_bind]
    refine ends_located.2 (Gives.bind (gives_rewriteStmt ih sound shows_ nodup) ?_)
    rintro answer rewritten ⟨newCode, breaks, notes, rewrote, paid⟩
    refine .bind (gives_signal rewrote.moved.sound id answer.edit) ?_
    rintro _ after ⟨quiet, same, noticed⟩
    exact .pure ⟨newCode, breaks, notes, rewrote.settle quiet same, paid.signalled noticed⟩

theorem gives_walkStmt : RewritesStmts walkStmt := by
  intro walk id code sound shows_ nodup
  exact gives_walkStmtWithin _ sound shows_ nodup

/-- A body was walked: what is left of it stands at a node, and has an account in every ledger that
closes the walk. Every node was noted at most once, and each version that was made is recorded. In
the order in which the writes stand, the versions made of a variable rise. What the body lost in
weight pays for the notices. -/
structure BodyRewrote (before : Walk) (code : Code) (after : Walk) (node : Option NodeId) (newCode : Code) (notes : List Note) : Prop where
  sound : after.toSite.Sound
  grows : before.analysis.Grows after.analysis
  shows_ : after.arena.Shows (.maybe .stmt node) newCode
  nodup : newCode.ids.Nodup
  distinct : (notes.map (·.node)).Nodup
  ordered : (notes.filterMap Note.write?).Sublist code.writes
  rising : notes.Pairwise Note.Rises
  recorded : ∀ note ∈ notes, ∀ binds ∈ note.binds,
    ∃ previous, after.analysis.traces.origin? ⟨note.var, note.version⟩ = some (Note.origin note.node binds previous)
  counted : ∀ note ∈ notes, note.binds = none → after.analysis.traces.IsCounted ⟨note.var, note.version⟩
  paid : before.Pays code 0 after newCode
  walks : ∃ last breaks, ∀ ledger : Ledger, ledger.Closes before.analysis after.analysis notes →
    ledger.Walks code before.scope.versionOf newCode last breaks

/-- The log may have gained since the body was walked. -/
theorem BodyRewrote.settle {middle : Walk} {node : Option NodeId} {newCode : Code}
    {notes : List Note} (walked : walk.BodyRewrote code middle node newCode notes)
    (sound : after.toSite.Sound) (grows : middle.analysis.Grows after.analysis)
    (same : after.arena = middle.arena) (unnoticed : after.analysis.edits = middle.analysis.edits) :
    walk.BodyRewrote code after node newCode notes where
  sound := sound
  grows := walked.grows.trans grows
  shows_ := same ▸ walked.shows_
  nodup := walked.nodup
  distinct := walked.distinct
  ordered := walked.ordered
  rising := walked.rising
  recorded note mem binds made := by
    obtain ⟨previous, known⟩ := walked.recorded note mem binds made
    exact ⟨previous, grows.traces _ _ known⟩
  counted note mem seen := grows.uses.counted _ (walked.counted note mem seen)
  paid := walked.paid.settle unnoticed
  walks := by
    obtain ⟨last, breaks, walks⟩ := walked.walks
    exact ⟨last, breaks, fun ledger closes => walks ledger (closes.upTo grows)⟩

section Function

variable {body : NodeId}

/-- The body of a function was walked in its own registry of returns. -/
theorem gives_catchReturns (sound : walk.toSite.Sound)
    (shows_ : walk.arena.Shows (.one .stmt body) code) (nodup : code.ids.Nodup) :
    Gives (catching .byFunction do
      let node ← walkStmt body
      pure (node, ← Analysis.takeExits .byFunction .ret)) walk fun answer after =>
        (∃ newCode notes, walk.BodyRewrote code after answer.1 newCode notes) ∧
          ∀ path ∈ answer.2, path.Backed after.analysis.traces := by
  have soundInside : Site.Sound ⟨walk.scope, walk.analysis.inside .byFunction⟩ :=
    ⟨sound.analysis.inside .byFunction, sound.scope⟩
  refine ends_catching.2 ?_
  refine Gives.bind (gives_walkStmt soundInside shows_ nodup) ?_
  rintro node last ⟨newCode, breaks, notes, rewrote, paid⟩
  refine Gives.bind (gives_takeExits rfl) ?_
  rintro snapshots taken ⟨rfl, scope, arena, behind⟩
  have kept := congrArg Analysis.traces (behind .closed)
  have traces : taken.analysis.traces = last.analysis.traces := kept
  have log := congrArg Analysis.edits (behind .closed)
  have unnoticed : taken.analysis.edits = last.analysis.edits := log
  have moved := Site.Moved.outOf sound rewrote.moved
  rw [← behind, ← scope] at moved
  have walked : walk.BodyRewrote code (taken.leaveRegistries .byFunction walk.analysis.exits) node
      newCode notes := {
    sound := moved.sound
    grows := moved.grows
    shows_ := by
      change taken.arena.Shows _ _
      exact arena ▸ rewrote.shows_
    nodup := rewrote.changes.nodup
    distinct := rewrote.distinct
    ordered := rewrote.ordered
    rising := moved.rising
    recorded := fun note mem binds made => (moved.recorded note mem binds made).2
    counted := moved.counted
    paid := Pays.settle paid unnoticed
    walks := by
      refine ⟨_, _, fun ledger closes => rewrote.walks ledger ?_⟩
      exact { closes with traces := traces ▸ closes.traces } }
  refine .pure ⟨⟨newCode, notes, walked⟩, fun path mem => ?_⟩
  change path.Backed taken.analysis.traces
  rw [traces]
  cases opened : last.analysis.exits.get .ret with
  | none => simp [opened] at mem
  | some snapshots =>
    rw [opened] at mem
    exact rewrote.moved.sound.analysis.parked .ret snapshots opened path mem

/-- The scopes in which control leaves a function hold recorded versions. -/
theorem gives_functionExits {node : Option NodeId} {returns : List Scope}
    (sound : walk.toSite.Sound) (backed : ∀ path ∈ returns, path.Backed walk.analysis.traces) :
    Gives (functionExits node returns) walk fun exits after => after = walk ∧ ∀ path ∈ exits,
      path.Backed walk.analysis.traces := by
  unfold functionExits
  rw [gives_arenaHere_bind]
  split
  · exact .pure ⟨rfl, backed⟩
  · rw [gives_scopeHere_bind]
    refine .pure ⟨rfl, fun path mem => ?_⟩
    rcases List.mem_append.1 mem with snapshot | last
    · exact backed path snapshot
    · rw [List.mem_singleton.1 last]
      exact sound.scope.fork _

/-- The body of a function is walked, and then its exits are joined. -/
theorem gives_walkFunction (sound : walk.toSite.Sound)
    (shows_ : walk.arena.Shows (.one .stmt body) code) (nodup : code.ids.Nodup) :
    Gives (walkFunction body) walk fun node after => ∃ newCode notes,
      walk.BodyRewrote code after node newCode notes := by
  refine .bind (gives_catchReturns sound shows_ nodup) ?_
  rintro ⟨node, returns⟩ middle ⟨⟨newCode, notes, walked⟩, backed⟩
  refine .bind (gives_functionExits walked.sound backed) ?_
  rintro exits _ ⟨rfl, fits⟩
  cases exits with
  | nil => exact .pure ⟨newCode, notes, walked⟩
  | cons path paths =>
    have ready := integrity_ready.2 walked.sound
    have joined :=
      gives_liftDiscreet (integrity_law.join (path :: paths) _ (by simp) ready fun path mem =>
        ⟨walked.sound.analysis, fits path mem⟩).gives (Site.discreet_join _)
    refine .bind joined ?_
    rintro _ after ⟨⟨kept, -⟩, same, unnoticed⟩
    exact .pure ⟨newCode, notes,
      walked.settle (integrity_ready.1 kept.toReady) kept.grows same unnoticed⟩

/-- Bodies of both kinds are walked. -/
theorem gives_walkBody (kind : BodyKind) (sound : walk.toSite.Sound)
    (shows_ : walk.arena.Shows (.one .stmt body) code) (nodup : code.ids.Nodup) :
    Gives (walkBody kind body) walk fun node after => ∃ newCode notes,
      walk.BodyRewrote code after node newCode notes := by
  cases kind with
  | moduleBody =>
    refine (gives_walkStmt sound shows_ nodup).mono ?_
    rintro node after ⟨newCode, breaks, notes, rewrote, paid⟩
    exact ⟨newCode, notes, rewrote.moved.sound, rewrote.moved.grows, rewrote.shows_,
      rewrote.changes.nodup,
      rewrote.distinct, rewrote.ordered,
      rewrote.moved.rising, fun note mem binds made =>
        (rewrote.moved.recorded note mem binds made).2, rewrote.moved.counted,
      paid, _, _, rewrote.walks⟩
  | functionBody => exact gives_walkFunction sound shows_ nodup

end Function

end Walk

end ValueFlow
