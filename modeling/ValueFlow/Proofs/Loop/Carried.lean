import ValueFlow.Proofs.Integrity.Session
import ValueFlow.Proofs.Loop.Drift
import ValueFlow.Proofs.Loop.View

/-!
# What a loop carries back to its head

The walk of a loop's body trusts the versions that are current at the head of the body. Where
control comes back to the head, a variable may stand at another version. That is covered if the
version at the head is unknown anyway, and so are all variables that the body writes. It is not
covered if a call in the body forgets a variable that the body does not write: the scan for writes
does not look for calls. `carried_iff` says that this is the only way to miss one.
-/

namespace ValueFlow
set_option autoImplicit false

namespace LoopView

/-- What is known at the head of the variable's version holds when control comes back in the scope:
the version is the same, or nothing is known of it. -/
def Covers (view : LoopView) (traces : Traces) (back : Scope) (var : VarId) : Prop :=
  back.versionOf var = view.head.scope.versionOf var ∨ traces.IsUnknown var (view.head.scope.versionOf var)

/-- The variable was known at the head, and the scope in which control comes back may have it at an
unknown version that was recorded behind the head. -/
def Forgets (view : LoopView) (traces : Traces) (back : Scope) (var : VarId) : Prop :=
  ¬ traces.IsUnknown var (view.head.scope.versionOf var) ∧
    traces.MayForget view.head.analysis.traces var (back.versionOf var)

end LoopView

namespace Walk

/-- The body of a loop was walked: at the head nothing is known of what it writes, and nothing else
has drifted from there but for calls. -/
structure BodyWalked (walk : Walk) (body : NodeId) (view : LoopView) (after : Walk) : Prop where
  sound : view.head.Sound
  soundAfter : after.analysis.traces.Sound after.analysis.vars
  grows : walk.analysis.Grows view.head.analysis
  growsAfter : view.head.analysis.Grows after.analysis
  written : ∀ var ∈ walk.arena.variablesWritten body,
    view.head.analysis.traces.IsUnknown var (view.head.scope.versionOf var)
  drifted : ∀ var ∉ walk.arena.variablesWritten body, ∀ back ∈ view.foot :: view.continues,
    back.Drifted view.head var (walk.arena.RunsCode body) after.analysis.traces

variable {walk : Walk} {body : NodeId} {depth : Nat}

/-- From the head on, the walk of a body in the region keeps to a discipline that knows what to say
of the snapshots at breaks and at continues, and the scopes that it ends in are good. -/
theorem holds_viewFromHead {D : Discipline} (law : D.Law) (mem : D.region.stmts body) {start : Walk}
    (ready : D.Ready D.ofWalk start)
    (taken : ∀ kind, kind ≠ .ret → ∀ site, D.Ready .ofSite site →
      D.Holds .ofSite (liftM (Analysis.takeExits .byLoop kind) : SiteM (List Scope)) site
        fun snapshots after => ∀ snapshot ∈ snapshots, D.good snapshot after.analysis) :
    D.Holds D.ofWalk (viewFromHead (walkStmtWithin depth) body start.toSite) start fun view after =>
      view.head = start.toSite ∧ ∀ back ∈ view.foot :: view.continues,
        D.good back after.analysis := by
  refine .bind law (Discipline.yields_walkStmtWithin law depth mem start ready)
    fun node walked kept _ => ?_
  refine .bind law (.lift kept.toReady (taken .brk nofun walked.toSite kept.toReady.site))
    fun breaks after kept _ => ?_
  refine .bind law (.lift kept.toReady (taken .cont nofun after.toSite kept.toReady.site))
    fun snapshots last kept fits => ?_
  refine .scopeHere_bindWalk (.pure law kept.toReady ⟨rfl, fun back mem => ?_⟩)
  rcases List.mem_cons.1 mem with rfl | snapshot
  · exact kept.good
  · exact fits back snapshot

theorem bodyWalked_of_viewLoop (sound : walk.toSite.Sound) {view : LoopView} {after : Walk}
    (walked : viewLoop (walkStmtWithin depth) body walk = .ok view after) :
    walk.BodyWalked body view after := by
  obtain ⟨start, last, arena, forgotten, onward, analysis, -⟩ := fromHead_of_viewLoop walked
  have soundInside : Site.Sound ⟨walk.scope.fork "loop", walk.analysis.inside .byLoop⟩ :=
    ⟨sound.analysis.inside .byLoop, sound.scope.fork "loop"⟩
  have forgot := (Site.ends_forgetAll soundInside _).of_ok forgotten
  have kept :=
    (holds_viewFromHead integrity_law trivial ⟨⟨forgot.sound.analysis, forgot.sound.scope⟩,
      Region.everything_encloses _⟩ fun kind _ site ready =>
      holds_takeExits .byLoop kind (integrity_ready.1 ready)).of_ok onward
  obtain ⟨kept, head, -⟩ := kept
  have registries (kind : ExitKind) (early : kind ≠ .ret) :
      start.analysis.exits.get kind = some [] := by
    rw [forgot.logOnly.exits, Analysis.inside, Exits.get_enter]
    cases kind <;> simp_all [Catch.byLoop, Catch.catches]
  have traces : after.analysis.traces = last.analysis.traces := by rw [analysis]; rfl
  have vars : after.analysis.vars = last.analysis.vars := by rw [analysis]; rfl
  have options : after.analysis.options = last.analysis.options := by rw [analysis]; rfl
  have edits : after.analysis.edits = last.analysis.edits := by rw [analysis]; rfl
  constructor
  · rw [head]
    exact forgot.sound
  · rw [traces, vars]
    exact kept.good.1.traces
  · rw [head]
    exact ⟨forgot.grows.traces, forgot.grows.uses, forgot.grows.vars, forgot.grows.options,
      forgot.grows.edits⟩
  · rw [head]
    exact ⟨traces ▸ kept.grows.traces, traces ▸ kept.grows.uses, vars ▸ kept.grows.vars,
      options ▸ kept.grows.options, edits ▸ kept.grows.edits⟩
  · intro var mem
    rw [head]
    exact (forgot.done var mem).resolve_left (by simp)
  · intro var unwritten
    -- The walk from the head on is seen once more, now as one that does not let the variable drift.
    let loop : LoopBody := ⟨walk.arena, body, start.toSite, var, unwritten⟩
    have steady : loop.Steady start.scope start.analysis := {
      sound := forgot.sound
      grows := .refl _
      fits := .inl rfl
      parked := by
        intro kind early snapshots opened snapshot mem
        rw [registries kind early] at opened
        obtain rfl := Option.some.inj opened
        cases mem }
    have encloses : (walk.arena.regionBelow body).Encloses start.arena :=
      arena ▸ walk.arena.regionBelow_encloses body
    have drifted := (holds_viewFromHead loop.drift_law (.inl .root) ⟨steady, encloses⟩
      fun _ early site ready => LoopBody.Steady.holds_takeExits ready early).of_ok onward
    intro back mem
    rw [head, traces]
    exact (drifted.2.2 back mem).fits

/-- If the version at the head is current when control comes back, nothing was forgotten. -/
theorem BodyWalked.not_forgets_of_same {view : LoopView} {after : Walk}
    (walked : walk.BodyWalked body view after) {back : Scope} {var : VarId}
    (same : back.versionOf var = view.head.scope.versionOf var) :
    ¬ view.Forgets after.analysis.traces back var := by
  rintro ⟨known, leaf, below, unknown, fresh⟩
  rw [same] at below
  cases held : view.head.scope.active[var]? with
  | some version =>
    -- The version is recorded at the head, and with it everything that it may stand for.
    have recorded := walked.sound.scope var version held
    rw [Scope.versionOf_of_active held] at below
    exact fresh (below.mem_older walked.sound.analysis.traces.linked
      walked.growsAfter.traces recorded)
  | none =>
    -- The variable stands at its entry version, which is no join.
    have entry : view.head.scope.versionOf var = .entry := by simp [Scope.versionOf, held]
    rw [entry] at below known
    obtain rfl := walked.soundAfter.leaf_entry_iff.1 below
    exact known unknown

/-- Exactly when nothing was forgotten, what is known at the head covers the way back. -/
theorem BodyWalked.covers_iff {view : LoopView} {after : Walk}
    (walked : walk.BodyWalked body view after) {back : Scope}
    (mem : back ∈ view.foot :: view.continues) (var : VarId) :
    view.Covers after.analysis.traces back var ↔ ¬ view.Forgets after.analysis.traces back var := by
  constructor
  · rintro (same | unknown)
    · exact walked.not_forgets_of_same same
    · exact fun forgets => forgets.1 unknown
  · intro kept
    by_cases unknown : after.analysis.traces.IsUnknown var (view.head.scope.versionOf var)
    · exact .inr unknown
    · have unwritten : var ∉ walk.arena.variablesWritten body :=
        fun written => unknown ((walked.written var written).extend walked.growsAfter.traces)
      rcases walked.drifted var unwritten back mem with same | ⟨-, -, forgets⟩
      · exact .inl same
      · exact absurd ⟨unknown, forgets⟩ kept

/-- What is forgotten on the way may be rebound elsewhere, is not written in the body, and there is
a call in the body. -/
theorem BodyWalked.cause {view : LoopView} {after : Walk}
    (walked : walk.BodyWalked body view after) {back : Scope}
    (mem : back ∈ view.foot :: view.continues) {var : VarId}
    (forgets : view.Forgets after.analysis.traces back var) :
    var ∉ walk.arena.variablesWritten body ∧ walk.arena.RunsCode body ∧
      walk.analysis.MayRebind var := by
  have unwritten : var ∉ walk.arena.variablesWritten body :=
    fun written => forgets.1 ((walked.written var written).extend walked.growsAfter.traces)
  rcases walked.drifted var unwritten back mem with same | ⟨calls, rebinds, -⟩
  · exact absurd forgets (walked.not_forgets_of_same same)
  · exact ⟨unwritten, calls, walked.grows.mayRebind rebinds⟩

theorem LoopView.mem_backEdges {view : LoopView} {arena : Arena} {back : Scope}
    (mem : back ∈ view.backEdges arena) :
    back ∈ view.foot :: view.continues := by
  rcases List.mem_append.1 mem with snapshot | foot
  · exact List.mem_cons_of_mem _ snapshot
  · split at foot
    · cases foot
    · rw [List.mem_singleton.1 foot]
      exact List.mem_cons_self

/-- A loop that was rewritten had its body walked. -/
theorem viewLoop_of_rewriteLoop {visit : NodeId → WalkM (Option NodeId)} {id : NodeId}
    {answer : StmtAnswer} {after : Walk}
    (rewritten : rewriteLoop visit id (some body) walk = .ok answer after) :
    ∃ view middle, viewLoop visit body walk = .ok view middle := by
  have seen : Ends (rewriteLoop visit id (some body)) walk
      (fun _ _ => ∃ view middle, viewLoop visit body walk = .ok view middle) (fun _ _ => True) := by
    unfold rewriteLoop arenaHere
    rw [ends_bind, ends_bind, ends_get, ends_pure]
    split
    · trivial
    · rw [ends_bind, walkLoopBody_eq, ends_map]
      refine (ends_reached _ _).mono (fun view middle reached => ?_) (fun _ _ _ => trivial)
      exact ends_well_iff.2 fun _ _ _ => ⟨view, middle, reached⟩
  exact seen.of_ok rewritten

/-- What a loop carries back to its head, in every session, at every scope and for every loop that
can be rewritten: in a scope in which control comes back, what is known of a variable at the head
holds, except exactly when the variable was forgotten behind the head. That takes a call in the
body, and a variable that the body does not write and that code elsewhere may rebind. -/
theorem back_edges_covered_iff (vars : Variables) (options : Options) (ops : List Session.Op) {scope : Scope}
    (held : scope ∈ ((Session.start vars options).run ops).scopes) {arena : Arena} {depth : Nat} {id body : NodeId}
    {answer : StmtAnswer} {after : Walk}
    (rewritten : rewriteLoop (walkStmtWithin depth) id (some body)
      ⟨⟨scope, ((Session.start vars options).run ops).state⟩, arena⟩ = .ok answer after) :
    ∃ view middle, viewLoop (walkStmtWithin depth) body
        ⟨⟨scope, ((Session.start vars options).run ops).state⟩, arena⟩ = .ok view middle ∧
      ∀ back ∈ view.backEdges middle.arena, ∀ var,
        (view.Covers middle.analysis.traces back var ↔ ¬ view.Forgets middle.analysis.traces back var) ∧
        (view.Forgets middle.analysis.traces back var →
          var ∉ arena.variablesWritten body ∧ arena.RunsCode body ∧
            ((Session.start vars options).run ops).state.MayRebind var) := by
  have session := (Session.sound_start vars options).run ops
  have sound : Site.Sound ⟨scope, ((Session.start vars options).run ops).state⟩ := ⟨session.state, session.scopes scope held⟩
  obtain ⟨view, middle, seen⟩ := viewLoop_of_rewriteLoop rewritten
  have walked := bodyWalked_of_viewLoop sound seen
  refine ⟨view, middle, seen, fun back mem var => ?_⟩
  have reached := LoopView.mem_backEdges mem
  exact ⟨walked.covers_iff reached var, walked.cause reached⟩

/-- A global that was assigned once. -/
def knownGlobal : Session :=
  (Session.start ⟨#[⟨"x", .global, false, .entry⟩]⟩ {}).run [.openScope "main", .atScope 0 (.assign 0 8)]

/-- A loop around a read of the global and a call. -/
def callLoop : Arena :=
  ⟨#[⟨.expr (.read 0 none), ⟨0, 1⟩⟩, ⟨.stmt (.effect 0), ⟨1, 2⟩⟩, ⟨.expr (.literal .none), ⟨2, 3⟩⟩,
    ⟨.expr (.call 2 []), ⟨3, 4⟩⟩, ⟨.stmt (.effect 3), ⟨4, 5⟩⟩, ⟨.stmt (.block [1, 4]), ⟨5, 6⟩⟩,
    ⟨.stmt (.loop (some 5)), ⟨6, 7⟩⟩]⟩

/-- The scope in which the global was assigned, over the loop. -/
def atCallLoop : Walk := ⟨⟨knownGlobal.scopes.headD (.fresh "main"), knownGlobal.state⟩, callLoop⟩

theorem atCallLoop_scope_mem : atCallLoop.scope ∈ knownGlobal.scopes :=
  Session.headD_mem_scopes (.fresh "main") (by decide +kernel)

theorem callLoop_rewritten :
    ∃ answer after, rewriteLoop (walkStmtWithin 8) 6 (some 5) atCallLoop = .ok answer after := by
  have ends : endsWith (rewriteLoop (walkStmtWithin 8) 6 (some 5)) atCallLoop
      (fun _ _ => true) = true := by
    decide +kernel
  obtain ⟨answer, after, rewritten, -⟩ := exists_of_endsWith ends
  exact ⟨answer, after, rewritten⟩

theorem back_edges_of_callLoop : ∃ view middle, viewLoop (walkStmtWithin 8) 5 atCallLoop = .ok view middle ∧
    ∀ back ∈ view.backEdges middle.arena, ∀ var,
      (view.Covers middle.analysis.traces back var ↔ ¬ view.Forgets middle.analysis.traces back var) ∧
      (view.Forgets middle.analysis.traces back var →
        var ∉ callLoop.variablesWritten 5 ∧ callLoop.RunsCode 5 ∧ knownGlobal.state.MayRebind var) := by
  obtain ⟨answer, after, rewritten⟩ := callLoop_rewritten
  exact back_edges_covered_iff _ _ _ atCallLoop_scope_mem rewritten

/-- The call forgets the global behind the head, where its assigned version was trusted. -/
theorem callLoop_uncovered : atCallLoop.scope ∈ knownGlobal.scopes ∧
    (∃ answer after, rewriteLoop (walkStmtWithin 8) 6 (some 5) atCallLoop = .ok answer after) ∧
    ∃ view middle, viewLoop (walkStmtWithin 8) 5 atCallLoop = .ok view middle ∧
      ∃ back ∈ view.backEdges middle.arena, ¬ view.Covers middle.analysis.traces back 0 := by
  have ends : endsWith (viewLoop (walkStmtWithin 8) 5) atCallLoop (fun view middle =>
      view.head.scope.versionOf 0 == 1 && middle.analysis.traces.origin? ⟨0, 1⟩ == some (.assigned 8 .entry) &&
        (view.backEdges middle.arena).any (·.versionOf 0 == 2)) = true := by
    decide +kernel
  obtain ⟨view, middle, seen, told⟩ := exists_of_endsWith ends
  simp only [Bool.and_eq_true, beq_iff_eq, List.any_eq_true] at told
  obtain ⟨⟨head, origin⟩, back, mem, moved⟩ := told
  refine ⟨atCallLoop_scope_mem, callLoop_rewritten, view, middle, seen, back, mem, ?_⟩
  rintro (same | ⟨previous, unknown⟩)
  · rw [head, moved] at same
    cases same
  · rw [head, origin] at unknown
    cases unknown

end Walk

end ValueFlow
