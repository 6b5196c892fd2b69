import ValueFlow.Proofs.Integrity.Law

/-!
# Sessions

A session is one analysis and everything its caller holds of it: the scopes opened, forked and
taken out of registries so far, and the registries put aside by the constructs that are open. The
caller may do to them what it likes, in any order, on any arena, and goes on after faults. In every
session the log is sound, and every version that a scope in hand or a parked snapshot holds is
recorded. So no operation blames the log, but for a join without paths and a question about a key
that was never recorded (`log_integrity`).
-/

namespace ValueFlow
set_option autoImplicit false

/-- An analysis with the scopes and the open constructs of its caller, the innermost first. -/
structure Session where
  state : Analysis
  scopes : List Scope
  guards : List (Catch × Exits)

/-- A computation in a session. -/
abbrev SessionM := EStateM Fault Session

namespace Session

/-- What a caller can do at one scope. Walks are given an arena; paths are given by number. -/
inductive ScopeOp where
  | current (var : VarId)
  | look (var : VarId)
  | assign (var : VarId) (node : NodeId)
  | delete (var : VarId)
  | release (var : VarId)
  | contentEscapes (var : VarId)
  | forget (var : VarId)
  | escapeAll
  | forgetAll (vars : List VarId)
  | join (paths : List Nat)
  | joinArms (yes no : Option Nat)
  | exit (kind : ExitKind)
  | walkExpr (arena : Arena) (id : NodeId)
  | walkStmt (arena : Arena) (id : NodeId)
  | walkBody (arena : Arena) (kind : BodyKind) (body : NodeId)

/-- What a caller can do with one key of the log. -/
inductive KeyOp where
  | find
  | noteRead
  | noteRelease
  | noteEscape
  | isSurelyBound
  | isSurelyUnbound

/-- What a caller can do in a session. -/
inductive Op where
  | openScope (label : String)
  | fork (number : Nat) (label : String)
  | atScope (number : Nat) (op : ScopeOp)
  | atKey (key : TraceKey) (op : KeyOp)
  | assumeDynamicNames
  | signal (edit : Edit) (span : Span)
  | enter (caught : Catch)
  | leave
  | take (kind : ExitKind)

/-- A walk over an arena of its own. -/
def overArena {α : Type} (arena : Arena) (act : WalkM α) : SiteM Unit :=
  focus (fun site => { site with arena }) (fun walk _ => walk.toSite) (discard act)

/-- The scopes in hand under the numbers given. -/
def paths (scopes : List Scope) (numbers : List Nat) : List Scope := numbers.filterMap (scopes[·]?)

/-- Runs an operation at a scope, given all scopes in hand. -/
def ScopeOp.run (scopes : List Scope) : ScopeOp → SiteM Unit
  | .current var => discard <| Site.currentVersion var
  | .look var => discard <| Site.currentTrace var
  | .assign var node => discard <| Site.assign var node
  | .delete var => discard <| Site.delete var
  | .release var => discard <| Site.release var
  | .contentEscapes var => Site.contentEscapes var
  | .forget var => discard <| Site.forget var
  | .escapeAll => Site.escapeAll
  | .forgetAll vars => Site.forgetAll vars
  | .join numbers => Site.join (paths scopes numbers)
  | .joinArms yes no => Site.joinArms (yes.bind (scopes[·]?)) (no.bind (scopes[·]?))
  | .exit kind => do Analysis.recordExit kind (← Site.scopeHere)
  | .walkExpr arena id => overArena arena (Walk.walkExpr id)
  | .walkStmt arena id => overArena arena (Walk.walkStmt id)
  | .walkBody arena kind body => overArena arena (Walk.walkBody kind body)

/-- Runs an operation on the log at a key. -/
def KeyOp.run (key : TraceKey) : KeyOp → TracesM Unit
  | .find => discard <| Traces.find key
  | .noteRead => Traces.noteRead key
  | .noteRelease => Traces.noteRelease key
  | .noteEscape => Traces.noteEscape key
  | .isSurelyBound => do discard <| ofExcept ((← get).isSurelyBound key)
  | .isSurelyUnbound => do discard <| ofExcept ((← get).isSurelyUnbound key)

/-- Leaves the innermost construct, if one is open. -/
def leave (session : Session) : Session :=
  match session.guards with
  | [] => session
  | (caught, outer) :: guards => { session with state := session.state.behind caught outer, guards }

/-- Runs an operation. One at a scope that is not in hand does nothing. -/
def perform : Op → SessionM Unit
  | .openScope label => modify fun session => { session with scopes := session.scopes ++ [.fresh label] }
  | .fork number label => modify fun session =>
    { session with scopes := session.scopes ++ (session.scopes[number]?.map (·.fork label)).toList }
  | .atScope number op => do
    let session ← get
    match session.scopes[number]? with
    | none => pure ()
    | some scope =>
      focus (fun session => ⟨scope, session.state⟩)
        (fun site session => { session with state := site.analysis, scopes := session.scopes.set number site.scope })
        (op.run session.scopes)
  | .atKey key op =>
    focus (·.state.traces) (fun traces session => { session with state := { session.state with traces } }) (op.run key)
  | .assumeDynamicNames => focus (·.state) (fun state session => { session with state }) Analysis.assumeDynamicNames
  | .signal edit span => focus (·.state) (fun state session => { session with state }) (Analysis.signal edit span)
  | .enter caught => modify fun session =>
    { session with state := session.state.inside caught, guards := (caught, session.state.exits) :: session.guards }
  | .leave => modify leave
  | .take kind => do
    match (← get).guards with
    | [] => pure ()
    | (caught, _) :: _ => do
      let snapshots ← focus (·.state) (fun state session => { session with state }) (Analysis.takeExits caught kind)
      modify fun session => { session with scopes := session.scopes ++ snapshots }

/-- A session in which nothing was done yet. -/
def start (vars : Variables) (options : Options) : Session := ⟨.fresh vars options, [], []⟩

/-- The session after an operation, whether it succeeded or failed. -/
def after (session : Session) (op : Op) : Session :=
  match perform op session with
  | .ok _ after => after
  | .error _ after => after

/-- The session after a row of operations. -/
def run (session : Session) (ops : List Op) : Session := ops.foldl after session

theorem headD_mem_scopes {session : Session} (other : Scope)
    (nonempty : 0 < session.scopes.length) :
    session.scopes.headD other ∈ session.scopes := by
  obtain ⟨scope, rest, same⟩ := List.exists_cons_of_length_pos nonempty
  rw [same]
  exact List.mem_cons_self

/-- The state is sound, and all scopes in hand or put aside hold recorded versions only. -/
structure Sound (session : Session) : Prop where
  state : session.state.Sound
  scopes : ∀ scope ∈ session.scopes, scope.Backed session.state.traces
  parked : ∀ guard ∈ session.guards, ∀ kind, ∀ snapshots ∈ guard.2.get kind, ∀ snapshot ∈ snapshots,
    snapshot.Backed session.state.traces

/-- The operation asks for what is not there: a join of no path, or a key that has no trace. -/
def Op.asksForNothing (session : Session) : Op → Prop
  | .atScope _ (.join numbers) => paths session.scopes numbers = []
  | .atKey key _ => key ∉ session.state.traces
  | _ => False

theorem sound_start (vars : Variables) (options : Options) : (start vars options).Sound where
  state := ⟨.empty vars, fun kind snapshots opened => by cases kind <;> cases opened⟩
  scopes := by simp [start]
  parked := by simp [start]

/-- An operation at a recorded key succeeds, and at no key is an origin changed. -/
theorem KeyOp.ends_run {traces : Traces} {vars : Variables} (sound : traces.Sound vars)
    (key : TraceKey) (op : KeyOp) :
    Ends (op.run key) traces (fun _ after => traces.SameOrigins after)
      (fun _ after => traces.SameOrigins after ∧ key ∉ traces) := by
  have asked (holds : Origin → Bool) (fault : Fault)
      (failed : traces.everyLeaf holds key.var key.version = .error fault) :
      key ∉ traces := by
    intro recorded
    obtain ⟨answer, told, -⟩ := sound.everyLeaf holds recorded
    cases told.symm.trans failed
  cases op with
  | find =>
    unfold run
    rw [ends_discard, Traces.ends_find]
    exact ⟨fun _ _ => .refl _, fun absent => ⟨.refl _, Traces.not_mem_of_find absent⟩⟩
  | noteRead =>
    exact Traces.ends_noteRead.mono (fun _ _ same => same) fun _ _ fell =>
      ⟨fell.1, fell.2 sound.linked⟩
  | noteRelease => exact Traces.ends_annotate _ fun _ => rfl
  | noteEscape => exact Traces.ends_annotate _ fun _ => rfl
  | isSurelyBound =>
    unfold run
    rw [ends_bind, ends_get, ends_discard, ends_ofExcept]
    exact ⟨fun _ _ => .refl _, fun fault failed => ⟨.refl _, asked _ fault failed⟩⟩
  | isSurelyUnbound =>
    unfold run
    rw [ends_bind, ends_get, ends_discard, ends_ofExcept]
    exact ⟨fun _ _ => .refl _, fun fault failed => ⟨.refl _, asked _ fault failed⟩⟩

/-- A walk on an arena keeps to a discipline at the scope it is started at, if the region encloses
the arena. -/
theorem obeys_overArena {D : Discipline} {α : Type} {act : WalkM α} {given : α → Prop}
    (yields : D.Yields D.ofWalk act given) {arena : Arena} (encloses : D.region.Encloses arena) :
    D.Obeys .ofSite (overArena arena act) := by
  intro site ready
  unfold overArena Discipline.Holds
  rw [ends_focus, ends_discard]
  have walked := yields { site with arena } ⟨ready.good, encloses⟩
  exact Ends.mono walked (fun _ _ told => ⟨⟨⟨told.1.good, trivial⟩, told.1.grows⟩, trivial⟩)
    fun _ _ fell => ⟨⟨⟨fell.1.good, trivial⟩, fell.1.grows⟩, fell.2⟩

theorem obeys_currentTrace (var : VarId) :
    integrity.Obeys .ofSite (discard <| Site.currentTrace var) := by
  intro site ready
  have sound := integrity_ready.1 ready
  have ends : Ends (discard <| Site.currentTrace var) site (fun _ after => site.Looked var after)
      (site.Refuses var) := by
    unfold Site.currentTrace Site.currentKey
    rw [ends_discard, ends_bind, ends_bind]
    refine (Site.ends_currentVersion sound var).mono ?_ (fun _ _ fell => fell)
    rintro version after ⟨rfl, looked⟩
    rw [ends_pure, ends_bind, ends_liftTracesSite, Traces.ends_find]
    exact ⟨fun _ _ => looked, fun absent => absurd looked.recorded (Traces.not_mem_of_find absent)⟩
  exact sound.holds_of_looked ends

/-- Whatever is done at a scope keeps to integrity, but for a join without paths. -/
theorem ScopeOp.holds_run {scopes : List Scope} {site : Site} (sound : site.Sound)
    (backed : ∀ scope ∈ scopes, integrity.good scope site.analysis) (op : ScopeOp)
    (some : ∀ numbers, op = .join numbers → paths scopes numbers ≠ []) :
    integrity.Holds .ofSite (op.run scopes) site fun _ _ => True := by
  have law := integrity_law
  have ready := integrity_ready.2 sound
  have held (number : Option Nat) : ∀ path ∈ number.bind (scopes[·]?),
      integrity.good path site.analysis := by
    intro path mem
    obtain ⟨number, -, found⟩ := Option.bind_eq_some_iff.1 mem
    exact backed path (List.mem_of_getElem? found)
  cases op with
  | current var => exact (law.current var).discard site ready
  | look var => exact obeys_currentTrace var site ready
  | assign var node => exact (law.assign trivial node).discard site ready
  | delete var => exact (law.delete var site trivial ready).map fun _ _ _ => trivial
  | release var => exact (law.release var).discard site ready
  | contentEscapes var => exact sound.holds_of_looked (Site.ends_contentEscapes sound var)
  | forget var => exact (law.forget trivial).discard site ready
  | escapeAll => exact law.escapeAll trivial site ready
  | forgetAll vars => exact law.forgetAll (fun _ _ => trivial) site ready
  | join numbers =>
    refine law.join _ site (some numbers rfl) ready fun path mem => ?_
    obtain ⟨number, -, found⟩ := List.mem_filterMap.1 mem
    exact backed path (List.mem_of_getElem? found)
  | joinArms yes no => exact law.joinArms ready (held yes) (held no)
  | exit kind => exact law.exit kind site ready
  | walkExpr arena id =>
    exact obeys_overArena (Discipline.yields_walkExpr law trivial)
      (Region.everything_encloses arena) site ready
  | walkStmt arena id =>
    exact obeys_overArena (Discipline.yields_walkStmt law trivial)
      (Region.everything_encloses arena) site ready
  | walkBody arena kind body =>
    exact obeys_overArena (Discipline.yields_walkBody law kind trivial (integrity_parks .ret))
      (Region.everything_encloses arena) site ready

section Steps

variable {session : Session}

/-- The state may gain while the scopes in hand and those put aside stay. -/
theorem Sound.withState (sound : session.Sound) {state : Analysis} (soundState : state.Sound)
    (extends_ : session.state.traces.Extends state.traces) :
    Session.Sound { session with state } where
  state := soundState
  scopes := fun scope mem => (sound.scopes scope mem).extend extends_
  parked := fun guard mem kind snapshots opened snapshot taken =>
    (sound.parked guard mem kind snapshots opened snapshot taken).extend extends_

/-- Scopes of recorded versions may come into hand. -/
theorem Sound.withScopes (sound : session.Sound) {scopes : List Scope}
    (backed : ∀ scope ∈ scopes, scope.Backed session.state.traces) :
    Session.Sound { session with scopes } :=
  ⟨sound.state, backed, sound.parked⟩

/-- More scopes of recorded versions may come into hand. -/
theorem Sound.withMore (sound : session.Sound) {scopes : List Scope}
    (backed : ∀ scope ∈ scopes, scope.Backed session.state.traces) :
    Session.Sound { session with scopes := session.scopes ++ scopes } :=
  sound.withScopes fun scope mem =>
    (List.mem_append.1 mem).elim (sound.scopes scope) (backed scope)

theorem Sound.leave (sound : session.Sound) : session.leave.Sound := by
  unfold Session.leave
  split
  · exact sound
  · rename_i caught outer guards open_
    have outermost := sound.parked (caught, outer) (by simp [open_])
    refine ⟨⟨sound.state.traces, fun kind snapshots opened => ?_⟩, sound.scopes,
      fun guard mem => ?_⟩
    · rw [Analysis.behind, Exits.get_leave] at opened
      split at opened
      · exact outermost kind snapshots opened
      · exact sound.state.parked kind snapshots opened
    · exact sound.parked guard (by simp [open_, mem])

/-- An operation at a scope in hand. -/
theorem Sound.ends_atScope (sound : session.Sound) {number : Nat} {scope : Scope}
    (found : session.scopes[number]? = some scope) (op : ScopeOp) :
    Ends (op.run session.scopes) ⟨scope, session.state⟩
      (fun _ site =>
        Sound { session with
          state := site.analysis, scopes := session.scopes.set number site.scope })
      (fun fault site =>
        Sound { session with
          state := site.analysis, scopes := session.scopes.set number site.scope } ∧
        (fault.blamesLog = true → (Op.atScope number op).asksForNothing session)) := by
  have soundSite : Site.Sound ⟨scope, session.state⟩ :=
    ⟨sound.state, sound.scopes scope (List.mem_of_getElem? found)⟩
  have kept {site : Site} (kept : integrity.Kept .ofSite ⟨scope, session.state⟩ site) :
      Sound { session with
        state := site.analysis, scopes := session.scopes.set number site.scope } := by
    have later : Sound { session with state := site.analysis } :=
      sound.withState kept.good.1 kept.grows.traces
    refine later.withScopes fun other mem => ?_
    rcases List.mem_or_eq_of_mem_set mem with old | rfl
    · exact later.scopes other old
    · exact kept.good.2
  by_cases nothing : ∃ numbers, op = .join numbers ∧ paths session.scopes numbers = []
  · obtain ⟨numbers, rfl, empty⟩ := nothing
    change Ends (Site.join (paths session.scopes numbers)) _ _ _
    rw [empty]
    exact ⟨kept (soundSite.kept (.refl _)), fun _ => empty⟩
  · refine Ends.mono
      (ScopeOp.holds_run soundSite (fun other mem => ⟨sound.state, sound.scopes other mem⟩) op
        fun numbers joins empty => nothing ⟨numbers, joins, empty⟩)
      (fun _ site told => kept told.1) ?_
    rintro fault site ⟨told, innocent⟩
    exact ⟨kept told, fun blames => absurd (innocent.symm.trans blames) (by simp)⟩

/-- The scopes at exits may be taken out, and to do so blames nothing on the log. -/
theorem Sound.ends_take (sound : session.Sound) (kind : ExitKind) :
    Ends (perform (.take kind)) session (fun _ after => after.Sound)
      (fun fault after =>
        after.Sound ∧ (fault.blamesLog = true → (Op.take kind).asksForNothing session)) := by
  unfold perform
  rw [ends_bind, ends_get]
  split
  · exact sound
  · rename_i caught outer guards opened
    rw [ends_bind, ends_focus]
    have soundSite : Site.Sound ⟨.fresh "", session.state⟩ :=
      ⟨sound.state, Scope.backed_fresh _ _⟩
    have taken := holds_takeExits caught kind soundSite
    unfold Discipline.Holds at taken
    rw [ends_liftAnalysis] at taken
    refine taken.mono ?_ ?_
    · rintro snapshots state ⟨kept, backed⟩
      have later : Sound { session with state } := sound.withState kept.good.1 kept.grows.traces
      exact later.withMore fun scope mem => (backed scope mem).2
    · rintro fault state ⟨kept, innocent⟩
      exact ⟨sound.withState kept.good.1 kept.grows.traces,
        fun blames => absurd (innocent.symm.trans blames) (by simp)⟩

/-- Every operation leaves a sound session behind, and blames the log only if it asks for
nothing. -/
theorem Sound.ends_perform (sound : session.Sound) (op : Op) :
    Ends (perform op) session (fun _ after => after.Sound)
      (fun fault after => after.Sound ∧ (fault.blamesLog = true → op.asksForNothing session)) := by
  cases op with
  | openScope label =>
    refine sound.withMore fun scope mem => ?_
    rw [List.mem_singleton.1 mem]
    exact Scope.backed_fresh _ _
  | fork number label =>
    refine sound.withMore fun scope mem => ?_
    obtain ⟨origin, found, rfl⟩ := Option.map_eq_some_iff.1 (Option.mem_toList.1 mem)
    exact (sound.scopes origin (List.mem_of_getElem? found)).fork label
  | atScope number op =>
    unfold perform
    rw [ends_bind, ends_get]
    split
    · exact sound
    · rename_i scope found
      rw [ends_focus]
      exact sound.ends_atScope found op
  | atKey key op =>
    unfold perform
    rw [ends_focus]
    have kept {traces : Traces} (same : session.state.traces.SameOrigins traces) :
        Sound { session with state := { session.state with traces } } :=
      sound.withState
        (sound.state.parked_of_grows (sound.state.traces.advance (.refl _) same) same.extends rfl)
        same.extends
    exact (op.ends_run sound.state.traces key).mono (fun _ _ => kept) fun _ _ fell =>
      ⟨kept fell.1, fun _ => fell.2⟩
  | assumeDynamicNames =>
    exact sound.withState (sound.state.unseen session.state.edits true) (.refl _)
  | signal edit span =>
    exact sound.withState
      (sound.state.unseen (session.state.edits.signal edit span) session.state.dynamicNames)
      (.refl _)
  | enter caught =>
    have inner : Sound { session with state := session.state.inside caught } :=
      sound.withState (sound.state.inside caught) (.refl _)
    refine ⟨inner.state, inner.scopes, fun guard mem => ?_⟩
    rcases List.mem_cons.1 mem with rfl | old
    · exact sound.state.parked
    · exact inner.parked guard old
  | leave => exact sound.leave
  | take kind => exact sound.ends_take kind

theorem Sound.after (sound : session.Sound) (op : Op) : (session.after op).Sound := by
  have ends := sound.ends_perform op
  unfold Ends at ends
  unfold Session.after
  revert ends
  cases perform op session with
  | ok _ next => exact id
  | error fault next => exact And.left

theorem Sound.run (sound : session.Sound) (ops : List Op) : (session.run ops).Sound := by
  induction ops generalizing session with
  | nil => exact sound
  | cons op rest ih => exact ih (sound.after op)

end Steps

/-- Referential integrity of the log: whatever was done in a session, and whatever of it failed, its
state is sound and the scopes in hand or parked hold recorded versions only. No operation that
comes next fails over a missing trace, a duplicate one or an empty join, unless it asks for a key
that was never recorded or for a join of no path. -/
theorem log_integrity (vars : Variables) (options : Options) (ops : List Op) :
    ((start vars options).run ops).Sound ∧ ∀ op fault after,
      perform op ((start vars options).run ops) = .error fault after → fault.blamesLog = true →
        op.asksForNothing ((start vars options).run ops) := by
  have sound := (sound_start vars options).run ops
  exact ⟨sound, fun op fault after failed => ((sound.ends_perform op).of_error failed).2⟩

end Session

end ValueFlow
