import ValueFlow.Proofs.Discipline.Walk
import ValueFlow.Proofs.Integrity.Binding
import ValueFlow.Proofs.Integrity.Join

/-!
# Integrity is a discipline

All operations of an analysis keep the log sound, and none of them blames the log: none fails over
a version without a trace, over a second trace for a key, or over a join without paths.
-/

namespace ValueFlow
set_option autoImplicit false

/-- The fault is a defect of the log, or a join without paths. -/
def Fault.blamesLog (fault : Fault) : Bool :=
  match fault.rootCause with
  | .missingTrace _ => true
  | .duplicateTrace _ => true
  | .emptyJoin => true
  | _ => false

@[simp] theorem Fault.rootCause_within (fault : Fault) (span : Span) :
    (fault.within span).rootCause = fault.rootCause := by
  cases fault <;> rfl

/-- Scopes hold recorded versions only, the state is sound and only gains, and no fault blames the
log. -/
def integrity : Discipline where
  good scope state := state.Sound ∧ scope.Backed state.traces
  grows := Analysis.Grows
  fault fault := fault.blamesLog = false
  region := .everything

theorem integrity_ready {site : Site} : integrity.Ready .ofSite site ↔ site.Sound :=
  ⟨fun ready => ⟨ready.good.1, ready.good.2⟩, fun sound => ⟨⟨sound.analysis, sound.scope⟩, trivial⟩⟩

theorem Site.Sound.kept {before after : Site} (sound : after.Sound)
    (grows : before.analysis.Grows after.analysis) :
    integrity.Kept .ofSite before after :=
  ⟨integrity_ready.2 sound, grows⟩

namespace Analysis.Sound

variable {before after : Analysis}

/-- Other notices and dynamic names leave a state sound. -/
theorem unseen {state : Analysis} (sound : state.Sound) (edits : EditLog) (dynamicNames : Bool) :
    Analysis.Sound { state with edits, dynamicNames } :=
  ⟨sound.traces, sound.parked⟩

/-- Inside a construct the registries of the kinds it catches are empty. -/
theorem inside {state : Analysis} (sound : state.Sound) (caught : Catch) :
    (state.inside caught).Sound := by
  refine ⟨sound.traces, fun kind snapshots opened => ?_⟩
  rw [Analysis.inside, Exits.get_enter] at opened
  split at opened
  · obtain rfl := Option.some.inj opened
    simp
  · exact sound.parked kind snapshots opened

/-- Behind a construct each registry is the outer one or the inner one. -/
theorem behind (sound : after.Sound) (outer : before.Sound)
    (extends_ : before.traces.Extends after.traces) (caught : Catch) :
    (after.behind caught before.exits).Sound := by
  refine ⟨sound.traces, fun kind snapshots opened snapshot mem => ?_⟩
  rw [Analysis.behind, Exits.get_leave] at opened
  split at opened
  · exact (outer.parked kind snapshots opened snapshot mem).extend extends_
  · exact sound.parked kind snapshots opened snapshot mem

/-- A scope of recorded versions may be parked, and parked scopes may be dropped. -/
theorem park {state : Analysis} (sound : state.Sound) {kind : ExitKind} {snapshots : List Scope}
    (backed : ∀ snapshot ∈ snapshots, snapshot.Backed state.traces) :
    (state.withSnapshots kind snapshots).Sound := by
  refine ⟨sound.traces, fun other parked opened => ?_⟩
  rw [Analysis.get_withSnapshots] at opened
  split at opened
  · obtain rfl := Option.some.inj opened
    exact backed
  · exact sound.parked other parked opened

/-- One more scope of recorded versions is parked. -/
theorem parkOne {state : Analysis} (sound : state.Sound) {kind : ExitKind}
    {snapshots : List Scope} (opened : state.exits.get kind = some snapshots) {scope : Scope}
    (backed : scope.Backed state.traces) (label : String) :
    (state.withSnapshots kind (snapshots ++ [scope.fork label])).Sound := by
  refine sound.park fun snapshot mem => ?_
  rcases List.mem_append.1 mem with old | new
  · exact sound.parked kind snapshots opened snapshot old
  · rw [List.mem_singleton.1 new]
    exact backed.fork label

end Analysis.Sound

theorem Analysis.Grows.withSnapshots (state : Analysis) (kind : ExitKind) (snapshots : List Scope) :
    state.Grows (state.withSnapshots kind snapshots) :=
  ⟨.refl _, .refl _, .refl _, rfl, Nat.le_refl _⟩

theorem obeys_recordExit (kind : ExitKind) :
    integrity.Obeys .ofSite
      (Site.scopeHere >>= fun scope => liftM (Analysis.recordExit kind scope)) := by
  intro site ready
  have sound := integrity_ready.1 ready
  refine .scopeHere_bind (ends_liftAnalysis.2 ((Analysis.ends_recordExit site.scope).mono ?_ ?_))
  · rintro _ after (⟨snapshots, opened, rfl⟩ | ⟨-, -, rfl⟩)
    · exact ⟨⟨⟨⟨sound.analysis.parkOne opened sound.scope _, sound.scope⟩, trivial⟩,
        .withSnapshots _ _ _⟩, trivial⟩
    · exact ⟨sound.kept (.refl _), trivial⟩
  · rintro fault after ⟨rfl, rfl, -⟩
    exact ⟨sound.kept (.refl _), rfl⟩

/-- In a sound state the snapshots that are parked hold recorded versions only. -/
theorem integrity_parks (kind : ExitKind) : integrity.Parks kind :=
  fun _ _ good snapshots opened snapshot mem =>
    ⟨good.1, good.1.parked kind snapshots opened snapshot mem⟩

theorem holds_takeExits (caught : Catch) (kind : ExitKind) {site : Site} (sound : site.Sound) :
    integrity.Holds .ofSite (liftM (Analysis.takeExits caught kind) : SiteM (List Scope)) site
      fun snapshots after => ∀ snapshot ∈ snapshots, integrity.good snapshot after.analysis := by
  refine ends_liftAnalysis.2
    ((Analysis.ends_takeExits caught).mono ?_ (fun _ _ impossible => impossible.elim))
  rintro snapshots after (⟨-, opened, rfl⟩ | ⟨rfl, -, rfl⟩)
  · have emptied : (site.analysis.withSnapshots kind []).Sound := sound.analysis.park (by simp)
    exact ⟨⟨⟨⟨emptied, sound.scope⟩, trivial⟩, .withSnapshots _ _ _⟩,
      fun snapshot mem => ⟨emptied, sound.analysis.parked _ _ opened snapshot mem⟩⟩
  · exact ⟨sound.kept (.refl _), by simp⟩

namespace Site

variable {site : Site} {α : Type} {act : SiteM α} {var : VarId}

/-- An operation that looks at a variable, and fails only if it is unregistered, keeps to
integrity. -/
theorem Sound.holds_of_looked (sound : site.Sound)
    (ends : Ends act site (fun _ after => site.Looked var after) (site.Refuses var)) :
    integrity.Holds .ofSite act site fun _ _ => True := by
  refine ends.mono (fun _ after looked => ⟨looked.sound.kept looked.grows, trivial⟩) ?_
  rintro fault after ⟨rfl, rfl⟩
  exact ⟨sound.kept (.refl _), rfl⟩

/-- A write keeps to integrity. -/
theorem Sound.holds_write (sound : site.Sound) {origin : Version → Origin}
    (writes : Origin.IsWrite origin) (var : VarId) : integrity.Holds .ofSite (write var origin) site
      fun answer after => answer.1 = site.scope.versionOf var ∧
        site.Wrote var origin answer.2 after := by
  refine (ends_write sound writes var).mono
    (fun _ after told => ⟨told.2.sound.kept told.2.grows, told⟩) ?_
  rintro fault after ⟨rfl, rfl⟩
  exact ⟨sound.kept (.refl _), rfl⟩

/-- The version before a write stays recorded. -/
theorem Wrote.previous_mem {origin : Version → Origin} {version : Version} {before after : Site}
    (wrote : before.Wrote var origin version after) (writes : Origin.IsWrite origin) :
    (⟨var, before.scope.versionOf var⟩ : TraceKey) ∈ after.analysis.traces :=
  (wrote.sound.analysis.traces.previous _ _ wrote.recorded _ (by simp [writes.previous])).1

theorem Sound.holds_escape (sound : site.Sound) (var : VarId) :
    integrity.Holds .ofSite (escape var) site fun _ _ => True := by
  refine (ends_escape sound var).mono ?_ ?_
  · rintro _ after ⟨slot, -, outcome⟩
    split at outcome
    · obtain ⟨version, wrote⟩ := outcome
      exact ⟨wrote.sound.kept wrote.grows, trivial⟩
    · subst outcome
      exact ⟨sound.kept (.refl _), trivial⟩
  · rintro fault after ⟨rfl, rfl⟩
    exact ⟨sound.kept (.refl _), rfl⟩

end Site

/-- A state that has seen nothing is sound. -/
theorem Site.sound_forBody (kind : BodyKind) (vars : Variables) (options : Options) :
    (Site.forBody kind vars options).Sound where
  analysis := ⟨.empty vars, fun kind snapshots opened => by cases kind <;> cases opened⟩
  scope := Scope.backed_fresh _ _

/-- The operations of an analysis keep the log sound. -/
theorem integrity_law : integrity.Law where
  refl := .refl
  trans := .trans
  carry := fun good other grows => ⟨other.1, good.2.extend grows.traces⟩
  fork := fun label good => ⟨good.1, good.2.fork label⟩
  inside := fun caught good => ⟨good.1.inside caught, good.2⟩
  behind := fun caught good other grows =>
    ⟨⟨other.1.behind good.1 grows.traces caught, other.2⟩,
      ⟨grows.traces, grows.uses, grows.vars, grows.options, grows.edits⟩⟩
  unseen := fun {_ _ edits} dynamicNames more good =>
    ⟨⟨good.1.unseen edits dynamicNames, good.2⟩, ⟨.refl _, .refl _, .refl _, rfl, more⟩⟩
  current := fun var site ready => by
    have sound := integrity_ready.1 ready
    exact sound.holds_of_looked
      ((Site.ends_currentVersion sound var).mono (fun _ _ told => told.2) fun _ _ fell => fell)
  write := fun var origin _ writes site ready =>
    ((integrity_ready.1 ready).holds_write writes var).mono fun _ _ _ _ => trivial
  escape := fun _ var site ready => (integrity_ready.1 ready).holds_escape var
  read := fun var site ready => (integrity_ready.1 ready).holds_of_looked
    (Site.ends_read (integrity_ready.1 ready) var)
  release := fun var site ready =>
    (integrity_ready.1 ready).holds_of_looked (Site.ends_release (integrity_ready.1 ready) var)
  delete := fun var site _ ready => by
    refine .map ((integrity_ready.1 ready).holds_write Origin.isWrite_unbound var) ?_
    rintro answer after ⟨prior, wrote⟩ fault failed
    obtain ⟨told, answered, -⟩ := wrote.sound.analysis.traces.everyLeaf Traces.leavesUnbound
      (wrote.previous_mem Origin.isWrite_unbound)
    rw [Traces.isSurelyUnbound, prior, answered] at failed
    cases failed
  join := fun paths site nonempty ready backed => by
    have sound := integrity_ready.1 ready
    refine (Site.ends_join sound nonempty fun path mem => (backed path mem).2).mono ?_
      (fun _ _ impossible => impossible.elim)
    rintro _ after (⟨path, rfl, rfl⟩ | ⟨-, joined⟩)
    · exact ⟨⟨⟨⟨sound.analysis, sound.scope.adopt (backed path (by simp)).2⟩, trivial⟩, .refl _⟩,
        trivial⟩
    · exact ⟨joined.sound.kept joined.grows, trivial⟩
  exit := obeys_recordExit
  breaks := (integrity_parks .brk).collects
  unregistered := fun _ => rfl
  wrongShape := fun _ _ => rfl
  cyclicNesting := fun _ => rfl
  within := fun span innocent => by
    unfold integrity Fault.blamesLog at *
    simpa using innocent

end ValueFlow
