import ValueFlow.Proofs.Integrity.Law

/-!
# How far a version drifts

Between the head of a loop and any point that the walk of its body reaches, a variable that nothing
in the body writes can change its version in one way only: code elsewhere may rebind it, and the
walk has met a call. Then a version is current that may be an unknown one, recorded behind the head
(`Drifted`). To drift no further than that is a discipline of all walks in the region of the body
(`drift_law`).
-/

namespace ValueFlow
set_option autoImplicit false

namespace Traces

variable {older newer : Traces} {var : VarId} {version : Version}

/-- A version may stand for an unknown one that another table has not recorded. -/
def MayForget (traces base : Traces) (var : VarId) (version : Version) : Prop :=
  ∃ leaf, traces.Leaf var version leaf ∧ traces.IsUnknown var leaf ∧ (⟨var, leaf⟩ : TraceKey) ∉ base

theorem MayForget.extend {base : Traces} (forgets : older.MayForget base var version)
    (extends_ : older.Extends newer) :
    newer.MayForget base var version := by
  obtain ⟨leaf, below, unknown, fresh⟩ := forgets
  exact ⟨leaf, below.extend extends_ unknown.mem, unknown.extend extends_, fresh⟩

end Traces

/-- Code elsewhere may rebind the variable. -/
def Analysis.MayRebind (state : Analysis) (var : VarId) : Prop :=
  ∃ slot, state.vars.get? var = some slot ∧ slot.mayBeRebound state.options = true

/-- Which variables may be rebound does not change. -/
theorem Analysis.Grows.mayRebind {older newer : Analysis} (grows : older.Grows newer) {var : VarId}
    (rebinds : newer.MayRebind var) : older.MayRebind var := by
  obtain ⟨slot, found, rebound⟩ := rebinds
  obtain ⟨old, foundOld, -, same⟩ := grows.vars.slot_back found
  refine ⟨old, foundOld, ?_⟩
  rw [grows.options, same] at rebound
  exact rebound

/-- A variable in a scope stands where it stood at the head, or the walk has met a call on the way
and it may be forgotten. -/
def Scope.Drifted (head : Site) (var : VarId) (calls : Prop) (scope : Scope) (traces : Traces) : Prop :=
  scope.versionOf var = head.scope.versionOf var ∨
    calls ∧ head.analysis.MayRebind var ∧ traces.MayForget head.analysis.traces var (scope.versionOf var)

namespace Scope.Drifted

variable {head : Site} {var : VarId} {calls : Prop} {scope : Scope} {traces newer : Traces}

theorem extend (drifted : scope.Drifted head var calls traces) (extends_ : traces.Extends newer) :
    scope.Drifted head var calls newer :=
  drifted.imp_right fun told => ⟨told.1, told.2.1, told.2.2.extend extends_⟩

/-- What is said of a scope is said of the version in it alone. -/
theorem congr {other : Scope} (drifted : scope.Drifted head var calls traces)
    (same : other.versionOf var = scope.versionOf var) : other.Drifted head var calls traces := by
  unfold Drifted
  rw [same]
  exact drifted

end Scope.Drifted

/-- The part of an arena below the body of a loop, where one variable is never written. -/
structure LoopBody where
  arena : Arena
  body : NodeId
  head : Site
  var : VarId
  unwritten : var ∉ arena.variablesWritten body

namespace LoopBody

variable (loop : LoopBody)

/-- The variable has not drifted in the scope. -/
def Fits (scope : Scope) (traces : Traces) : Prop :=
  scope.Drifted loop.head loop.var (loop.arena.RunsCode loop.body) traces

/-- The state is sound and has grown from the one at the head, and the variable has drifted neither
in the scope nor in the snapshots parked at breaks and continues. -/
structure Steady (scope : Scope) (state : Analysis) : Prop where
  sound : Site.Sound ⟨scope, state⟩
  grows : loop.head.analysis.Grows state
  fits : loop.Fits scope state.traces
  parked : ∀ kind, kind ≠ .ret → ∀ snapshots ∈ state.exits.get kind, ∀ snapshot ∈ snapshots,
    loop.Fits snapshot state.traces

/-- To drift no further is a discipline of the walks below the body. -/
def drift : Discipline where
  good := loop.Steady
  grows := Analysis.Grows
  fault := fun _ => True
  region := loop.arena.regionBelow loop.body

variable {loop}

namespace Steady

variable {scope : Scope} {before after : Analysis} {site later : Site}

/-- The state may gain while the registries stay. -/
theorem advance (steady : loop.Steady site.scope site.analysis) (sound : later.Sound)
    (grows : site.analysis.Grows later.analysis)
    (exits : later.analysis.exits = site.analysis.exits)
    (fits : loop.Fits later.scope later.analysis.traces) :
    loop.Steady later.scope later.analysis where
  sound := sound
  grows := steady.grows.trans grows
  fits := fits
  parked := by
    rw [exits]
    exact fun kind early snapshots opened snapshot mem =>
      (steady.parked kind early snapshots opened snapshot mem).extend grows.traces

/-- A look leaves the versions where they are. -/
theorem looked (steady : loop.Steady site.scope site.analysis) {var : VarId}
    (looked : site.Looked var later) :
    loop.Steady later.scope later.analysis := by
  refine steady.advance looked.sound looked.grows looked.logOnly.exits ?_
  exact (steady.fits.extend looked.grows.traces).congr (congrFun looked.versionOf loop.var)

/-- A write of another variable leaves this one where it is. -/
theorem wroteOther (steady : loop.Steady site.scope site.analysis) {var : VarId}
    {origin : Version → Origin} {version : Version} (wrote : site.Wrote var origin version later)
    (apart : loop.var ≠ var) :
    loop.Steady later.scope later.analysis := by
  refine steady.advance wrote.sound wrote.grows wrote.logOnly.exits ?_
  refine (steady.fits.extend wrote.grows.traces).congr ?_
  rw [wrote.scope, Scope.versionOf_setVersion, if_neg apart]

/-- An escape of the variable makes a version current that is unknown and new. -/
theorem escaped (steady : loop.Steady site.scope site.analysis) {version : Version}
    (wrote : site.Wrote loop.var (fun previous => .unknown (some previous)) version later)
    (calls : loop.arena.RunsCode loop.body) (rebinds : site.analysis.MayRebind loop.var) :
    loop.Steady later.scope later.analysis := by
  refine steady.advance wrote.sound wrote.grows wrote.logOnly.exits
    (.inr ⟨calls, steady.grows.mayRebind rebinds, ?_⟩)
  have unknown : later.analysis.traces.IsUnknown loop.var version := ⟨_, wrote.recorded⟩
  rw [wrote.scope, Scope.versionOf_setVersion, if_pos rfl]
  exact ⟨version, unknown.self_leaf, unknown, fun mem => wrote.free (steady.grows.traces.mem mem)⟩

/-- Where paths meet on which the variable has not drifted, it has not drifted either. -/
theorem joined (steady : loop.Steady site.scope site.analysis) {paths : List Scope}
    (several : 2 ≤ paths.length) (fits : ∀ path ∈ paths, loop.Fits path site.analysis.traces)
    (joined : site.Joined paths [] later) :
    loop.Steady later.scope later.analysis := by
  refine steady.advance joined.sound joined.grows joined.logOnly.exits ?_
  by_cases still : ∀ path ∈ paths, path.versionOf loop.var = loop.head.scope.versionOf loop.var
  · have nonempty : paths ≠ [] :=
      List.ne_nil_of_length_pos (Nat.lt_of_lt_of_le Nat.zero_lt_two several)
    exact .inl (joined.versionOf_eq nonempty still)
  · simp only [not_forall] at still
    obtain ⟨path, mem, moved⟩ := still
    have carried : loop.Fits path later.analysis.traces :=
      (fits path mem).extend joined.grows.traces
    rcases joined.joins loop.var with agree | merged
    · exact carried.congr (agree path mem).symm
    · obtain ⟨calls, rebinds, leaf, below, unknown, fresh⟩ := carried.resolve_left moved
      exact .inr ⟨calls, rebinds, leaf,
        .through merged (Scope.mem_versionsOf.2 ⟨path, mem, rfl⟩) below, unknown, fresh⟩

/-- A single path is taken over. -/
theorem adopted (steady : loop.Steady site.scope site.analysis) {path : Scope}
    (backed : path.Backed site.analysis.traces) (fits : loop.Fits path site.analysis.traces) :
    loop.Steady (site.scope.adopt path) site.analysis := by
  have sound : Site.Sound ⟨site.scope.adopt path, site.analysis⟩ :=
    ⟨steady.sound.analysis, steady.sound.scope.adopt backed⟩
  refine steady.advance sound (.refl _) rfl ?_
  rcases Scope.versionOf_adopt site.scope path loop.var with same | same
  · exact fits.congr same
  · exact steady.fits.congr same

theorem inside (steady : loop.Steady scope before) (caught : Catch) :
    loop.Steady scope (before.inside caught) where
  sound := ⟨steady.sound.analysis.inside caught, steady.sound.scope⟩
  grows := ⟨steady.grows.traces, steady.grows.uses, steady.grows.vars, steady.grows.options,
    steady.grows.edits⟩
  fits := steady.fits
  parked kind early snapshots opened := by
    rw [Analysis.inside, Exits.get_enter] at opened
    split at opened
    · obtain rfl := Option.some.inj opened
      simp
    · exact steady.parked kind early snapshots opened

theorem behind
    (outer : ∀ kind, kind ≠ .ret → ∀ snapshots ∈ before.exits.get kind, ∀ snapshot ∈ snapshots,
      loop.Fits snapshot before.traces)
    (soundOuter : before.Sound) (steady : loop.Steady scope after)
    (grows : before.traces.Extends after.traces) (caught : Catch) :
    loop.Steady scope (after.behind caught before.exits) where
  sound := ⟨steady.sound.analysis.behind soundOuter grows caught, steady.sound.scope⟩
  grows := ⟨steady.grows.traces, steady.grows.uses, steady.grows.vars, steady.grows.options,
    steady.grows.edits⟩
  fits := steady.fits
  parked kind early snapshots opened snapshot mem := by
    rw [Analysis.behind, Exits.get_leave] at opened
    split at opened
    · exact (outer kind early snapshots opened snapshot mem).extend grows
    · exact steady.parked kind early snapshots opened snapshot mem

end Steady

/-- Every law of operations that look at a variable and may fail over an unregistered one. -/
theorem Steady.holds_looked {site : Site} (ready : loop.drift.Ready .ofSite site) {α : Type}
    {act : SiteM α} {var : VarId}
    (ends : Ends act site (fun _ after => site.Looked var after) (site.Refuses var)) :
    loop.drift.Holds .ofSite act site fun _ _ => True := by
  have steady : loop.Steady site.scope site.analysis := ready.good
  refine ends.mono
    (fun _ after looked => ⟨⟨⟨steady.looked looked, trivial⟩, looked.grows⟩, trivial⟩) ?_
  rintro fault after ⟨rfl, rfl⟩
  exact ⟨⟨ready, .refl _⟩, trivial⟩

theorem Steady.holds_write {site : Site} (ready : loop.drift.Ready .ofSite site) {var : VarId}
    (writes : var ∈ loop.arena.variablesWritten loop.body) {origin : Version → Origin}
    (isWrite : Origin.IsWrite origin) :
    loop.drift.Holds .ofSite (Site.write var origin) site
      fun answer after => answer.1 = site.scope.versionOf var ∧
        site.Wrote var origin answer.2 after := by
  have steady : loop.Steady site.scope site.analysis := ready.good
  have apart : loop.var ≠ var := fun same => loop.unwritten (same ▸ writes)
  refine (Site.ends_write steady.sound isWrite var).mono
    (fun _ after told => ⟨⟨⟨steady.wroteOther told.2 apart, trivial⟩, told.2.grows⟩, told⟩) ?_
  rintro fault after ⟨rfl, rfl⟩
  exact ⟨⟨ready, .refl _⟩, trivial⟩

theorem Steady.holds_escape {site : Site} (ready : loop.drift.Ready .ofSite site)
    (calls : loop.arena.RunsCode loop.body) (var : VarId) :
    loop.drift.Holds .ofSite (Site.escape var) site fun _ _ => True := by
  have steady : loop.Steady site.scope site.analysis := ready.good
  refine (Site.ends_escape steady.sound var).mono ?_ ?_
  · rintro _ after ⟨slot, found, outcome⟩
    split at outcome
    · rename_i rebound
      obtain ⟨version, wrote⟩ := outcome
      by_cases same : loop.var = var
      · subst same
        exact ⟨⟨⟨steady.escaped wrote calls ⟨slot, found, rebound⟩, trivial⟩, wrote.grows⟩, trivial⟩
      · exact ⟨⟨⟨steady.wroteOther wrote same, trivial⟩, wrote.grows⟩, trivial⟩
    · subst outcome
      exact ⟨⟨ready, .refl _⟩, trivial⟩
  · rintro fault after ⟨rfl, rfl⟩
    exact ⟨⟨ready, .refl _⟩, trivial⟩

/-- Snapshots in which the variable has not drifted may be parked. -/
theorem Steady.park {scope : Scope} {state : Analysis} (steady : loop.Steady scope state)
    {kind : ExitKind} {snapshots : List Scope}
    (backed : ∀ snapshot ∈ snapshots, snapshot.Backed state.traces)
    (fits : kind ≠ .ret → ∀ snapshot ∈ snapshots, loop.Fits snapshot state.traces) :
    loop.Steady scope (state.withSnapshots kind snapshots) where
  sound := ⟨steady.sound.analysis.park backed, steady.sound.scope⟩
  grows := steady.grows.trans (.withSnapshots _ _ _)
  fits := steady.fits
  parked other early held opened := by
    rw [Analysis.get_withSnapshots] at opened
    split at opened
    · rename_i same
      obtain rfl := Option.some.inj opened
      exact fits (same ▸ early)
    · exact steady.parked other early held opened

theorem Steady.holds_recordExit {site : Site} (ready : loop.drift.Ready .ofSite site)
    (kind : ExitKind) :
    loop.drift.Holds .ofSite
      (Site.scopeHere >>= fun scope => liftM (Analysis.recordExit kind scope)) site
      fun _ _ => True := by
  have steady : loop.Steady site.scope site.analysis := ready.good
  refine .scopeHere_bind (ends_liftAnalysis.2 ((Analysis.ends_recordExit site.scope).mono ?_ ?_))
  · rintro _ after (⟨snapshots, opened, rfl⟩ | ⟨-, -, rfl⟩)
    · have backed : ∀ snapshot ∈ snapshots ++ [site.scope.fork kind.snapshotLabel],
          snapshot.Backed site.analysis.traces := by
        intro snapshot mem
        rcases List.mem_append.1 mem with old | new
        · exact steady.sound.analysis.parked _ _ opened snapshot old
        · rw [List.mem_singleton.1 new]
          exact steady.sound.scope.fork _
      have fits : kind ≠ .ret → ∀ snapshot ∈ snapshots ++ [site.scope.fork kind.snapshotLabel],
          loop.Fits snapshot site.analysis.traces := by
        intro early snapshot mem
        rcases List.mem_append.1 mem with old | new
        · exact steady.parked kind early snapshots opened snapshot old
        · rw [List.mem_singleton.1 new]
          exact steady.fits.congr rfl
      exact ⟨⟨⟨steady.park backed fits, trivial⟩, .withSnapshots _ _ _⟩, trivial⟩
    · exact ⟨⟨ready, .refl _⟩, trivial⟩
  · rintro fault after ⟨rfl, rfl, -⟩
    exact ⟨⟨ready, .refl _⟩, trivial⟩

/-- A snapshot that is parked at a break or at a continue has the variable where it was. -/
theorem Steady.parkedSnapshot {scope : Scope} {state : Analysis}
    (steady : loop.Steady scope state) {kind : ExitKind} (early : kind ≠ .ret)
    {snapshots : List Scope} (opened : state.exits.get kind = some snapshots) {snapshot : Scope}
    (mem : snapshot ∈ snapshots) :
    loop.Steady snapshot state :=
  ⟨⟨steady.sound.analysis, steady.sound.analysis.parked _ _ opened snapshot mem⟩, steady.grows,
    steady.parked kind early snapshots opened snapshot mem, steady.parked⟩

/-- The snapshots that a loop collects at its breaks or continues are taken out with the variable
where it was. -/
theorem Steady.holds_takeExits {site : Site} (ready : loop.drift.Ready .ofSite site)
    {kind : ExitKind} (early : kind ≠ .ret) :
    loop.drift.Holds .ofSite (liftM (Analysis.takeExits .byLoop kind) : SiteM (List Scope)) site
      fun snapshots after => ∀ snapshot ∈ snapshots, loop.Steady snapshot after.analysis := by
  have steady : loop.Steady site.scope site.analysis := ready.good
  refine ends_liftAnalysis.2
    ((Analysis.ends_takeExits .byLoop).mono ?_ (fun _ _ impossible => impossible.elim))
  rintro snapshots after (⟨-, opened, rfl⟩ | ⟨rfl, -, rfl⟩)
  · have emptied : loop.Steady site.scope (site.analysis.withSnapshots kind []) :=
      steady.park (by simp) (by simp)
    refine ⟨⟨⟨emptied, trivial⟩, .withSnapshots _ _ _⟩, fun snapshot mem => ?_⟩
    have taken := steady.parkedSnapshot early opened mem
    exact ⟨⟨emptied.sound.analysis, taken.sound.scope⟩, emptied.grows, taken.fits, emptied.parked⟩
  · exact ⟨⟨ready, .refl _⟩, by simp⟩

/-- Below the body of a loop no operation lets the variable drift any further. -/
theorem drift_law (loop : LoopBody) : loop.drift.Law where
  refl := .refl
  trans := .trans
  carry := fun {_ _ _ _} good other grows =>
    ⟨⟨other.sound.analysis, good.sound.scope.extend grows.traces⟩, other.grows,
      good.fits.extend grows.traces, other.parked⟩
  fork := fun label good => ⟨⟨good.sound.analysis, good.sound.scope.fork label⟩, good.grows,
    good.fits.congr rfl, good.parked⟩
  inside := fun caught good => good.inside caught
  behind := fun caught good other grows =>
    ⟨.behind good.parked good.sound.analysis other grows.traces caught,
      ⟨grows.traces, grows.uses, grows.vars, grows.options, grows.edits⟩⟩
  unseen := fun {_ _ edits} dynamicNames more good =>
    ⟨⟨⟨good.sound.analysis.unseen edits dynamicNames, good.sound.scope⟩,
        ⟨good.grows.traces, good.grows.uses, good.grows.vars, good.grows.options,
          Nat.le_trans good.grows.edits more⟩, good.fits, good.parked⟩,
      ⟨.refl _, .refl _, .refl _, rfl, more⟩⟩
  current := fun var site ready => Steady.holds_looked ready
    ((Site.ends_currentVersion ready.good.sound var).mono (fun _ _ told => told.2)
      fun _ _ fell => fell)
  write := fun var origin writes isWrite site ready =>
    (Steady.holds_write ready writes isWrite).mono fun _ _ _ _ => trivial
  escape := fun calls var site ready => Steady.holds_escape ready calls var
  read := fun var site ready => Steady.holds_looked ready (Site.ends_read ready.good.sound var)
  release := fun var site ready => Steady.holds_looked ready
    (Site.ends_release ready.good.sound var)
  delete := fun var site writes ready =>
    .map (Steady.holds_write ready writes Origin.isWrite_unbound) fun _ _ _ _ _ => trivial
  join := fun paths site nonempty ready good => by
    have steady : loop.Steady site.scope site.analysis := ready.good
    refine (Site.ends_join steady.sound nonempty fun path mem => (good path mem).sound.scope).mono
      ?_ (fun _ _ impossible => impossible.elim)
    rintro _ after (⟨path, rfl, rfl⟩ | ⟨several, joined⟩)
    · have path := good path (by simp)
      exact ⟨⟨⟨steady.adopted path.sound.scope path.fits, trivial⟩, .refl _⟩, trivial⟩
    · exact ⟨⟨⟨steady.joined several (fun path mem => (good path mem).fits) joined, trivial⟩,
        joined.grows⟩, trivial⟩
  exit := fun kind site ready => Steady.holds_recordExit ready kind
  breaks := fun _ _ good _ _ opened _ mem => good.parkedSnapshot (by decide) opened mem
  unregistered := fun _ => trivial
  wrongShape := fun _ _ => trivial
  cyclicNesting := fun _ => trivial
  within := fun _ _ => trivial

end LoopBody

end ValueFlow
