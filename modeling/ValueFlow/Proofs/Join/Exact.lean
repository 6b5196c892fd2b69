import ValueFlow.Proofs.Integrity.Session
import ValueFlow.Proofs.Join.Orders

/-!
# What a join of several paths does, exactly

A join of two or more paths leaves in the scope the variables that some path looked at, and no
other. A variable at which all paths hold one version goes on at that version, and nothing is
recorded for it. For any other variable one version is handed out, and it is recorded to be any of
the versions that the paths hold, in increasing order. Nothing else of the state changes
(`Site.JoinedExactly`).

In every state that a session reaches, scopes of recorded versions can be joined so, and the outcome
depends neither on the order of the paths, nor on how often one is given, nor on the orders in which
the join walks over their maps (`Session.join_exactly`).
-/

namespace ValueFlow
set_option autoImplicit false

/-- The two states hold the same of one variable: its slot, with the counter in it, and all of its
traces. -/
structure Analysis.SameAt (var : VarId) (before after : Analysis) : Prop where
  slot : after.vars.get? var = before.vars.get? var
  traces : ∀ version, after.traces[(⟨var, version⟩ : TraceKey)]? = before.traces[(⟨var, version⟩ : TraceKey)]?

theorem Analysis.SameAt.refl (var : VarId) (state : Analysis) : state.SameAt var state :=
  ⟨rfl, fun _ => rfl⟩

theorem Analysis.SameAt.trans {var : VarId} {first second third : Analysis}
    (early : first.SameAt var second) (late : second.SameAt var third) : first.SameAt var third :=
  ⟨late.slot.trans early.slot, fun version => (late.traces version).trans (early.traces version)⟩

/-- A version was handed out and recorded, and nothing else was changed. -/
structure Analysis.RecordedOnly (var : VarId) (origin : Origin) (version : Version) (before after : Analysis) : Prop where
  only : before.LogOnly after
  slot : ∃ slot, before.vars.get? var = some slot ∧ version = slot.lastVersion + 1 ∧
    after.vars.get? var = some { slot with lastVersion := version }
  free : before.traces[(⟨var, version⟩ : TraceKey)]? = none
  traces : ∀ other, after.traces[(⟨var, other⟩ : TraceKey)]? =
    if other = version then some (.ofOrigin origin) else before.traces[(⟨var, other⟩ : TraceKey)]?
  beside : ∀ other, other ≠ var → before.SameAt other after

theorem Analysis.gives_recordNext (state : Analysis) (var : VarId) (origin : Origin) :
    Gives (recordNext var origin) state fun version after =>
      state.RecordedOnly var origin version after := by
  unfold Gives recordNext allocate
  rw [ends_bind, ends_bind, ends_get]
  cases allocated : state.vars.allocate? var with
  | none => trivial
  | some answer =>
    obtain ⟨version, vars⟩ := answer
    obtain ⟨-, slot, found, next⟩ := Variables.advances_of_allocate? allocated
    dsimp only
    rw [ends_bind, ends_modify, ends_pure, ends_bind, ends_liftTraces, Traces.ends_record]
    refine ⟨fun free => ?_, fun _ => trivial⟩
    have inserted (other : TraceKey) :
        (state.traces.insert ⟨var, version⟩ (.ofOrigin origin))[other]? =
        if other = ⟨var, version⟩ then some (.ofOrigin origin) else state.traces[other]? :=
      Traces.getElem?_insert_trace
    constructor
    case only => rfl
    case slot => exact ⟨slot, found, next, by simp [Variables.get?_of_allocate? allocated, found]⟩
    case free => exact Std.ExtTreeMap.getElem?_eq_none free
    case traces =>
      intro other
      refine (inserted _).trans ?_
      simp
    case beside =>
      intro other apart
      constructor
      · simp [Variables.get?_of_allocate? allocated, apart]
      · intro otherVersion
        refine (inserted _).trans ?_
        simp [apart]

namespace Site

/-- The site holds the same of a variable: its place in the scope, its counter and its traces. -/
structure SameAt (var : VarId) (before after : Site) : Prop where
  active : after.scope.active[var]? = before.scope.active[var]?
  state : before.analysis.SameAt var after.analysis

/-- All paths hold the variable at one version. It goes on at that version, and nothing is
recorded. -/
structure GoesOn (paths : List Scope) (var : VarId) (version : Version) (before after : Site) : Prop where
  agree : ∀ path ∈ paths, path.versionOf var = version
  active : after.scope.active[var]? = some version
  state : before.analysis.SameAt var after.analysis

/-- The paths hold the variable at different versions, which are its sources in increasing order. It
goes on at the next version of its counter, and that is recorded to be any of them. -/
structure Merges (paths : List Scope) (var : VarId) (sources : List Version) (before after : Site) : Prop where
  members : ∀ version, version ∈ sources ↔ ∃ path ∈ paths, path.versionOf var = version
  sorted : sources.Pairwise (· < ·)
  several : 2 ≤ sources.length
  merged : ∃ slot, before.analysis.vars.get? var = some slot ∧
    after.analysis.vars.get? var = some { slot with lastVersion := slot.lastVersion + 1 } ∧
    after.scope.active[var]? = some (slot.lastVersion + 1) ∧
    before.analysis.traces[(⟨var, slot.lastVersion + 1⟩ : TraceKey)]? = none ∧
    ∀ version, after.analysis.traces[(⟨var, version⟩ : TraceKey)]? =
      if version = slot.lastVersion + 1 then some (.ofOrigin (.joined sources))
      else before.analysis.traces[(⟨var, version⟩ : TraceKey)]?

/-- A variable that some path looked at is joined. -/
def JoinedAt (paths : List Scope) (var : VarId) (before after : Site) : Prop :=
  (∃ version, GoesOn paths var version before after) ∨ ∃ sources, Merges paths var sources before after

/-- Several paths were joined, and nothing else was done. -/
structure JoinedExactly (paths : List Scope) (before after : Site) : Prop where
  label : after.scope.label = before.scope.label
  active : ∀ var, var ∈ after.scope.active ↔ ∃ path ∈ paths, var ∈ path.active
  looked : ∀ var, (∃ path ∈ paths, var ∈ path.active) → JoinedAt paths var before after
  unlooked : ∀ var, (¬ ∃ path ∈ paths, var ∈ path.active) → before.analysis.SameAt var after.analysis
  only : before.analysis.LogOnly after.analysis

variable {paths : List Scope} {var : VarId} {before middle after : Site}

theorem JoinedAt.later (joined : JoinedAt paths var before middle)
    (same : middle.SameAt var after) :
    JoinedAt paths var before after := by
  rcases joined with ⟨version, goes⟩ | ⟨sources, merges⟩
  · exact .inl ⟨version, goes.agree, same.active.trans goes.active, goes.state.trans same.state⟩
  · obtain ⟨slot, found, advanced, active, free, traces⟩ := merges.merged
    refine .inr ⟨sources, merges.members, merges.sorted, merges.several, slot, found,
      ?_, ?_, free, ?_⟩
    · exact same.state.slot.trans advanced
    · exact same.active.trans active
    · exact fun version => (same.state.traces version).trans (traces version)

/-- Of the variables that some path looked at all but the pending ones are joined. -/
structure JoinedBut (paths : List Scope) (before : Site) (pending : List VarId) (after : Site) : Prop where
  label : after.scope.label = before.scope.label
  done : ∀ var ∈ Scope.varsOf paths, var ∉ pending → JoinedAt paths var before after
  waiting : ∀ var, var ∈ pending ∨ var ∉ Scope.varsOf paths →
    after.scope.active[var]? = none ∧ before.analysis.SameAt var after.analysis
  seen : ∀ var ∈ pending, var ∈ Scope.varsOf paths
  nodup : pending.Nodup
  only : before.analysis.LogOnly after.analysis

/-- One variable is joined, and the others are left alone. -/
structure JoinedAlone (paths : List Scope) (var : VarId) (before after : Site) : Prop where
  label : after.scope.label = before.scope.label
  here : JoinedAt paths var before after
  beside : ∀ other, other ≠ var → before.SameAt other after
  only : before.analysis.LogOnly after.analysis

theorem sameAt_setVersion {site : Site} {analysis : Analysis} {other : VarId} {version : Version}
    (apart : other ≠ var) (state : site.analysis.SameAt other analysis) :
    site.SameAt other ⟨site.scope.setVersion var version, analysis⟩ :=
  ⟨by simp [Scope.getElem?_setVersion, apart], state⟩

theorem gives_joinVersions (site : Site) (some : paths ≠ []) (var : VarId) :
    Gives (joinVersions var (Scope.versionsOf paths var)) site fun _ after =>
      JoinedAlone paths var site after := by
  have sorted := Scope.versionsOf_sorted paths var
  have nonempty := Scope.versionsOf_ne_nil some var
  have members (version : Version) : version ∈ Scope.versionsOf paths var ↔ _ :=
    Scope.mem_versionsOf
  revert sorted nonempty members
  generalize Scope.versionsOf paths var = versions
  intro sorted nonempty members
  unfold Gives joinVersions
  split
  · rename_i version
    rw [ends_setVersion]
    have agree : ∀ path ∈ paths, path.versionOf var = version :=
      fun path mem => List.mem_singleton.1 ((members _).2 ⟨path, mem, rfl⟩)
    exact {
      label := rfl
      here := Or.inl ⟨version, agree, by simp [Scope.getElem?_setVersion], .refl _ _⟩
      beside := fun other apart => sameAt_setVersion apart (.refl _ _)
      only := .refl _ }
  · rename_i several
    have two := Scope.two_le_length_of_several nonempty several
    have found :
        Gives (versions.forM fun version => discard <|
          (liftM (Traces.find ⟨var, version⟩) : SiteM Trace)) site
        fun _ after => after = site := by
      refine ends_forM (fun _ after => after = site) ?_ rfl
      rintro version pending _ rfl
      rw [ends_discard, ends_liftTracesSite, Traces.ends_find]
      exact ⟨fun _ _ => rfl, fun _ => trivial⟩
    refine found.bind ?_
    rintro _ _ rfl
    unfold Gives
    rw [ends_bind, ends_liftAnalysis]
    refine (Analysis.gives_recordNext _ var (.joined versions)).mono ?_
    intro version state recorded
    rw [ends_setVersion]
    obtain ⟨slot, found, rfl, advanced⟩ := recorded.slot
    exact {
      label := rfl
      here := Or.inr
        ⟨versions, members, sorted, two, slot, found, advanced, by simp [Scope.getElem?_setVersion],
        recorded.free, recorded.traces⟩
      beside := fun other apart => sameAt_setVersion apart (recorded.beside other apart)
      only := recorded.only }

/-- The next pending variable is joined. -/
theorem JoinedBut.step {pending : List VarId}
    (joined : JoinedBut paths before (var :: pending) middle)
    (alone : JoinedAlone paths var middle after) : JoinedBut paths before pending after := by
  obtain ⟨fresh, nodup⟩ := List.nodup_cons.1 joined.nodup
  have seen := joined.seen var (by simp)
  have untouched := (joined.waiting var (.inl (by simp))).2
  constructor
  · exact alone.label.trans joined.label
  · intro other known waits
    by_cases same : other = var
    · subst same
      rcases alone.here with ⟨version, goes⟩ | ⟨sources, merges⟩
      · exact .inl ⟨version, goes.agree, goes.active, untouched.trans goes.state⟩
      · obtain ⟨slot, found, advanced, active, free, traces⟩ := merges.merged
        refine .inr ⟨sources, merges.members, merges.sorted, merges.several, slot, ?_,
          advanced, active, ?_, ?_⟩
        · exact untouched.slot.symm.trans found
        · exact (untouched.traces _).symm.trans free
        · intro version
          rw [traces, untouched.traces]
    · exact (joined.done other known (by simp [same, waits])).later (alone.beside other same)
  · intro other waits
    have apart : other ≠ var := by
      rintro rfl
      exact waits.elim fresh fun unknown => unknown seen
    obtain ⟨absent, old⟩ := joined.waiting other (waits.imp_left (by simp [·]))
    have same := alone.beside other apart
    exact ⟨same.active.trans absent, old.trans same.state⟩
  · exact fun other mem => joined.seen other (by simp [mem])
  · exact nodup
  · exact joined.only.trans alone.only

/-- When none is pending any more, the paths are joined. -/
theorem JoinedBut.exactly (joined : JoinedBut paths before [] after) :
    JoinedExactly paths before after := by
  have known {var : VarId} : var ∈ Scope.varsOf paths ↔ ∃ path ∈ paths, var ∈ path.active := by
    simp only [Scope.mem_varsOf, Scope.activeVars, Std.ExtTreeMap.mem_keys]
  have held {var : VarId} (at_ : JoinedAt paths var before after) : var ∈ after.scope.active := by
    rw [Std.ExtTreeMap.mem_iff_isSome_getElem?]
    rcases at_ with ⟨version, goes⟩ | ⟨sources, merges⟩
    · rw [goes.active]
      rfl
    · obtain ⟨slot, -, -, active, -⟩ := merges.merged
      rw [active]
      rfl
  constructor
  · exact joined.label
  · intro var
    constructor
    · intro active
      refine known.1 (Classical.byContradiction fun unknown => ?_)
      rw [Std.ExtTreeMap.mem_iff_isSome_getElem?, (joined.waiting var (.inr unknown)).1] at active
      cases active
    · exact fun seen => held (joined.done var (known.2 seen) (by simp))
  · exact fun var seen => joined.done var (known.2 seen) (by simp)
  · exact fun var unseen => (joined.waiting var (.inr fun seen => unseen (known.1 seen))).2
  · exact joined.only

/-- A join of several paths that succeeds joins them exactly. -/
theorem gives_join_exactly (site : Site) (two : 2 ≤ paths.length) :
    Gives (join paths) site fun _ after => JoinedExactly paths site after := by
  have some : paths ≠ [] := List.ne_nil_of_length_pos (by omega)
  have start : JoinedBut paths site (Scope.varsOf paths)
      { site with scope := .fresh site.scope.label } := {
    label := rfl
    done := fun var known waits => absurd known waits
    waiting := fun var _ => ⟨by simp [Scope.fresh], .refl _ _⟩
    seen := fun var mem => mem
    nodup := Scope.nodup_varsOf paths
    only := .refl _ }
  unfold Gives
  rw [join_of_two two, ends_bind, ends_modify]
  refine (ends_forM (JoinedBut paths site) ?_ start).mono (fun _ _ joined => joined.exactly)
    fun _ _ fell => fell
  intro var pending middle joined
  exact (gives_joinVersions middle some var).mono fun _ after alone => joined.step alone

/-- A join of several paths starts over from an empty scope. -/
theorem join_fresh (scope : Scope) (state : Analysis) (two : 2 ≤ paths.length) :
    join paths ⟨scope, state⟩ = join paths ⟨.fresh scope.label, state⟩ := by
  rw [join_of_two two]
  rfl

end Site

namespace Session

/-- The join of several paths, exactly. In every state that a session reaches, at every scope, two
or more scopes of recorded versions can be joined. The scope holds then the variables that some path
looked at: at the version of all paths, or else at one new version that may be any of theirs;
nothing else was changed. Whichever list of the same paths is joined, and in whichever orders the
join walks over their maps, it ends at the same scope and state. -/
theorem join_exactly (vars : Variables) (options : Options) (ops : List Op) (scope : Scope) (paths : List Scope)
    (two : 2 ≤ paths.length) (backed : ∀ path ∈ paths, path.Backed ((start vars options).run ops).state.traces) :
    ∃ after, Site.join paths ⟨scope, ((start vars options).run ops).state⟩ = .ok ⟨⟩ after ∧
      Site.JoinedExactly paths ⟨scope, ((start vars options).run ops).state⟩ after ∧
      ∀ others : List Scope, 2 ≤ others.length → (∀ path, path ∈ others ↔ path ∈ paths) →
        Site.join others ⟨scope, ((start vars options).run ops).state⟩ = .ok ⟨⟩ after ∧
        ∀ orders : Orders others,
          Site.joinInOrder orders ⟨scope, ((start vars options).run ops).state⟩ = .ok ⟨⟩ after := by
  have sound := ((sound_start vars options).run ops).state
  have site : Site.Sound ⟨.fresh scope.label, ((start vars options).run ops).state⟩ := ⟨sound, Scope.backed_fresh _ _⟩
  have some : paths ≠ [] := List.ne_nil_of_length_pos (by omega)
  obtain ⟨_, after, joined, -⟩ := (Site.ends_join site some backed).exists_ok
  rw [← Site.join_fresh scope _ two] at joined
  have exactly := (Site.gives_join_exactly ⟨scope, ((start vars options).run ops).state⟩ two).of_ok joined
  refine ⟨after, joined, exactly, fun others twoOthers same => ?_⟩
  have again : Site.join others = Site.join paths := Site.join_congr two twoOthers same
  constructor
  · rw [again, joined]
  · intro orders
    rw [Site.joinInOrder_eq twoOthers orders, again, joined]

/-- A local `x` and a parameter `c`; versions of both were handed out before. -/
def armVars : Variables := ⟨#[⟨"x", .localSlot, false, 2⟩, ⟨"c", .parameter, false, 1⟩]⟩

/-- Two arms: one assigns `x`, the other only looks at `c`. -/
def armOps : List Op :=
  [.openScope "yes", .openScope "no", .atScope 0 (.assign 0 7), .atScope 1 (.look 1)]

/-- Both arms can be joined: `x` goes on at a new version, and `c` at its entry version. -/
theorem arms_joined :
    2 ≤ ((start armVars {}).run armOps).scopes.length ∧
      (∀ path ∈ ((start armVars {}).run armOps).scopes, path.Backed ((start armVars {}).run armOps).state.traces) ∧
      ∃ after, Site.join ((start armVars {}).run armOps).scopes ⟨.fresh "root", ((start armVars {}).run armOps).state⟩ = .ok ⟨⟩ after ∧
        Site.JoinedExactly ((start armVars {}).run armOps).scopes ⟨.fresh "root", ((start armVars {}).run armOps).state⟩ after := by
  have two : 2 ≤ ((start armVars {}).run armOps).scopes.length := by decide
  have backed := ((sound_start armVars {}).run armOps).scopes
  obtain ⟨after, joined, exactly, -⟩ := join_exactly armVars {} armOps (.fresh "root") _ two backed
  exact ⟨two, backed, after, joined, exactly⟩

end Session

end ValueFlow
