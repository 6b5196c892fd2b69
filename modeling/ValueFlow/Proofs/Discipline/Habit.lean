import ValueFlow.Proofs.Integrity.Join
import ValueFlow.Scope.Escape

/-!
# Habits

A habit relates the state behind an operation to the state before it, wherever the operation ended,
and asks nothing of either state. If the few operations that touch the log and the counters keep a
habit, then so does everything that is done at a scope short of an exit and a walk. With a word on
exits and on the registries around a construct, it is then a discipline of all walks
(`Analysis.IdleHabit.law`).

Habits differ in the records that they have to put up with. All of them put up with what is recorded
where a variable is neither read nor written: an unknown version, and a join of recorded ones
(`Analysis.IdleHabit`). A working habit puts up with all that is recorded by an operation
(`Analysis.WorkingHabit`), and a quiet one with whatever binds no variable (`Analysis.QuietHabit`).
No record at all breaks an `Analysis.Habit`.
-/

namespace ValueFlow
set_option autoImplicit false

/-- Wherever the computation ends, its last state is related to its first one. -/
def Analysis.Keeps (related : Analysis → Analysis → Prop) {α : Type} (act : AnalysisM α) : Prop :=
  ∀ state, Ends act state (fun _ after => related state after) fun _ after => related state after

/-- Wherever the computation at a scope ends, its last state is related to its first one. -/
def Site.Keeps (related : Analysis → Analysis → Prop) {α : Type} (act : SiteM α) : Prop :=
  ∀ site, Ends act site (fun _ after => related site.analysis after.analysis) fun _ after => related site.analysis after.analysis

/-- Wherever the record of an entry state ends, either nothing was recorded, or the entry version of
the variable was. -/
theorem Analysis.ends_recordEntry_of {state : Analysis} {var : VarId} {holds : Analysis → Prop}
    (same : holds state)
    (recorded : ∀ slot, state.vars.get? var = some slot →
      (⟨var, .entry⟩ : TraceKey) ∉ state.traces →
      holds { state with
        traces := state.traces.insert ⟨var, .entry⟩ (.ofOrigin (entryOrigin slot.storage)) }) :
    Ends (recordEntry var) state (fun _ => holds) fun _ => holds := by
  unfold recordEntry lookup
  rw [ends_bind, ends_bind, ends_get]
  split
  · rename_i slot found
    rw [ends_pure, ends_liftTraces, Traces.ends_record]
    exact ⟨recorded slot found, fun _ => same⟩
  · exact same

/-- Wherever the record of a new version ends, either nothing was done, or a version was handed out.
It was recorded too, if it had no trace before. -/
theorem Analysis.ends_recordNext_of {state : Analysis} {var : VarId} {origin : Origin}
    {holds : Analysis → Prop} (same : holds state)
    (handed : ∀ version vars, state.vars.allocate? var = some (version, vars) →
      holds { state with vars } ∧
      ((⟨var, version⟩ : TraceKey) ∉ state.traces →
        holds { state with
          vars, traces := state.traces.insert ⟨var, version⟩ (.ofOrigin origin) })) :
    Ends (recordNext var origin) state (fun _ => holds) fun _ => holds := by
  unfold recordNext allocate
  rw [ends_bind, ends_bind, ends_get]
  split
  · rename_i version vars allocated
    rw [ends_bind, ends_modify, ends_pure, ends_bind, ends_liftTraces, Traces.ends_record]
    exact ⟨(handed version vars allocated).2, fun _ => (handed version vars allocated).1⟩
  · exact same

section Notes

variable {related : Analysis → Analysis → Prop}
  (same : ∀ {state : Analysis} {traces : Traces}, state.traces.SameOrigins traces → related state { state with traces })
  (key : TraceKey)

include same

/-- Where only origins count, notes of use are no concern. -/
theorem Analysis.keeps_noteRead : Keeps related (Traces.noteRead key : AnalysisM Unit) :=
  fun _ => ends_liftTraces.2
    (Traces.ends_noteRead.mono (fun _ _ => same) fun _ _ fell => same fell.1)

theorem Analysis.keeps_annotate (note : Trace → Trace)
    (origin : ∀ trace, (note trace).origin = trace.origin) :
    Keeps related (Traces.annotate key note : AnalysisM Unit) :=
  fun _ => ends_liftTraces.2
    ((Traces.ends_annotate note origin).mono (fun _ _ => same) fun _ _ fell => same fell.1)

theorem Analysis.keeps_noteRelease : Keeps related (Traces.noteRelease key : AnalysisM Unit) :=
  keeps_annotate same key ({ · with released := true }) fun _ => rfl

theorem Analysis.keeps_noteEscape : Keeps related (Traces.noteEscape key : AnalysisM Unit) :=
  keeps_annotate same key ({ · with escaped := true }) fun _ => rfl

end Notes

/-- What the operations on the log and the counters owe to a habit of all that neither writes a
variable nor counts a read. -/
structure Analysis.IdleHabit (related : Analysis → Analysis → Prop) : Prop where
  refl : ∀ state, related state state
  trans : ∀ {first second third}, related first second → related second third → related first third
  recordEntry : ∀ var, Keeps related (recordEntry var)
  recordUnknown : ∀ var previous, Keeps related (recordNext var (.unknown (some previous)))
  /-- A join is recorded only if it has sources, and if they are recorded. -/
  recordJoined : ∀ {var sources state}, sources ≠ [] → (∀ source ∈ sources, (⟨var, source⟩ : TraceKey) ∈ state.traces) →
    Ends (recordNext var (.joined sources)) state (fun _ after => related state after) fun _ after => related state after
  noteRelease : ∀ key, Keeps related (Traces.noteRelease key : AnalysisM Unit)
  noteEscape : ∀ key, Keeps related (Traces.noteEscape key : AnalysisM Unit)

/-- What they owe to a habit of all operations. -/
structure Analysis.WorkingHabit (related : Analysis → Analysis → Prop) : Prop extends Analysis.IdleHabit related where
  recordPlain : ∀ var origin, (∀ sources, origin ≠ .joined sources) → Keeps related (recordNext var origin)
  noteRead : ∀ key, Keeps related (Traces.noteRead key : AnalysisM Unit)
  recordUnknown := fun var _ => recordPlain var _ nofun

/-- What they owe to a habit of all that neither binds a variable nor counts a read. -/
structure Analysis.QuietHabit (related : Analysis → Analysis → Prop) : Prop extends Analysis.IdleHabit related where
  recordQuiet : ∀ var origin, origin.assignedBy? = none → Keeps related (recordNext var origin)
  recordUnknown := fun var _ => recordQuiet var _ rfl
  recordJoined := fun {var _ state} _ _ => recordQuiet var _ rfl state

/-- What they owe to a habit that no record breaks. -/
structure Analysis.Habit (related : Analysis → Analysis → Prop) : Prop extends Analysis.QuietHabit related, Analysis.WorkingHabit related where
  recordNext : ∀ var origin, Keeps related (recordNext var origin)
  recordQuiet := fun var origin _ => recordNext var origin
  recordPlain := fun var origin _ => recordNext var origin

namespace Site.Keeps

variable {related : Analysis → Analysis → Prop} {α β : Type} {act : SiteM α}

theorem lift {act : AnalysisM α} (keeps : Analysis.Keeps related act) :
    Keeps related (liftM act : SiteM α) :=
  fun site => ends_liftAnalysis.2 (keeps site.analysis)

theorem discard (first : Keeps related act) : Keeps related (Functor.discard act) :=
  fun site => ends_discard.2 (first site)

theorem get_bind {next : Site → SiteM β} (rest : ∀ site, Keeps related (next site)) :
    Keeps related (get >>= next) :=
  fun site => ends_bind.2 (ends_get.2 (rest site site))

theorem scopeHere_bind {next : Scope → SiteM β} (rest : ∀ scope, Keeps related (next scope)) :
    Keeps related (scopeHere >>= next) :=
  fun site => rest site.scope site

end Site.Keeps

/-- Looking up versions changes nothing, and ends well only if all of them are recorded. -/
theorem Site.ends_findAll (var : VarId) (versions : List Version) (site : Site) :
    Ends (versions.forM fun version => discard <|
      (liftM (Traces.find ⟨var, version⟩) : SiteM Trace)) site
      (fun _ after => after = site ∧ ∀ version ∈ versions,
        (⟨var, version⟩ : TraceKey) ∈ site.analysis.traces) fun _ after => after = site := by
  induction versions with
  | nil => exact ⟨rfl, nofun⟩
  | cons version rest ih =>
    refine ends_bind.2
      (ends_discard.2
        (ends_liftTracesSite.2 (Traces.ends_find.2 ⟨fun trace found => ?_, fun _ => rfl⟩)))
    have recorded := Traces.mem_of_origin? (Traces.origin?_eq_of_find found)
    exact ih.mono (fun _ _ told => ⟨told.1, List.forall_mem_cons.2 ⟨recorded, told.2⟩⟩)
      fun _ _ same => same

namespace Analysis.IdleHabit

variable {related : Analysis → Analysis → Prop} (habit : Analysis.IdleHabit related)

include habit

section Composition

variable {α β : Type} {act : SiteM α}

theorem pure (value : α) : Site.Keeps related (Pure.pure value : SiteM α) :=
  fun site => ends_pure.2 (habit.refl site.analysis)

theorem throw (fault : Fault) : Site.Keeps related (MonadExcept.throw fault : SiteM α) :=
  fun site => ends_throw.2 (habit.refl site.analysis)

theorem bind {next : α → SiteM β} (first : Site.Keeps related act)
    (rest : ∀ value, Site.Keeps related (next value)) :
    Site.Keeps related (act >>= next) :=
  fun site => ends_bind.2
    ((first site).mono
      (fun value middle early => (rest value middle).mono (fun _ _ late => habit.trans early late)
        fun _ _ late => habit.trans early late) fun _ _ kept => kept)

/-- Scopes are no concern of a habit. -/
theorem setScope (change : Scope → Scope) :
    Site.Keeps related (modify fun site => { site with scope := change site.scope } : SiteM Unit) :=
  fun site => ends_modify.2 (habit.refl site.analysis)

theorem forM {f : α → SiteM PUnit} (each : ∀ value, Site.Keeps related (f value)) (list : List α) :
    Site.Keeps related (list.forM f) := by
  induction list with
  | nil => exact habit.pure _
  | cons head tail ih => exact habit.bind (each head) fun _ => ih

end Composition

theorem find (key : TraceKey) : Site.Keeps related (liftM (Traces.find key) : SiteM Trace) := by
  intro site
  rw [ends_liftTracesSite, Traces.find, ends_bind, ends_get]
  split
  · exact habit.refl site.analysis
  · exact habit.refl site.analysis

theorem lookup (var : VarId) :
    Site.Keeps related (liftM (Analysis.lookup var) : SiteM Variable) := by
  intro site
  rw [ends_liftAnalysis, Analysis.lookup, ends_bind, ends_get]
  split
  · exact habit.refl site.analysis
  · exact habit.refl site.analysis

theorem setVersion (var : VarId) (version : Version) :
    Site.Keeps related (Site.setVersion var version) :=
  habit.setScope (·.setVersion var version)

theorem currentVersion (var : VarId) : Site.Keeps related (Site.currentVersion var) := by
  refine .get_bind fun site => ?_
  split
  · exact habit.pure _
  · have entered : Site.Keeps related
        (Site.setVersion var .entry >>= fun _ => Pure.pure Version.entry) :=
      habit.bind (habit.setVersion var .entry) fun _ => habit.pure _
    split
    · exact habit.bind (.lift (habit.recordEntry var)) fun _ => entered
    · exact entered

theorem currentKey (var : VarId) : Site.Keeps related (Site.currentKey var) :=
  habit.bind (habit.currentVersion var) fun _ => habit.pure _

theorem currentTrace (var : VarId) : Site.Keeps related (Site.currentTrace var) :=
  habit.bind (habit.currentKey var) fun key => habit.bind (habit.find key) fun _ => habit.pure _

/-- A write keeps the habit if recording its version does. -/
theorem writeOf (var : VarId) {origin : Version → Origin}
    (records : ∀ previous, Analysis.Keeps related (Analysis.recordNext var (origin previous))) :
    Site.Keeps related (Site.write var origin) :=
  habit.bind (habit.currentVersion var) fun previous =>
    habit.bind (.lift (records previous)) fun version =>
      habit.bind (habit.setVersion var version) fun _ => habit.pure _

/-- So does a delete. -/
theorem deleteOf (var : VarId)
    (records : ∀ previous,
      Analysis.Keeps related (Analysis.recordNext var (.unbound (some previous)))) :
    Site.Keeps related (Site.delete var) :=
  habit.bind (habit.writeOf var records) fun _ => habit.pure _

theorem readOf (var : VarId)
    (reads : ∀ key, Analysis.Keeps related (Traces.noteRead key : AnalysisM Unit)) :
    Site.Keeps related (Site.read var) :=
  habit.bind (habit.currentKey var) fun key => .lift (reads key)

theorem forget (var : VarId) : Site.Keeps related (Site.forget var) :=
  habit.bind (habit.writeOf var (habit.recordUnknown var)) fun _ => habit.pure _

theorem release (var : VarId) : Site.Keeps related (Site.release var) :=
  habit.bind (habit.currentKey var) fun key => habit.bind (.lift (habit.noteRelease key))
    fun _ => habit.pure _

theorem contentEscapes (var : VarId) : Site.Keeps related (Site.contentEscapes var) :=
  habit.bind (habit.currentKey var) fun key => .lift (habit.noteEscape key)

theorem escape (var : VarId) : Site.Keeps related (Site.escape var) := by
  refine habit.bind (habit.lookup var) fun slot => .get_bind fun site => ?_
  split
  · exact .discard (habit.forget var)
  · exact habit.pure _

theorem escapeAll : Site.Keeps related Site.escapeAll :=
  .scopeHere_bind fun scope => habit.forM habit.escape scope.activeVars

theorem forgetAll (vars : List VarId) : Site.Keeps related (Site.forgetAll vars) :=
  habit.forM (fun var => .discard (habit.forget var)) vars

theorem joinVersions (var : VarId) {versions : List Version} (some : versions ≠ []) :
    Site.Keeps related (Site.joinVersions var versions) := by
  intro site
  unfold Site.joinVersions
  split
  · exact habit.setVersion var _ site
  · refine ends_bind.2 ((Site.ends_findAll var versions site).mono ?_ ?_)
    · rintro _ _ ⟨rfl, recorded⟩
      refine ends_bind.2
        (ends_liftAnalysis.2 ((habit.recordJoined some recorded).mono (fun version after kept => ?_)
            fun _ _ kept => kept))
      exact ends_modify.2 kept
    · rintro _ _ rfl
      exact habit.refl _

theorem join (paths : List Scope) : Site.Keeps related (Site.join paths) := by
  unfold Site.join
  split
  · exact habit.throw _
  · exact habit.setScope (·.adopt _)
  · rename_i some _
    exact habit.bind (habit.setScope fun scope => .fresh scope.label) fun _ =>
      habit.forM (fun var => habit.joinVersions var (Scope.versionsOf_ne_nil some var)) _

theorem joinArms (yes no : Option Scope) : Site.Keeps related (Site.joinArms yes no) := by
  cases yes with
  | none =>
    cases no with
    | none => exact habit.pure _
    | some path => exact .scopeHere_bind fun scope => habit.join [scope, path]
  | some path =>
    cases no with
    | none => exact .scopeHere_bind fun scope => habit.join [scope, path]
    | some other => exact habit.join [path, other]

end Analysis.IdleHabit

/-- A discipline that asks only for the growth of states owes to its law the habit, a word on reads,
and one on the writes that its region allows. -/
theorem Analysis.IdleHabit.law {D : Discipline} (habit : Analysis.IdleHabit D.grows)
    (reads : ∀ key, Analysis.Keeps D.grows (Traces.noteRead key : AnalysisM Unit))
    (writes : ∀ {var origin}, D.region.writes var → Origin.IsWrite origin → ∀ previous,
      Analysis.Keeps D.grows (Analysis.recordNext var (origin previous)))
    (good : ∀ scope state, D.good scope state) (fault : ∀ fault, D.fault fault)
    (behind : ∀ {before after} caught, D.grows (before.inside caught) after →
      D.grows before (after.behind caught before.exits))
    (unseen : ∀ {state edits dynamicNames}, D.grows state { state with edits, dynamicNames })
    (exit : ∀ {state : Analysis} {kind snapshots} (scope : Scope),
      state.exits.get kind = some snapshots →
      D.grows state (state.withSnapshots kind (snapshots ++ [scope]))) :
    D.Law := by
  have obeys {α : Type} {act : SiteM α} (keeps : Site.Keeps D.grows act) : D.Obeys .ofSite act :=
    fun site _ => (keeps site).mono (fun _ after grows => ⟨⟨⟨good _ _, trivial⟩, grows⟩, trivial⟩)
      fun _ after grows => ⟨⟨⟨good _ _, trivial⟩, grows⟩, fault _⟩
  exact {
    refl := habit.refl
    trans := habit.trans
    carry := fun _ _ _ => good _ _
    fork := fun _ _ => good _ _
    inside := fun _ _ => good _ _
    behind := fun caught _ _ grows => ⟨good _ _, behind caught grows⟩
    unseen := fun _ _ _ => ⟨good _ _, unseen⟩
    current := fun var => obeys (habit.currentVersion var)
    write := fun var origin allowed isWrite => obeys (habit.writeOf var (writes allowed isWrite))
    escape := fun _ var => obeys (habit.escape var)
    read := fun var => obeys (habit.readOf var reads)
    release := fun var => obeys (habit.release var)
    delete := fun var site allowed ready =>
      (obeys (habit.deleteOf var (writes allowed Origin.isWrite_unbound)) site ready).mono
      fun _ _ _ _ _ _ => fault _
    join := fun paths site _ ready _ => obeys (habit.join paths) site ready
    exit := by
      intro kind
      refine obeys
        (.scopeHere_bind fun scope site =>
          ends_liftAnalysis.2 ((Analysis.ends_recordExit scope).mono ?_ ?_))
      · rintro _ after (⟨snapshots, opened, rfl⟩ | ⟨-, -, rfl⟩)
        · exact exit _ opened
        · exact habit.refl _
      · rintro fault after ⟨-, rfl, -⟩
        exact habit.refl _
    breaks := fun _ _ _ _ _ _ _ _ => good _ _
    unregistered := fun _ => fault _
    wrongShape := fun _ _ => fault _
    cyclicNesting := fun _ => fault _
    within := fun _ _ => fault _ }

namespace Analysis.WorkingHabit

variable {related : Analysis → Analysis → Prop} (habit : Analysis.WorkingHabit related)

include habit

theorem assign (var : VarId) (node : NodeId) : Site.Keeps related (Site.assign var node) :=
  habit.bind (habit.writeOf var fun _ => habit.recordPlain var _ nofun) fun _ => habit.pure _

theorem delete (var : VarId) : Site.Keeps related (Site.delete var) :=
  habit.deleteOf var fun _ => habit.recordPlain var _ nofun

theorem read (var : VarId) : Site.Keeps related (Site.read var) := habit.readOf var habit.noteRead

end Analysis.WorkingHabit

/-- A discipline that asks only for the growth of states owes to its law little more than the
habit. -/
theorem Analysis.WorkingHabit.law {D : Discipline} (habit : Analysis.WorkingHabit D.grows)
    (good : ∀ scope state, D.good scope state) (fault : ∀ fault, D.fault fault)
    (behind : ∀ {before after} caught, D.grows (before.inside caught) after →
      D.grows before (after.behind caught before.exits))
    (unseen : ∀ {state edits dynamicNames}, D.grows state { state with edits, dynamicNames })
    (exit : ∀ {state : Analysis} {kind snapshots} (scope : Scope),
      state.exits.get kind = some snapshots →
      D.grows state (state.withSnapshots kind (snapshots ++ [scope]))) :
    D.Law :=
  habit.toIdleHabit.law habit.noteRead
    (fun _ isWrite previous => habit.recordPlain _ _ (isWrite.plain previous)) good fault
    behind unseen exit

namespace Analysis.QuietHabit

variable {related : Analysis → Analysis → Prop} (habit : Analysis.QuietHabit related)

include habit

theorem delete (var : VarId) : Site.Keeps related (Site.delete var) :=
  habit.deleteOf var fun _ => habit.recordQuiet var _ rfl

/-- Two quiet habits are one. -/
theorem and {other : Analysis → Analysis → Prop} (also : Analysis.QuietHabit other) :
    Analysis.QuietHabit fun before after => related before after ∧ other before after where
  refl state := ⟨habit.refl state, also.refl state⟩
  trans early late := ⟨habit.trans early.1 late.1, also.trans early.2 late.2⟩
  recordEntry var state := (habit.recordEntry var state).and (also.recordEntry var state)
  recordQuiet var origin quiet state :=
    (habit.recordQuiet var origin quiet state).and (also.recordQuiet var origin quiet state)
  noteRelease key state := (habit.noteRelease key state).and (also.noteRelease key state)
  noteEscape key state := (habit.noteEscape key state).and (also.noteEscape key state)

/-- The quiet habit is one for a wider relation too. -/
theorem widen {wider : Analysis → Analysis → Prop}
    (wide : ∀ {before after}, related before after → wider before after)
    (trans : ∀ {first second third}, wider first second → wider second third → wider first third) :
    Analysis.QuietHabit wider where
  refl state := wide (habit.refl state)
  trans := trans
  recordEntry var state := (habit.recordEntry var state).mono (fun _ _ => wide) fun _ _ => wide
  recordQuiet var origin quiet state := (habit.recordQuiet var origin quiet state).mono
    (fun _ _ => wide) fun _ _ => wide
  noteRelease key state := (habit.noteRelease key state).mono (fun _ _ => wide) fun _ _ => wide
  noteEscape key state := (habit.noteEscape key state).mono (fun _ _ => wide) fun _ _ => wide

end Analysis.QuietHabit

/-- The habit is one for a wider relation too. -/
theorem Analysis.Habit.widen {related wider : Analysis → Analysis → Prop}
    (habit : Analysis.Habit related)
    (wide : ∀ {before after}, related before after → wider before after)
    (trans : ∀ {first second third}, wider first second → wider second third → wider first third) :
    Analysis.Habit wider where
  toQuietHabit := habit.toQuietHabit.widen wide trans
  recordNext var origin state := (habit.recordNext var origin state).mono
    (fun _ _ => wide) fun _ _ => wide
  noteRead key state := (habit.noteRead key state).mono (fun _ _ => wide) fun _ _ => wide

end ValueFlow
