import ValueFlow.Proofs.Discipline.Basic
import ValueFlow.Proofs.Integrity.Basic
import ValueFlow.Scope.Escape

/-!
# What looks and writes do to a sound site

A look enters a variable at the version it stands at and leaves the rest of the scope alone
(`Site.Looked`). A write records one version above the variable's counter and makes it current
(`Site.Wrote`). Both keep the site sound, and neither fails unless the variable is unregistered.
-/

namespace ValueFlow
set_option autoImplicit false

namespace Scope

@[simp] theorem setVersion_setVersion (scope : Scope) (var : VarId) (first second : Version) :
    (scope.setVersion var first).setVersion var second = scope.setVersion var second := by
  unfold setVersion
  congr 1
  apply Std.ExtTreeMap.ext_getElem?
  intro other
  simp only [Std.ExtTreeMap.getElem?_insert]
  split <;> rfl

theorem getElem?_setVersion (scope : Scope) (var other : VarId) (version : Version) :
    (scope.setVersion var version).active[other]? = if other = var then some version else
      scope.active[other]? := by
  simp only [setVersion, Std.ExtTreeMap.getElem?_insert]
  by_cases same : var = other
  · simp [same]
  · simp [same, Ne.symm same]

/-- A version that is current already may be made current. -/
theorem setVersion_of_active {scope : Scope} {var : VarId} {version : Version}
    (held : scope.active[var]? = some version) : scope.setVersion var version = scope := by
  unfold setVersion
  congr 1
  apply Std.ExtTreeMap.ext_getElem?
  intro other
  rw [Std.ExtTreeMap.getElem?_insert]
  split
  · rename_i same
    rw [← held, Std.LawfulEqCmp.eq_of_compare same]
  · rfl

theorem versionOf_of_active {scope : Scope} {var : VarId} {version : Version}
    (held : scope.active[var]? = some version) : scope.versionOf var = version := by
  simp [versionOf, held]

theorem Backed.setVersion {scope : Scope} {traces : Traces} (backed : scope.Backed traces)
    {var : VarId} {version : Version} (recorded : ⟨var, version⟩ ∈ traces) :
    (scope.setVersion var version).Backed traces := by
  intro other held active
  rw [getElem?_setVersion] at active
  split at active
  · rename_i same
    subst same
    rwa [← Option.some.inj active]
  · exact backed other held active

/-- Every variable that the older scope has looked at, the newer one has too. -/
def Within (older newer : Scope) : Prop := ∀ var ∈ older.active, var ∈ newer.active

theorem Within.refl (scope : Scope) : scope.Within scope := fun _ mem => mem

theorem Within.trans {older newer newest : Scope} (early : older.Within newer)
    (late : newer.Within newest) :
    older.Within newest :=
  fun var mem => late var (early var mem)

theorem within_setVersion (scope : Scope) (var : VarId) (version : Version) :
    scope.Within (scope.setVersion var version) := by
  intro other mem
  simp only [setVersion, Std.ExtTreeMap.mem_insert]
  exact .inr mem

theorem versionOf_of_not_mem {scope : Scope} {var : VarId} (free : var ∉ scope.active) :
    scope.versionOf var = .entry := by
  simp [versionOf, Std.ExtTreeMap.getElem?_eq_none free]

end Scope

/-- The state with other counters and another log, but with the same registries, notices and
options. -/
def Analysis.LogOnly (before after : Analysis) : Prop :=
  after = { before with vars := after.vars, traces := after.traces }

theorem Analysis.LogOnly.refl (state : Analysis) : state.LogOnly state := rfl

theorem Analysis.LogOnly.trans {first second third : Analysis} (early : first.LogOnly second)
    (late : second.LogOnly third) : first.LogOnly third := by
  unfold LogOnly at *
  rw [late, early]

theorem Analysis.LogOnly.exits {before after : Analysis} (only : before.LogOnly after) :
    after.exits = before.exits := by
  rw [only]

/-- Scopes that are parked stay sound while the log grows. -/
theorem Analysis.Sound.parked_of_grows {before after : Analysis} (sound : before.Sound)
    (traces : after.traces.Sound after.vars) (extends_ : before.traces.Extends after.traces)
    (exits : after.exits = before.exits) : after.Sound := by
  refine ⟨traces, fun kind snapshots open_ snapshot mem => ?_⟩
  rw [exits] at open_
  exact (sound.parked kind snapshots open_ snapshot mem).extend extends_

/-- A version above a variable's counter was recorded. -/
structure Analysis.Recorded (var : VarId) (origin : Origin) (version : Version) (before after : Analysis) : Prop where
  sound : after.Sound
  grows : before.Grows after
  logOnly : before.LogOnly after
  recorded : after.traces.origin? ⟨var, version⟩ = some origin
  free : (⟨var, version⟩ : TraceKey) ∉ before.traces
  next : ∃ slot, before.vars.get? var = some slot ∧ version = slot.lastVersion + 1 ∧
    after.vars.get? var = some { slot with lastVersion := version }

/-- The next version of a variable that was seen before can be recorded. -/
theorem Analysis.ends_recordNext {state : Analysis} (sound : state.Sound) {var : VarId}
    (origin : Origin) (seen : ∃ version, (⟨var, version⟩ : TraceKey) ∈ state.traces)
    (previous : ∀ previous ∈ origin.previous, (⟨var, previous⟩ : TraceKey) ∈ state.traces)
    (joined : ∀ sources, origin = .joined sources → sources.Pairwise (· < ·) ∧ 2 ≤ sources.length) :
    Ends (recordNext var origin) state
      (fun version after => state.Recorded var origin version after)
      (fun _ _ => False) := by
  obtain ⟨old, seen⟩ := seen
  obtain ⟨slot, found, -, -⟩ := sound.traces.entry _ seen
  unfold recordNext allocate
  rw [ends_bind, ends_bind, ends_get]
  cases allocated : state.vars.allocate? var with
  | none => exact absurd allocated (by simp [Variables.allocate?, found])
  | some answer =>
    obtain ⟨version, vars⟩ := answer
    obtain ⟨advances, held, foundHeld, above⟩ := Variables.advances_of_allocate? allocated
    obtain rfl := Option.some.inj (found.symm.trans foundHeld)
    have foundNew : vars.get? var = some { slot with lastVersion := version } := by
      simp [Variables.get?_of_allocate? allocated, found]
    have higher : slot.lastVersion < version := above ▸ Nat.lt_succ_self _
    have free := sound.traces.not_mem_of_last found higher
    dsimp only
    rw [ends_bind, ends_modify, ends_pure, ends_bind, ends_liftTraces, Traces.ends_record]
    refine ⟨fun _ => ?_, fun recorded => absurd recorded free⟩
    have extended : state.traces.Extends (state.traces.insert ⟨var, version⟩ (.ofOrigin origin)) :=
      .insert free
    have soundAfter := sound.traces.record advances found higher foundNew (Nat.le_refl _)
      ⟨_, seen⟩ previous joined
    exact {
      sound := sound.parked_of_grows soundAfter extended rfl
      grows := ⟨extended, .record free origin, advances, rfl, Nat.le_refl _⟩
      logOnly := rfl
      recorded := by simp [Traces.origin?_insert, Trace.ofOrigin]
      free := free
      next := ⟨slot, found, above, foundNew⟩ }

namespace Site

/-- A variable was looked at: it has entered the scope at the version at which it stood. -/
structure Looked (var : VarId) (before after : Site) : Prop where
  sound : after.Sound
  grows : before.analysis.Grows after.analysis
  scope : after.scope = before.scope.setVersion var (before.scope.versionOf var)
  logOnly : before.analysis.LogOnly after.analysis
  vars : after.analysis.vars = before.analysis.vars

/-- A variable was written: a version above its counter is recorded and current. -/
structure Wrote (var : VarId) (origin : Version → Origin) (version : Version) (before after : Site) : Prop where
  sound : after.Sound
  grows : before.analysis.Grows after.analysis
  scope : after.scope = before.scope.setVersion var version
  logOnly : before.analysis.LogOnly after.analysis
  recorded : after.analysis.traces.origin? ⟨var, version⟩ = some (origin (before.scope.versionOf var))
  free : (⟨var, version⟩ : TraceKey) ∉ before.analysis.traces
  next : ∃ slot, before.analysis.vars.get? var = some slot ∧ version = slot.lastVersion + 1 ∧
    after.analysis.vars.get? var = some { slot with lastVersion := version }

/-- The variable is not registered. That is the fault, and nothing was changed. -/
structure Refuses (site : Site) (var : VarId) (fault : Fault) (after : Site) : Prop where
  fault : fault = .unregistered var
  after : after = site
  absent : site.analysis.vars.get? var = none

variable {site : Site}

theorem Looked.recorded {var : VarId} {before after : Site} (looked : before.Looked var after) :
    (⟨var, before.scope.versionOf var⟩ : TraceKey) ∈ after.analysis.traces :=
  looked.sound.scope var _ (by simp [looked.scope, Scope.getElem?_setVersion])

/-- A look leaves every variable at the version at which it stood. -/
theorem Looked.versionOf {var : VarId} {before after : Site} (looked : before.Looked var after) :
    after.scope.versionOf = before.scope.versionOf := by
  funext other
  rw [looked.scope, Scope.versionOf_setVersion]
  split
  · rename_i same
    rw [same]
  · rfl

theorem ends_setVersion {var : VarId} {version : Version} {well : Unit → Site → Prop}
    {ill : Fault → Site → Prop} :
    Ends (setVersion var version) site well ill ↔
      well ⟨⟩ { site with scope := site.scope.setVersion var version } := Iff.rfl

/-- A look at an active variable changes nothing. -/
theorem Looked.of_active (sound : site.Sound) {var : VarId} {version : Version}
    (held : site.scope.active[var]? = some version) : site.Looked var site where
  sound := sound
  grows := .refl _
  scope := by rw [Scope.versionOf_of_active held, Scope.setVersion_of_active held]
  logOnly := .refl _
  vars := rfl

/-- The first look at a variable enters it at its recorded entry version. -/
theorem Looked.of_entry (sound : site.Sound) {var : VarId} {traces : Traces}
    (free : site.scope.active[var]? = none) (soundTraces : traces.Sound site.analysis.vars)
    (extends_ : site.analysis.traces.Extends traces) (uses : site.analysis.traces.Uses traces)
    (recorded : ⟨var, .entry⟩ ∈ traces) :
    site.Looked var
      { scope := site.scope.setVersion var .entry, analysis := { site.analysis with traces } } where
  sound := ⟨sound.analysis.parked_of_grows soundTraces extends_ rfl,
    (sound.scope.extend extends_).setVersion recorded⟩
  grows := ⟨extends_, uses, .refl _, rfl, Nat.le_refl _⟩
  scope := by simp [Scope.versionOf, free]
  logOnly := rfl
  vars := rfl

theorem ends_currentVersion (sound : site.Sound) (var : VarId) :
    Ends (currentVersion var) site
      (fun version after => version = site.scope.versionOf var ∧ site.Looked var after)
        (site.Refuses var) := by
  unfold currentVersion
  rw [ends_bind, ends_get]
  cases held : site.scope.active[var]? with
  | some version => exact ⟨(Scope.versionOf_of_active held).symm, .of_active sound held⟩
  | none =>
    have entry : Version.entry = site.scope.versionOf var := by simp [Scope.versionOf, held]
    dsimp only
    by_cases known : (⟨var, .entry⟩ : TraceKey) ∈ site.analysis.traces
    · rw [if_neg (by simp [known]), ends_bind, ends_setVersion]
      exact ⟨entry, .of_entry sound held sound.analysis.traces (.refl _) (.refl _) known⟩
    · have absent : site.analysis.traces.contains ⟨var, .entry⟩ = false :=
        Bool.eq_false_iff.2 fun held => known (Std.ExtTreeMap.contains_iff_mem.1 held)
      rw [if_pos (by simp [absent]), ends_bind, ends_liftAnalysis]
      unfold Analysis.recordEntry Analysis.lookup
      rw [ends_bind, ends_bind, ends_get]
      cases found : site.analysis.vars.get? var with
      | none => exact ⟨rfl, rfl, found⟩
      | some slot =>
        simp only [ends_pure]
        rw [ends_liftTraces, Traces.ends_record]
        refine ⟨fun _ => ?_, fun recorded => absurd recorded known⟩
        rw [ends_bind, ends_setVersion]
        exact ⟨entry, .of_entry sound held (sound.analysis.traces.recordEntry found known)
          (.insert known) (.record known _) (by simp)⟩

/-- A note on the current version of a variable is a look at it. -/
theorem ends_noted (sound : site.Sound) (var : VarId) {note : TraceKey → TracesM Unit}
    (notes : ∀ key (traces : Traces), traces.Linked → key ∈ traces →
      Ends (note key) traces (fun _ after => traces.SameOrigins after ∧ traces.Uses after)
      (fun _ _ => False)) :
    Ends (currentKey var >>= fun key => liftM (note key)) site
      (fun _ after => site.Looked var after) (site.Refuses var) := by
  unfold currentKey
  rw [ends_bind, ends_bind]
  refine (ends_currentVersion sound var).mono ?_ (fun _ _ fell => fell)
  rintro version after ⟨rfl, looked⟩
  rw [ends_pure, ends_liftTracesSite]
  refine (notes _ _ looked.sound.analysis.traces.linked looked.recorded).mono ?_
    (fun _ _ impossible => impossible.elim)
  rintro _ traces ⟨same, uses⟩
  have soundTraces := looked.sound.analysis.traces.advance (.refl _) same
  exact {
    sound := ⟨looked.sound.analysis.parked_of_grows soundTraces same.extends rfl,
      looked.sound.scope.extend same.extends⟩
    grows := looked.grows.trans ⟨same.extends, uses, .refl _, rfl, Nat.le_refl _⟩
    scope := looked.scope
    logOnly := looked.logOnly.trans rfl
    vars := looked.vars }

theorem ends_read (sound : site.Sound) (var : VarId) :
    Ends (read var) site (fun _ after => site.Looked var after) (site.Refuses var) :=
  ends_noted sound var fun _ _ linked mem =>
    (Traces.ends_noteRead.and_gives Traces.gives_noteRead).mono (fun _ _ told => ⟨told.1, told.2.1⟩)
    (fun _ _ fell => fell.2 linked mem)

/-- The read is counted at the version at which the variable stands. -/
theorem gives_read_counted (sound : site.Sound) (var : VarId) :
    Gives (read var) site fun _ after => after.analysis.traces.IsCounted
      ⟨var, site.scope.versionOf var⟩ := by
  unfold read currentKey
  refine ends_bind.2 (ends_bind.2 ((ends_currentVersion sound var).gives.mono ?_))
  rintro version middle ⟨rfl, -⟩
  exact ends_pure.2 (ends_liftTracesSite.2 (Traces.gives_noteRead.mono fun _ _ told => told.2))

theorem ends_contentEscapes (sound : site.Sound) (var : VarId) :
    Ends (contentEscapes var) site (fun _ after => site.Looked var after) (site.Refuses var) :=
  ends_noted sound var fun _ _ _ mem =>
    (Traces.ends_quietNote ({ · with escaped := true }) (fun _ => rfl) (fun _ => rfl) fun _ =>
      rfl).mono (fun _ _ told => told) (fun _ _ fell => fell mem)

theorem ends_release (sound : site.Sound) (var : VarId) :
    Ends (release var) site (fun _ after => site.Looked var after) (site.Refuses var) := by
  have noted := ends_noted sound var fun _ _ _ mem =>
    (Traces.ends_quietNote ({ · with released := true }) (fun _ => rfl) (fun _ => rfl) fun _ =>
      rfl).mono (fun _ _ told => told) (fun _ _ fell => fell mem)
  unfold release
  rw [ends_bind] at *
  refine noted.mono (fun key after looked => ?_) (fun _ _ fell => fell)
  rw [ends_bind]
  exact looked

/-- A write succeeds wherever its variable is registered. -/
theorem ends_write (sound : site.Sound) {origin : Version → Origin}
    (writes : Origin.IsWrite origin) (var : VarId) :
    Ends (write var origin) site
      (fun answer after => answer.1 = site.scope.versionOf var ∧
        site.Wrote var origin answer.2 after)
      (site.Refuses var) := by
  unfold write
  rw [ends_bind]
  refine (ends_currentVersion sound var).mono ?_ (fun _ _ fell => fell)
  rintro previous middle ⟨rfl, looked⟩
  rw [ends_bind, ends_liftAnalysis]
  refine (Analysis.ends_recordNext looked.sound.analysis _ ⟨_, looked.recorded⟩
    (by simpa [writes.previous] using looked.recorded) fun sources same =>
    absurd same (writes.plain _ sources)).mono ?_ (fun _ _ impossible => impossible.elim)
  intro version state step
  rw [ends_bind, ends_setVersion, ends_pure]
  refine ⟨rfl, ?_⟩
  exact {
    sound := ⟨step.sound, (looked.sound.scope.extend step.grows.traces).setVersion
      (Traces.mem_of_origin? step.recorded)⟩
    grows := looked.grows.trans step.grows
    scope := by simp [looked.scope]
    logOnly := looked.logOnly.trans step.logOnly
    recorded := step.recorded
    free := fun mem => step.free (looked.grows.traces.mem mem)
    next := looked.vars ▸ step.next }

theorem ends_forget (sound : site.Sound) (var : VarId) :
    Ends (forget var) site
      (fun version after => site.Wrote var (fun previous => .unknown (some previous)) version after)
      (site.Refuses var) := by
  unfold forget
  rw [ends_bind]
  exact (ends_write sound Origin.isWrite_unknown var).mono (fun _ _ told => told.2)
    (fun _ _ fell => fell)

/-- An escape forgets a variable that may be rebound, and does nothing to any other. -/
theorem ends_escape (sound : site.Sound) (var : VarId) :
    Ends (escape var) site
      (fun _ after => ∃ slot, site.analysis.vars.get? var = some slot ∧
        if slot.mayBeRebound site.analysis.options then
          ∃ version, site.Wrote var (fun previous => .unknown (some previous)) version after
        else after = site)
      (site.Refuses var) := by
  unfold escape Analysis.lookup
  rw [ends_bind, ends_liftAnalysis, ends_bind, ends_get]
  cases found : site.analysis.vars.get? var with
  | none => exact ⟨rfl, rfl, found⟩
  | some slot =>
    dsimp only
    rw [ends_pure, ends_bind, ends_get]
    by_cases rebound : slot.mayBeRebound site.analysis.options
    · rw [if_pos rebound, ends_discard]
      refine (ends_forget sound var).mono (fun version after wrote => ⟨slot, rfl, ?_⟩)
        (fun _ _ fell => fell)
      rw [if_pos rebound]
      exact ⟨version, wrote⟩
    · rw [if_neg rebound, ends_pure]
      exact ⟨slot, rfl, by rw [if_neg rebound]⟩

/-- Variables were forgotten, but for those that are pending. -/
structure Forgot (vars : List VarId) (before : Site) (pending : List VarId) (after : Site) : Prop where
  sound : after.Sound
  grows : before.analysis.Grows after.analysis
  logOnly : before.analysis.LogOnly after.analysis
  within : before.scope.Within after.scope
  listed : ∀ var ∈ pending, var ∈ vars
  done : ∀ var ∈ vars, var ∈ pending ∨ after.analysis.traces.IsUnknown var (after.scope.versionOf var)
  kept : ∀ var, var ∉ vars → after.scope.versionOf var = before.scope.versionOf var
  derives : ∀ var, after.analysis.traces.Derives var (after.scope.versionOf var) (before.scope.versionOf var)

theorem ends_forgetAll (sound : site.Sound) (vars : List VarId) :
    Ends (forgetAll vars) site (fun _ after => Forgot vars site [] after) (fun _ _ => True) := by
  have start : Forgot vars site vars site :=
    ⟨sound, .refl _, .refl _, .refl _, fun _ mem => mem, fun _ mem => .inl mem, fun _ _ => rfl,
      fun _ => .refl _⟩
  refine ends_forM (Forgot vars site) (fun var pending middle forgot => ?_) start
  rw [ends_discard]
  refine (ends_forget forgot.sound var).mono (fun version after wrote => ?_) (fun _ _ _ => trivial)
  have unknown : after.analysis.traces.IsUnknown var version := ⟨_, wrote.recorded⟩
  exact {
    sound := wrote.sound
    grows := forgot.grows.trans wrote.grows
    logOnly := forgot.logOnly.trans wrote.logOnly
    within := wrote.scope ▸ forgot.within.trans (Scope.within_setVersion _ _ _)
    listed := fun other mem => forgot.listed other (by simp [mem])
    kept := by
      intro other unlisted
      have apart : other ≠ var := by
        rintro rfl
        exact unlisted (forgot.listed other (by simp))
      rw [wrote.scope, Scope.versionOf_setVersion, if_neg apart, forgot.kept other unlisted]
    derives := by
      intro other
      have before := (forgot.derives other).extend wrote.grows.traces
      rw [wrote.scope, Scope.versionOf_setVersion]
      by_cases same : other = var
      · subst same
        rw [if_pos rfl]
        exact .step wrote.recorded rfl (List.mem_singleton_self _) before
      · rwa [if_neg same]
    done := by
      intro other mem
      rw [wrote.scope, Scope.versionOf_setVersion]
      by_cases same : other = var
      · subst same
        rw [if_pos rfl]
        exact .inr unknown
      · rw [if_neg same]
        rcases forgot.done other mem with waiting | old
        · exact .inl ((List.mem_cons.1 waiting).resolve_left same)
        · exact .inr (old.extend wrote.grows.traces) }

end Site

end ValueFlow
