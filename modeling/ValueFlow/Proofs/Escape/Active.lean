import ValueFlow.Proofs.Loop.Drift

/-!
# Where an escape reaches

An escape goes through the variables that a scope has looked at. Those of them that code elsewhere
may rebind are forgotten, and no trace that was recorded before is touched. A variable that the
scope has not looked at stays out of reach: it is entered at the next look, with what its storage
class tells of it on entry. So it resolves to an unknown trace if it was active, or if nothing is
known of its class on entry, and only then (`Site.Escaped`).
-/

namespace ValueFlow
set_option autoImplicit false

namespace Traces

variable {older newer newest : Traces} {key : TraceKey}

/-- Every trace of the older table stands in the newer one as it was, with its notes of use. -/
def Keeps (older newer : Traces) : Prop := ∀ (key : TraceKey) (trace : Trace), older[key]? = some trace → newer[key]? = some trace

theorem Keeps.refl (traces : Traces) : traces.Keeps traces := fun _ _ found => found

theorem Keeps.trans (early : older.Keeps newer) (late : newer.Keeps newest) : older.Keeps newest :=
  fun key trace found => late key trace (early key trace found)

/-- A record is made under a free key only. -/
theorem gives_record_keeps (origin : Origin) :
    Gives (record key origin) older fun _ newer => older.Keeps newer := by
  unfold Gives
  rw [ends_record]
  refine ⟨fun free other trace found => ?_, fun _ => trivial⟩
  have apart : other ≠ key := by
    rintro rfl
    exact free (Std.ExtTreeMap.mem_iff_isSome_getElem?.2 (by simp [found]))
  rw [getElem?_insert_trace, if_neg apart]
  exact found

end Traces

/-- A state that has grown rebinds what it did before. -/
theorem Analysis.Grows.mayRebind_iff {older newer : Analysis} (grows : older.Grows newer)
    {var : VarId} :
    newer.MayRebind var ↔ older.MayRebind var := by
  refine ⟨grows.mayRebind, ?_⟩
  rintro ⟨slot, found, rebound⟩
  obtain ⟨last, -, again⟩ := grows.vars.slot var slot found
  refine ⟨_, again, ?_⟩
  rw [grows.options]
  exact rebound

theorem Analysis.gives_recordNext_keeps (state : Analysis) (var : VarId) (origin : Origin) :
    Gives (recordNext var origin) state fun _ after => state.traces.Keeps after.traces := by
  unfold recordNext allocate Gives
  rw [ends_bind, ends_bind, ends_get]
  split
  · rw [ends_bind, ends_modify, ends_pure, ends_bind, ends_liftTraces]
    exact Traces.gives_record_keeps origin
  · trivial

namespace Site

variable {site before after : Site} {var : VarId}

/-- A look may record an entry state, and touches no trace that is there. -/
theorem gives_currentVersion_keeps (site : Site) (var : VarId) :
    Gives (currentVersion var) site fun _ after =>
      site.analysis.traces.Keeps after.analysis.traces := by
  unfold currentVersion Gives
  rw [ends_bind, ends_get]
  split
  · exact .refl _
  · split
    · rw [ends_bind, ends_liftAnalysis]
      unfold Analysis.recordEntry Analysis.lookup
      rw [ends_bind, ends_bind, ends_get]
      split
      · rw [ends_pure, ends_liftTraces]
        exact Traces.gives_record_keeps _
      · trivial
    · exact Traces.Keeps.refl _

theorem gives_write_keeps (site : Site) (var : VarId) (origin : Version → Origin) :
    Gives (write var origin) site fun _ after =>
      site.analysis.traces.Keeps after.analysis.traces := by
  refine (gives_currentVersion_keeps site var).bind fun previous looked early => ?_
  unfold Gives
  rw [ends_bind, ends_liftAnalysis]
  exact (Analysis.gives_recordNext_keeps looked.analysis var (origin previous)).mono fun _ _ late =>
    early.trans late

theorem gives_escape_keeps (site : Site) (var : VarId) :
    Gives (escape var) site fun _ after => site.analysis.traces.Keeps after.analysis.traces := by
  unfold escape Analysis.lookup Gives
  rw [ends_bind, ends_liftAnalysis, ends_bind, ends_get]
  split
  · rw [ends_pure, ends_bind, ends_get]
    split
    · rw [ends_discard]
      exact (gives_write_keeps site var _).bind fun _ _ keeps => keeps
    · exact Traces.Keeps.refl _
  · trivial

/-- Active variables escape, but for those that are pending, which stand where they stood. -/
structure Escaping (before : Site) (pending : List VarId) (after : Site) : Prop where
  sound : after.Sound
  grows : before.analysis.Grows after.analysis
  keeps : before.analysis.traces.Keeps after.analysis.traces
  active : ∀ var, var ∈ after.scope.active ↔ var ∈ before.scope.active
  listed : ∀ var ∈ pending, var ∈ before.scope.active
  nodup : pending.Nodup
  waiting : ∀ var ∈ pending, after.scope.versionOf var = before.scope.versionOf var
  done : ∀ var ∈ before.scope.active, before.analysis.MayRebind var → var ∈ pending ∨
    after.analysis.traces.origin? ⟨var, after.scope.versionOf var⟩ = some (.unknown (some (before.scope.versionOf var)))
  kept : ∀ var, ¬ before.analysis.MayRebind var → after.scope.versionOf var = before.scope.versionOf var

theorem Escaping.start (sound : site.Sound) : site.Escaping site.scope.activeVars site where
  sound := sound
  grows := .refl _
  keeps := .refl _
  active := fun _ => Iff.rfl
  listed := fun _ mem => Std.ExtTreeMap.mem_keys.1 mem
  nodup := Std.ExtTreeMap.nodup_keys
  waiting := fun _ _ => rfl
  done := fun _ mem _ => .inl (Std.ExtTreeMap.mem_keys.2 mem)
  kept := fun _ _ => rfl

/-- The next pending variable is forgotten. -/
theorem Escaping.forgets {pending : List VarId} {middle : Site}
    (escaping : before.Escaping (var :: pending) middle) (rebinds : before.analysis.MayRebind var)
    {version : Version}
    (wrote : middle.Wrote var (fun previous => .unknown (some previous)) version after)
    (keeps : middle.analysis.traces.Keeps after.analysis.traces) :
    before.Escaping pending after where
  sound := wrote.sound
  grows := escaping.grows.trans wrote.grows
  keeps := escaping.keeps.trans keeps
  active := by
    intro other
    rw [← escaping.active, wrote.scope, Scope.setVersion, Std.ExtTreeMap.mem_insert]
    have here := (escaping.active var).2 (escaping.listed var List.mem_cons_self)
    constructor
    · rintro (same | old)
      · rwa [← Std.LawfulEqCmp.eq_of_compare same]
      · exact old
    · exact .inr
  listed := fun other mem => escaping.listed other (List.mem_cons_of_mem _ mem)
  nodup := (List.nodup_cons.1 escaping.nodup).2
  waiting := by
    intro other mem
    have apart : other ≠ var := fun same => (List.nodup_cons.1 escaping.nodup).1 (same ▸ mem)
    rw [wrote.scope, Scope.versionOf_setVersion, if_neg apart,
      escaping.waiting other (List.mem_cons_of_mem _ mem)]
  done := by
    intro other mem rebound
    rw [wrote.scope, Scope.versionOf_setVersion]
    by_cases same : other = var
    · subst same
      rw [if_pos rfl, wrote.recorded, escaping.waiting other List.mem_cons_self]
      exact .inr rfl
    · rw [if_neg same]
      rcases escaping.done other mem rebound with waits | unknown
      · exact .inl ((List.mem_cons.1 waits).resolve_left same)
      · exact .inr (wrote.grows.traces _ _ unknown)
  kept := by
    intro other free
    have apart : other ≠ var := by
      rintro rfl
      exact free rebinds
    rw [wrote.scope, Scope.versionOf_setVersion, if_neg apart, escaping.kept other free]

/-- The next pending variable is out of reach of other code. -/
theorem Escaping.passes {pending : List VarId} {middle : Site}
    (escaping : before.Escaping (var :: pending) middle) (fixed : ¬ before.analysis.MayRebind var) :
    before.Escaping pending middle :=
  { escaping with
    listed := fun other mem => escaping.listed other (List.mem_cons_of_mem _ mem)
    nodup := (List.nodup_cons.1 escaping.nodup).2
    waiting := fun other mem => escaping.waiting other (List.mem_cons_of_mem _ mem)
    done := by
      intro other mem rebound
      refine (escaping.done other mem rebound).imp_left fun waits =>
        (List.mem_cons.1 waits).resolve_left ?_
      rintro rfl
      exact fixed rebound }

/-- The escape of a variable of the scope. -/
theorem Escaping.step {pending : List VarId} {middle : Site}
    (escaping : before.Escaping (var :: pending) middle) :
    Ends (escape var) middle (fun _ after => before.Escaping pending after) fun _ _ => False := by
  refine ((ends_escape escaping.sound var).and_gives (gives_escape_keeps middle var)).mono ?_ ?_
  · rintro _ after ⟨⟨slot, found, outcome⟩, keeps⟩
    split at outcome
    · rename_i rebound
      obtain ⟨version, wrote⟩ := outcome
      exact escaping.forgets (escaping.grows.mayRebind ⟨slot, found, rebound⟩) wrote keeps
    · rename_i fixed
      subst outcome
      refine escaping.passes fun rebinds => fixed ?_
      obtain ⟨again, foundAgain, rebound⟩ := escaping.grows.mayRebind_iff.2 rebinds
      rwa [Option.some.inj (found.symm.trans foundAgain)]
  · -- A variable of a sound scope is registered.
    rintro fault after refuses
    have here := (escaping.active var).2 (escaping.listed var List.mem_cons_self)
    obtain ⟨version, held⟩ := Scope.mem_activeVars.1 (Std.ExtTreeMap.mem_keys.2 here)
    obtain ⟨slot, found, -⟩ :=
      escaping.sound.analysis.traces.entry _ (escaping.sound.scope var version held)
    cases refuses.absent.symm.trans found

theorem ends_escapeAll (sound : site.Sound) :
    Ends escapeAll site (fun _ after => site.Escaping [] after) fun _ _ => False :=
  ends_forM site.Escaping (fun _ _ _ => Escaping.step) (.start sound)

/-- The current trace of a registered variable is the one under its key. -/
theorem ends_currentTrace (sound : site.Sound) (var : VarId) :
    Ends (currentTrace var) site
      (fun answer after => answer.1 = ⟨var, site.scope.versionOf var⟩ ∧
        after.analysis.traces[answer.1]? = some answer.2 ∧
        site.Looked var after)
      (site.Refuses var) := by
  unfold currentTrace currentKey
  rw [ends_bind, ends_bind]
  refine (ends_currentVersion sound var).mono ?_ fun _ _ fell => fell
  rintro version after ⟨rfl, looked⟩
  rw [ends_pure, ends_bind, ends_liftTracesSite, Traces.ends_find]
  refine ⟨fun trace found => ?_,
    fun absent => absurd looked.recorded (Traces.not_mem_of_find absent)⟩
  rw [ends_pure]
  exact ⟨rfl, found, looked⟩

/-- What is recorded of a variable once it was looked at behind an escape: if it was active, that it
is unknown since then, and otherwise what its storage class tells of it on entry. -/
def escapedOrigin (before : Site) (var : VarId) (slot : Variable) : Origin :=
  if var ∈ before.scope.active then .unknown (some (before.scope.versionOf var)) else Analysis.entryOrigin slot.storage

theorem escapedOrigin_plain (slot : Variable) (sources : List Version) :
    before.escapedOrigin var slot ≠ .joined sources := by
  unfold escapedOrigin
  split
  · nofun
  · exact Analysis.entryOrigin_plain _ _

/-- A storage class tells nothing of an entry state, or something definite. -/
theorem escapedOrigin_unknown_iff {slot : Variable} :
    (∃ previous, before.escapedOrigin var slot = .unknown previous) ↔
    var ∈ before.scope.active ∨ Analysis.entryOrigin slot.storage = .unknown none := by
  unfold escapedOrigin
  by_cases active : var ∈ before.scope.active
  · simp [active]
  · rw [if_neg active]
    simp only [active, false_or]
    constructor
    · rintro ⟨previous, unknown⟩
      cases storage : slot.storage <;> rw [storage] at unknown <;> first | rfl | cases unknown
    · exact fun unknown => ⟨none, unknown⟩

theorem Escaping.isSome_get? {slot : Variable} (escaping : before.Escaping [] after)
    (found : before.analysis.vars.get? var = some slot) :
    (after.analysis.vars.get? var).isSome := by
  obtain ⟨last, -, registered⟩ := escaping.grows.vars.slot var slot found
  simp [registered]

section Behind

variable {slot : Variable} (escaping : before.Escaping [] after)
  (found : before.analysis.vars.get? var = some slot)
  (rebound : slot.mayBeRebound before.analysis.options = true)
include escaping found rebound

/-- A look behind an escape. -/
theorem Escaping.origin_of_looked {later : Site} (looked : after.Looked var later) :
    later.analysis.traces.origin? ⟨var, after.scope.versionOf var⟩ =
      some (before.escapedOrigin var slot) := by
  unfold escapedOrigin
  split
  · rename_i active
    have unknown := (escaping.done var active ⟨slot, found, rebound⟩).resolve_left List.not_mem_nil
    exact looked.grows.traces _ _ unknown
  · rename_i free
    have entry : after.scope.versionOf var = .entry := Scope.versionOf_of_not_mem fun active =>
      free ((escaping.active var).1 active)
    have recorded := looked.recorded
    obtain ⟨last, -, registered⟩ := (escaping.grows.trans looked.grows).vars.slot var slot found
    rw [entry] at recorded ⊢
    have known := looked.sound.analysis.traces.origin?_entry recorded registered
    exact known

/-- What a variable resolves to behind an escape. -/
theorem Escaping.resolves : ∃ key trace later, currentTrace var after = .ok (key, trace) later ∧
    trace.origin = before.escapedOrigin var slot := by
  have registered := escaping.isSome_get? found
  have ends : Ends (currentTrace var) after
      (fun answer _ => answer.2.origin = before.escapedOrigin var slot) fun _ _ => False := by
    refine (ends_currentTrace escaping.sound var).mono ?_ fun _ _ refuses => by
      simp [refuses.absent] at registered
    rintro ⟨key, trace⟩ later ⟨rfl, current, looked⟩
    have known := escaping.origin_of_looked found rebound looked
    rw [Traces.origin?_eq_of_find current] at known
    exact Option.some.inj known
  obtain ⟨⟨key, trace⟩, later, reached, origin⟩ := ends.exists_ok
  exact ⟨key, trace, later, reached, origin⟩

end Behind

/-- Asks whether a variable is sure to be bound, and whether it is sure to be unbound, at its
current version. -/
def facts (var : VarId) : SiteM (Bool × Bool) := do
  let key ← currentKey var
  let traces := (← get).analysis.traces
  return (← ofExcept (traces.isSurelyBound key), ← ofExcept (traces.isSurelyUnbound key))

/-- Asked for the facts of a variable, the site answers as told. -/
def Reports (site : Site) (var : VarId) (bound unbound : Bool) : Prop := ∃ later, facts var site = .ok (bound, unbound) later

/-- Behind an escape a variable that may be rebound is as bound, and as unbound, as its recorded
origin says. -/
theorem Escaping.reports {slot : Variable} (escaping : before.Escaping [] after)
    (found : before.analysis.vars.get? var = some slot)
    (rebound : slot.mayBeRebound before.analysis.options = true) :
    after.Reports var (Traces.leavesBound (before.escapedOrigin var slot))
      (Traces.leavesUnbound (before.escapedOrigin var slot)) := by
  have registered := escaping.isSome_get? found
  have asked {later : Site} (looked : after.Looked var later) (holds : Origin → Bool) :
      later.analysis.traces.everyLeaf holds var (after.scope.versionOf var) =
        .ok (holds (before.escapedOrigin var slot)) := by
    obtain ⟨answer, told, iff⟩ := looked.sound.analysis.traces.everyLeaf holds looked.recorded
    have origin := escaping.origin_of_looked found rebound looked
    rw [Traces.allLeaves_of_plain origin (escapedOrigin_plain slot)] at iff
    rw [told, Bool.eq_iff_iff.2 iff]
  have ends : Ends (facts var) after
      (fun answer _ => answer =
        (Traces.leavesBound (before.escapedOrigin var slot),
          Traces.leavesUnbound (before.escapedOrigin var slot))) fun _ _ => False := by
    unfold facts currentKey
    rw [ends_bind, ends_bind]
    refine (ends_currentVersion escaping.sound var).mono ?_ fun _ _ refuses => by
      simp [refuses.absent] at registered
    rintro version later ⟨rfl, looked⟩
    have bound : later.analysis.traces.isSurelyBound ⟨var, after.scope.versionOf var⟩ = _ :=
      asked looked Traces.leavesBound
    have unbound : later.analysis.traces.isSurelyUnbound ⟨var, after.scope.versionOf var⟩ = _ :=
      asked looked Traces.leavesUnbound
    rw [ends_pure, ends_bind, ends_get]
    dsimp only
    rw [bound, unbound]
    rfl
  obtain ⟨_, later, reached, rfl⟩ := ends.exists_ok
  exact ⟨later, reached⟩

/-- What an escape makes of a site. -/
structure Escaped (before after : Site) : Prop where
  resolves : ∀ var slot, before.analysis.vars.get? var = some slot → slot.mayBeRebound before.analysis.options = true →
    ∃ key trace later, currentTrace var after = .ok (key, trace) later ∧ trace.origin = before.escapedOrigin var slot ∧
      ((∃ previous, trace.origin = .unknown previous) ↔
        var ∈ before.scope.active ∨ Analysis.entryOrigin slot.storage = .unknown none)
  kept : ∀ var, ¬ before.analysis.MayRebind var → after.scope.versionOf var = before.scope.versionOf var
  keeps : before.analysis.traces.Keeps after.analysis.traces

theorem Escaping.escaped (escaping : before.Escaping [] after) : before.Escaped after where
  resolves := by
    intro var slot found rebound
    obtain ⟨key, trace, later, reached, origin⟩ := escaping.resolves found rebound
    refine ⟨key, trace, later, reached, origin, ?_⟩
    rw [origin]
    exact escapedOrigin_unknown_iff
  kept := escaping.kept
  keeps := escaping.keeps

end Site

end ValueFlow
