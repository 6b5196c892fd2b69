import ValueFlow.Analysis
import ValueFlow.Proofs.Trace.Uses
import ValueFlow.Scope.Access

/-!
# Integrity of the trace log

A state is sound if its log hangs together: every recorded version belongs to a registered variable
whose counter has reached it and whose entry state is recorded, every version is derived from
recorded and strictly earlier ones, joins have at least two sources in order, and the scopes parked
in the exit registries hold recorded versions only. Together with `Analysis.Grows`, which says that
a state only ever gains, this is what all operations keep (`Integrity/Law`).
-/

namespace ValueFlow
set_option autoImplicit false

/-- Every version that the scope holds is recorded. -/
def Scope.Backed (scope : Scope) (traces : Traces) : Prop :=
  ∀ var version, scope.active[var]? = some version → ⟨var, version⟩ ∈ traces

/-- The log hangs together and agrees with the variable table. -/
structure Traces.Sound (vars : Variables) (traces : Traces) : Prop where
  entry : ∀ key ∈ traces, ∃ slot, vars.get? key.var = some slot ∧ key.version ≤ slot.lastVersion ∧
    traces.origin? ⟨key.var, .entry⟩ = some (Analysis.entryOrigin slot.storage)
  previous : ∀ key origin, traces.origin? key = some origin → ∀ previous ∈ origin.previous,
    ⟨key.var, previous⟩ ∈ traces ∧ previous < key.version
  joined : ∀ key sources, traces.origin? key = some (.joined sources) →
    sources.Pairwise (· < ·) ∧ 2 ≤ sources.length

/-- The log is sound, and so are the scopes parked in the registries. -/
structure Analysis.Sound (state : Analysis) : Prop where
  traces : state.traces.Sound state.vars
  parked : ∀ kind, ∀ snapshots ∈ state.exits.get kind, ∀ snapshot ∈ snapshots, snapshot.Backed state.traces

/-- The same variables, with counters that may have moved on. -/
structure Variables.Advances (older newer : Variables) : Prop where
  size : newer.size = older.size
  slot : ∀ var slot, older.get? var = some slot →
    ∃ last, slot.lastVersion ≤ last ∧ newer.get? var = some { slot with lastVersion := last }

/-- The state has lost nothing on the way from the older one to the newer one. -/
structure Analysis.Grows (older newer : Analysis) : Prop where
  traces : older.traces.Extends newer.traces
  uses : older.traces.Uses newer.traces
  vars : older.vars.Advances newer.vars
  options : newer.options = older.options
  edits : older.edits.size ≤ newer.edits.size

/-- The scope at hand and the state behind it are sound. -/
structure Site.Sound (site : Site) : Prop where
  analysis : site.analysis.Sound
  scope : site.scope.Backed site.analysis.traces

namespace Variables.Advances

variable {first second third : Variables}

theorem refl (vars : Variables) : vars.Advances vars :=
  ⟨rfl, fun _ slot found => ⟨slot.lastVersion, Nat.le_refl _, found⟩⟩

theorem trans (early : first.Advances second) (late : second.Advances third) :
    first.Advances third := by
  refine ⟨late.size.trans early.size, fun var slot found => ?_⟩
  obtain ⟨middle, lower, found⟩ := early.slot var slot found
  obtain ⟨last, upper, found⟩ := late.slot var _ found
  exact ⟨last, Nat.le_trans lower upper, found⟩

/-- The variable that a counter belongs to is the one from before. -/
theorem slot_back (advances : first.Advances second) {var : VarId} {slot : Variable}
    (found : second.get? var = some slot) :
    ∃ old, first.get? var = some old ∧ old.lastVersion ≤ slot.lastVersion ∧
      slot = { old with lastVersion := slot.lastVersion } := by
  have inside : var < first.entries.size := by
    have below : var < second.size := (Array.getElem?_eq_some_iff.1 found).1
    rwa [advances.size] at below
  obtain ⟨last, le, again⟩ :=
    advances.slot var first.entries[var] (Array.getElem?_eq_getElem inside)
  rw [found] at again
  obtain rfl := Option.some.inj again
  exact ⟨first.entries[var], Array.getElem?_eq_getElem inside, le, rfl⟩

end Variables.Advances

/-- Handing out a version moves one counter on by one. -/
theorem Variables.advances_of_allocate? {vars after : Variables} {var : VarId} {version : Version}
    (allocated : vars.allocate? var = some (version, after)) :
    vars.Advances after ∧ ∃ slot, vars.get? var = some slot ∧ version = slot.lastVersion + 1 := by
  have lookup := get?_of_allocate? allocated
  simp only [allocate?, Option.map_eq_some_iff, Prod.mk.injEq] at allocated
  obtain ⟨slot, found, rfl, rfl⟩ := allocated
  refine ⟨⟨by simp [size], fun other held foundOther => ?_⟩, slot, found, rfl⟩
  rw [lookup]
  by_cases same : other = var
  · subst same
    obtain rfl := Option.some.inj (found.symm.trans foundOther)
    exact ⟨slot.lastVersion + 1, Nat.le_succ _, by simp [found]⟩
  · exact ⟨held.lastVersion, Nat.le_refl _, by simp [same, foundOther]⟩

namespace Analysis.Grows

variable {first second third : Analysis}

theorem refl (state : Analysis) : state.Grows state :=
  ⟨.refl _, .refl _, .refl _, rfl, Nat.le_refl _⟩

theorem trans (early : first.Grows second) (late : second.Grows third) : first.Grows third :=
  ⟨early.traces.trans late.traces, early.uses.trans late.uses, early.vars.trans late.vars,
    late.options.trans early.options, Nat.le_trans early.edits late.edits⟩

end Analysis.Grows

theorem Scope.Backed.extend {scope : Scope} {older newer : Traces} (backed : scope.Backed older)
    (extends_ : older.Extends newer) : scope.Backed newer :=
  fun var version held => extends_.mem (backed var version held)

theorem Scope.Backed.fork {scope : Scope} {traces : Traces} (backed : scope.Backed traces)
    (label : String) :
    (scope.fork label).Backed traces := backed

theorem Scope.backed_fresh (label : String) (traces : Traces) :
    (Scope.fresh label).Backed traces := by
  intro var version held
  simp [Scope.fresh] at held

namespace Analysis

@[simp] theorem previous_entryOrigin (storage : Storage) : (entryOrigin storage).previous = [] := by
  cases storage <;> rfl

theorem entryOrigin_plain (storage : Storage) (sources : List Version) :
    entryOrigin storage ≠ .joined sources := by
  cases storage <;> nofun

end Analysis

namespace Traces.Sound

variable {vars newVars : Variables} {traces newTraces : Traces}

theorem empty (vars : Variables) : Traces.Sound vars ∅ where
  entry key mem := absurd mem Std.ExtTreeMap.not_mem_empty
  previous key origin known := by simp at known
  joined key sources known := by simp at known

theorem linked (sound : traces.Sound vars) : traces.Linked :=
  fun key origin known previous mem => (sound.previous key origin known previous mem).1

/-- No version above a variable's counter is recorded. -/
theorem not_mem_of_last (sound : traces.Sound vars) {var : VarId} {version : Version}
    {slot : Variable} (found : vars.get? var = some slot) (above : slot.lastVersion < version) :
    (⟨var, version⟩ : TraceKey) ∉ traces := by
  intro mem
  obtain ⟨other, again, le, -⟩ := sound.entry _ mem
  obtain rfl := Option.some.inj (found.symm.trans again)
  exact absurd le (by simpa using above)

/-- What an entry version stands for, once it is recorded. -/
theorem origin?_entry (sound : traces.Sound vars) {key : TraceKey} (mem : key ∈ traces)
    {slot : Variable} (found : vars.get? key.var = some slot) :
    traces.origin? ⟨key.var, .entry⟩ = some (Analysis.entryOrigin slot.storage) := by
  obtain ⟨other, again, -, known⟩ := sound.entry key mem
  obtain rfl := Option.some.inj (found.symm.trans again)
  exact known

theorem entry_mem (sound : traces.Sound vars) {key : TraceKey} (mem : key ∈ traces) :
    (⟨key.var, .entry⟩ : TraceKey) ∈ traces := by
  obtain ⟨slot, -, -, known⟩ := sound.entry key mem
  exact mem_of_origin? known

/-- Counters may move on, and notes of use may change. -/
theorem advance (sound : traces.Sound vars) (advances : vars.Advances newVars)
    (same : traces.SameOrigins newTraces) : newTraces.Sound newVars where
  entry key mem := by
    obtain ⟨slot, found, le, known⟩ := sound.entry key (same.mem_iff.1 mem)
    obtain ⟨last, lower, found⟩ := advances.slot _ _ found
    exact ⟨_, found, Nat.le_trans le lower, (same _).trans known⟩
  previous key origin known previous mem := by
    rw [same] at known
    obtain ⟨recorded, lt⟩ := sound.previous key origin known previous mem
    exact ⟨same.mem_iff.2 recorded, lt⟩
  joined key sources known := sound.joined key sources ((same key).symm.trans known)

/-- The entry state of a registered variable may be recorded. -/
theorem recordEntry (sound : traces.Sound vars) {var : VarId} {slot : Variable}
    (found : vars.get? var = some slot) (free : (⟨var, .entry⟩ : TraceKey) ∉ traces) :
    Traces.Sound vars
      (traces.insert ⟨var, .entry⟩ (.ofOrigin (Analysis.entryOrigin slot.storage))) where
  entry key mem := by
    by_cases same : key = ⟨var, .entry⟩
    · subst same
      exact ⟨slot, found, Nat.zero_le _, by simp [origin?_insert, Trace.ofOrigin]⟩
    · have old : key ∈ traces := (Std.ExtTreeMap.mem_insert.1 mem).resolve_left
        fun eq => same (Std.LawfulEqCmp.eq_of_compare eq).symm
      obtain ⟨held, foundHeld, le, known⟩ := sound.entry key old
      exact ⟨held, foundHeld, le, (Extends.insert free) _ _ known⟩
  previous key origin known previous mem := by
    rw [origin?_insert] at known
    split at known
    · obtain rfl := Option.some.inj known
      simp [Trace.ofOrigin] at mem
    · obtain ⟨recorded, lt⟩ := sound.previous key origin known previous mem
      exact ⟨(Extends.insert free).mem recorded, lt⟩
  joined key sources known := by
    rw [origin?_insert] at known
    split at known
    · exact absurd (Option.some.inj known) (Analysis.entryOrigin_plain _ _)
    · exact sound.joined key sources known

/-- A version above the counter may be recorded, derived from recorded ones, once the counter has
moved on to it. -/
theorem record (sound : traces.Sound vars) (advances : vars.Advances newVars) {var : VarId}
    {version : Version} {slot newSlot : Variable} {origin : Origin}
    (found : vars.get? var = some slot) (above : slot.lastVersion < version)
    (foundNew : newVars.get? var = some newSlot) (reached : version ≤ newSlot.lastVersion)
    (seen : ∃ version, (⟨var, version⟩ : TraceKey) ∈ traces)
    (previous : ∀ previous ∈ origin.previous, ⟨var, previous⟩ ∈ traces)
    (joined : ∀ sources, origin = .joined sources → sources.Pairwise (· < ·) ∧ 2 ≤ sources.length) :
    Traces.Sound newVars (traces.insert ⟨var, version⟩ (.ofOrigin origin)) := by
  have free := sound.not_mem_of_last found above
  have extended : traces.Extends (traces.insert ⟨var, version⟩ (.ofOrigin origin)) := .insert free
  have older := sound.advance advances (.refl traces)
  constructor
  · intro key mem
    by_cases same : key = ⟨var, version⟩
    · subst same
      obtain ⟨other, mem⟩ := seen
      exact ⟨newSlot, foundNew, reached, extended _ _ (older.origin?_entry mem foundNew)⟩
    · have old : key ∈ traces := (Std.ExtTreeMap.mem_insert.1 mem).resolve_left
        fun eq => same (Std.LawfulEqCmp.eq_of_compare eq).symm
      obtain ⟨held, foundHeld, le, known⟩ := older.entry key old
      exact ⟨held, foundHeld, le, extended _ _ known⟩
  · intro key other known source mem
    rw [origin?_insert] at known
    split at known
    · rename_i same
      subst same
      obtain rfl := Option.some.inj known
      have recorded := previous source mem
      obtain ⟨held, foundHeld, le, -⟩ := sound.entry _ recorded
      obtain rfl := Option.some.inj (found.symm.trans foundHeld)
      exact ⟨extended.mem recorded, Nat.lt_of_le_of_lt le above⟩
    · obtain ⟨recorded, lt⟩ := sound.previous key other known source mem
      exact ⟨extended.mem recorded, lt⟩
  · intro key sources known
    rw [origin?_insert] at known
    split at known
    · exact joined sources (Option.some.inj known)
    · exact sound.joined key sources known

end Traces.Sound

end ValueFlow
