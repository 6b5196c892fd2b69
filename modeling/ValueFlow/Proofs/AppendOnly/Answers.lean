import ValueFlow.Proofs.AppendOnly.History
import ValueFlow.Proofs.Trace.Leaves

/-!
# Answers for good

Whether a variable is surely bound, or surely unbound, at a recorded version is decided by the
leaves of the version, and whatever is done to the state later, the answer stays
(`Session.answers_for_good`).

The questions go down from a join to its sources. They come to an end because no join is recorded
without sources, and none with a source that is not recorded or not older than it
(`Analysis.Rooted`). This is a habit of the log (`rooted_habit`). It asks nothing of the scopes: a
join looks its sources up before it is recorded, and its version is handed out above all that are
recorded. So a caller may bring along scopes that another state has left behind
(`Session.bringing`).
-/

namespace ValueFlow
set_option autoImplicit false

namespace Traces.Rooted

variable {traces newer : Traces}

theorem empty : Traces.Rooted ∅ := by
  intro key sources joined
  simp at joined

/-- A table with the same origins is rooted too. -/
theorem of_same (rooted : traces.Rooted) (same : traces.SameOrigins newer) : newer.Rooted := by
  intro key sources joined
  obtain ⟨some, each⟩ := rooted key sources ((same key).symm.trans joined)
  exact ⟨some, fun source mem => ⟨same.mem_iff.2 (each source mem).1, (each source mem).2⟩⟩

/-- A version may be recorded, if it is no join or stands on older recorded versions. -/
theorem insert (rooted : traces.Rooted) {key : TraceKey} {trace : Trace}
    (stands : ∀ sources, trace.origin = .joined sources → sources ≠ [] ∧ ∀ source ∈ sources,
      ⟨key.var, source⟩ ∈ traces ∧ source < key.version) :
    Rooted (traces.insert key trace) := by
  intro other sources joined
  have told : sources ≠ [] ∧ ∀ source ∈ sources, ⟨other.var, source⟩ ∈ traces ∧
      source < other.version := by
    rw [origin?_insert] at joined
    by_cases same : other = key
    · subst same
      exact stands sources (Option.some.inj ((if_pos rfl).symm.trans joined))
    · exact rooted other sources ((if_neg same).symm.trans joined)
  exact ⟨told.1, fun source mem =>
    ⟨Std.ExtTreeMap.mem_insert.2 (.inr (told.2 source mem).1), (told.2 source mem).2⟩⟩

end Traces.Rooted

/-- Every recorded version has been handed out, and every join stands on older recorded versions. -/
structure Analysis.Rooted (state : Analysis) : Prop where
  reached : ∀ key ∈ state.traces, ∃ slot, state.vars.get? key.var = some slot ∧ key.version ≤ slot.lastVersion
  joins : state.traces.Rooted

namespace Analysis.Rooted

variable {state : Analysis} {var : VarId}

/-- Notes of use are no concern. -/
theorem note {traces : Traces} (same : state.traces.SameOrigins traces) (rooted : state.Rooted) :
    Analysis.Rooted { state with traces } where
  reached key mem := rooted.reached key (same.mem_iff.1 mem)
  joins := rooted.joins.of_same same

/-- The counters may move on. -/
theorem advance {vars : Variables} (rooted : state.Rooted) (advances : state.vars.Advances vars) :
    Analysis.Rooted { state with vars } where
  reached key mem := by
    obtain ⟨slot, found, le⟩ := rooted.reached key mem
    obtain ⟨last, later, foundLast⟩ := advances.slot _ _ found
    exact ⟨_, foundLast, Nat.le_trans le later⟩
  joins := rooted.joins

/-- A version that has been handed out may be recorded. -/
theorem record (rooted : state.Rooted) (key : TraceKey) {origin : Origin} {slot : Variable}
    (found : state.vars.get? key.var = some slot) (le : key.version ≤ slot.lastVersion)
    (stands : ∀ sources, origin = .joined sources → sources ≠ [] ∧ ∀ source ∈ sources,
      ⟨key.var, source⟩ ∈ state.traces ∧ source < key.version) :
    Analysis.Rooted { state with traces := state.traces.insert key (.ofOrigin origin) } where
  reached other mem := by
    rcases Std.ExtTreeMap.mem_insert.1 mem with same | old
    · obtain rfl := Std.LawfulEqCmp.eq_of_compare same
      exact ⟨slot, found, le⟩
    · exact rooted.reached other old
  joins := rooted.joins.insert stands

/-- Wherever the record of a new version ends, the state is rooted if it was so before: a join of
recorded versions gets a number above all of them. -/
theorem ends_recordNext {origin : Origin}
    (stands : ∀ sources, origin = .joined sources → sources ≠ [] ∧ ∀ source ∈ sources,
      ⟨var, source⟩ ∈ state.traces) :
    Ends (recordNext var origin) state (fun _ after => state.Rooted → after.Rooted) fun _ after =>
      state.Rooted → after.Rooted := by
  refine ends_recordNext_of id fun version vars allocated => ?_
  obtain ⟨advances, slot, found, rfl⟩ := Variables.advances_of_allocate? allocated
  refine ⟨fun rooted => rooted.advance advances, fun _ rooted => ?_⟩
  have foundNext : vars.get? var = some { slot with lastVersion := slot.lastVersion + 1 } := by
    simp [Variables.get?_of_allocate? allocated, found]
  refine (rooted.advance advances).record ⟨var, slot.lastVersion + 1⟩ foundNext (Nat.le_refl _)
    fun sources joined => ?_
  obtain ⟨some, recorded⟩ := stands sources joined
  refine ⟨some, fun source mem => ⟨recorded source mem, ?_⟩⟩
  obtain ⟨held, foundHeld, le⟩ := rooted.reached _ (recorded source mem)
  obtain rfl := Option.some.inj (found.symm.trans foundHeld)
  exact Nat.lt_succ_of_le le

end Analysis.Rooted

/-- Rooted states stay so, whatever is done. -/
theorem rooted_habit : Analysis.LogHabit fun before after => before.Rooted → after.Rooted where
  refl _ := id
  trans early late := late ∘ early
  recordEntry var _ := Analysis.ends_recordEntry_of id fun slot found _ rooted =>
    rooted.record ⟨var, .entry⟩ found (Nat.zero_le _) fun sources joined =>
    absurd joined (Analysis.entryOrigin_plain slot.storage sources)
  recordPlain _ _ plain _ := Analysis.Rooted.ends_recordNext fun sources joined =>
    absurd joined (plain sources)
  recordJoined some recorded := by
    refine Analysis.Rooted.ends_recordNext ?_
    rintro sources ⟨⟩
    exact ⟨some, recorded⟩
  noteRead := Analysis.keeps_noteRead .note
  noteRelease := Analysis.keeps_noteRelease .note
  noteEscape := Analysis.keeps_noteEscape .note
  ofLog same vars rooted :=
    ⟨by rw [same, vars]; exact rooted.reached, by rw [same]; exact rooted.joins⟩

/-- What the two questions about the binding of a variable at a version come to. -/
structure Traces.Settles (traces : Traces) (key : TraceKey) (bound unbound : Bool) : Prop where
  /-- Asked as they stand, with nothing to bound the descent, they come to an end. -/
  decidesBound : traces.Decides leavesBound key.var [key.version] bound
  decidesUnbound : traces.Decides leavesUnbound key.var [key.version] unbound
  /-- Neither ends in a fault. -/
  isSurelyBound : traces.isSurelyBound key = .ok bound
  isSurelyUnbound : traces.isSurelyUnbound key = .ok unbound
  bound_iff : bound = true ↔ ∀ leaf, traces.Leaf key.var key.version leaf →
    traces.origin? ⟨key.var, leaf⟩ = some .bound ∨ ∃ node previous, traces.origin? ⟨key.var, leaf⟩ = some (.assigned node previous)
  unbound_iff : unbound = true ↔ ∀ leaf, traces.Leaf key.var key.version leaf →
    ∃ previous, traces.origin? ⟨key.var, leaf⟩ = some (.unbound previous)
  apart : ¬ (bound = true ∧ unbound = true)

namespace Traces

variable {traces : Traces} {var : VarId} {version : Version} {key : TraceKey}

theorem leavesBound_iff {origin : Origin} :
    leavesBound origin = true ↔ origin = .bound ∨ ∃ node previous,
      origin = .assigned node previous := by
  cases origin <;> simp [leavesBound]

theorem leavesUnbound_iff {origin : Origin} :
    leavesUnbound origin = true ↔ ∃ previous, origin = .unbound previous := by
  cases origin <;> simp [leavesUnbound]

theorem allLeaves_bound_iff :
    traces.AllLeaves var version leavesBound ↔ ∀ leaf, traces.Leaf var version leaf →
    traces.origin? ⟨var, leaf⟩ = some .bound ∨ ∃ node previous, traces.origin? ⟨var, leaf⟩ = some
      (.assigned node previous) := by
  refine forall₂_congr fun leaf _ => ?_
  cases traces.origin? ⟨var, leaf⟩ <;> simp [leavesBound_iff]

theorem allLeaves_unbound_iff :
    traces.AllLeaves var version leavesUnbound ↔ ∀ leaf, traces.Leaf var version leaf →
    ∃ previous, traces.origin? ⟨var, leaf⟩ = some (.unbound previous) := by
  refine forall₂_congr fun leaf _ => ?_
  cases traces.origin? ⟨var, leaf⟩ <;> simp [leavesUnbound_iff]

/-- Where all questions come to an end, what they come to is told by the leaves. -/
theorem Rooted.settles (rooted : traces.Rooted) {bound unbound : Bool}
    (decidesBound : traces.Decides leavesBound key.var [key.version] bound)
    (decidesUnbound : traces.Decides leavesUnbound key.var [key.version] unbound) :
    traces.Settles key bound unbound := by
  have iffBound : bound = true ↔ traces.AllLeaves key.var key.version leavesBound := by
    simpa using decidesBound.iff_allLeaves
  have iffUnbound : unbound = true ↔ traces.AllLeaves key.var key.version leavesUnbound := by
    simpa using decidesUnbound.iff_allLeaves
  refine ⟨decidesBound, decidesUnbound, decidesBound.everyLeaf rooted,
    decidesUnbound.everyLeaf rooted, iffBound.trans allLeaves_bound_iff,
    iffUnbound.trans allLeaves_unbound_iff, ?_⟩
  -- no leaf can say both, and there is one
  rintro ⟨isBound, isUnbound⟩
  obtain ⟨leaf, below⟩ := rooted.exists_leaf key.var key.version
  obtain ⟨origin, known, leftBound⟩ := iffBound.1 isBound leaf below
  obtain ⟨_, again, leftUnbound⟩ := iffUnbound.1 isUnbound leaf below
  obtain rfl := Option.some.inj (known.symm.trans again)
  obtain ⟨previous, rfl⟩ := leavesUnbound_iff.1 leftUnbound
  cases leftBound

end Traces

namespace Session

/-- A session in which nothing was done yet, but scopes of other states were brought along. -/
def bringing (vars : Variables) (options : Options) (scopes : List Scope) : Session := ⟨.fresh vars options, scopes, []⟩

theorem rooted_run (vars : Variables) (options : Options) (scopes : List Scope) (ops : List Op) :
    ((bringing vars options scopes).run ops).state.Rooted :=
  rooted_habit.run (bringing vars options scopes) ops
    ⟨fun _ mem => absurd mem Std.ExtTreeMap.not_mem_empty, .empty⟩

/-- The questions about the binding of a variable at a recorded version are answered for good. In
whatever state a session has come to, whatever scopes were brought along, both of them come to an
end without a fault. The variable is surely bound if all leaves of the version are bound or
assigned, and only then; it is surely unbound if all leaves are unbound, and only then; and it is
never both. Whatever is done later, and whatever of it fails, both answers are the same. -/
theorem answers_for_good (vars : Variables) (options : Options) (scopes : List Scope) (ops : List Op) {key : TraceKey}
    (recorded : key ∈ ((bringing vars options scopes).run ops).state.traces) :
    ∃ bound unbound, ∀ later : List Op, (((bringing vars options scopes).run ops).run later).state.traces.Settles key bound unbound := by
  have rooted := (rooted_run vars options scopes ops).joins
  obtain ⟨bound, decidesBound⟩ := rooted.decides Traces.leavesBound (List.forall_mem_singleton.2 recorded)
  obtain ⟨unbound, decidesUnbound⟩ := rooted.decides Traces.leavesUnbound (List.forall_mem_singleton.2 recorded)
  refine ⟨bound, unbound, fun later => ?_⟩
  have extends_ := (appends_logHabit.run ((bringing vars options scopes).run ops) later).extends
  have rootedLater := rooted_habit.run _ later (rooted_run vars options scopes ops)
  exact rootedLater.joins.settles (decidesBound.extend extends_) (decidesUnbound.extend extends_)

/-- Two arms assign `x` and are joined. A scope that was brought along holds a version of `x` that
was never recorded, and looking at it fails. -/
def armsJoined : Session :=
  (bringing ⟨#[⟨"x", .localSlot, false, 0⟩]⟩ {} [⟨"stale", {(0, 9)}⟩]).run
    [.atScope 0 (.look 0), .openScope "yes", .openScope "no", .atScope 1 (.assign 0 7), .atScope 2 (.assign 0 8), .atScope 1 (.join [1, 2])]

/-- At the joined version `x` is surely bound, and not surely unbound, whatever is done later. -/
theorem joined_bound_for_good : ⟨0, 3⟩ ∈ armsJoined.state.traces ∧
    ∀ later : List Op, (armsJoined.run later).state.traces.Settles ⟨0, 3⟩ true false := by
  have recorded : ⟨0, 3⟩ ∈ armsJoined.state.traces := by decide +kernel
  obtain ⟨bound, unbound, settles⟩ := answers_for_good _ _ _ _ recorded
  have isBound : armsJoined.state.traces.isSurelyBound ⟨0, 3⟩ = .ok true := by decide +kernel
  have isUnbound : armsJoined.state.traces.isSurelyUnbound ⟨0, 3⟩ = .ok false := by decide +kernel
  obtain rfl := Except.ok.inj ((settles []).isSurelyBound.symm.trans isBound)
  obtain rfl := Except.ok.inj ((settles []).isSurelyUnbound.symm.trans isUnbound)
  exact ⟨recorded, settles⟩

end Session

end ValueFlow
