import ValueFlow.Proofs.Integrity.Basic
import ValueFlow.Proofs.Routing.Habits

/-!
# Every operation only appends to the log

From a state to a later one, every trace stays under its key, with its origin and with all of its
notes of use, and no counter goes back. A trace that is new is one of an entry version, or its
version was handed out in between: it is above the counter from before and has been reached by the
counter (`Analysis.Appends`). The single operations do no more to a state, wherever they end
(`appends_habit`), and only the log and the counters count (`appends_logHabit`), so nothing that is
done in a session does more. Nothing is asked of the state, and nothing of the scopes.
-/

namespace ValueFlow
set_option autoImplicit false

/-- The trace tells of the same origin, and no note of use was taken back. -/
structure Trace.Noted (older newer : Trace) : Prop where
  origin : newer.origin = older.origin
  reads : older.reads ≤ newer.reads
  mayBeRead : older.mayBeRead = true → newer.mayBeRead = true
  released : older.released = true → newer.released = true
  escaped : older.escaped = true → newer.escaped = true

theorem Trace.Noted.refl (trace : Trace) : trace.Noted trace := ⟨rfl, Nat.le_refl _, id, id, id⟩

theorem Trace.Noted.trans {first second third : Trace} (early : first.Noted second)
    (late : second.Noted third) :
    first.Noted third where
  origin := late.origin.trans early.origin
  reads := Nat.le_trans early.reads late.reads
  mayBeRead set := late.mayBeRead (early.mayBeRead set)
  released set := late.released (early.released set)
  escaped set := late.escaped (early.escaped set)

namespace Traces

variable {older newer newest traces : Traces} {key : TraceKey}

/-- The same versions are recorded, and only notes of use were added. -/
structure Noted (older newer : Traces) : Prop where
  kept : ∀ (key : TraceKey) (trace : Trace), older[key]? = some trace → ∃ held, newer[key]? = some held ∧ trace.Noted held
  keys : ∀ key ∈ newer, key ∈ older

theorem Noted.refl (traces : Traces) : traces.Noted traces :=
  ⟨fun _ trace found => ⟨trace, found, .refl trace⟩, fun _ mem => mem⟩

theorem Noted.trans (early : older.Noted newer) (late : newer.Noted newest) :
    older.Noted newest where
  kept key trace found := by
    obtain ⟨middle, found, noted⟩ := early.kept key trace found
    obtain ⟨held, found, more⟩ := late.kept key middle found
    exact ⟨held, found, noted.trans more⟩
  keys key mem := early.keys key (late.keys key mem)

theorem Noted.insert {trace renewed : Trace} (found : traces[key]? = some trace)
    (noted : trace.Noted renewed) :
    traces.Noted (traces.insert key renewed) := by
  constructor
  · intro other held foundOther
    rw [getElem?_insert_trace]
    by_cases same : other = key
    · subst same
      obtain rfl := Option.some.inj (found.symm.trans foundOther)
      exact ⟨renewed, if_pos rfl, noted⟩
    · exact ⟨held, by rw [if_neg same, foundOther], .refl held⟩
  · intro other mem
    rcases Std.ExtTreeMap.mem_insert.1 mem with same | old
    · obtain rfl := Std.LawfulEqCmp.eq_of_compare same
      exact Std.ExtTreeMap.mem_iff_isSome_getElem?.2 (by simp [found])
    · exact old

theorem noted_annotate (note : Trace → Trace) (notes : ∀ trace : Trace, trace.Noted (note trace)) :
    Ends (annotate key note) traces (fun _ after => traces.Noted after) fun _ after =>
      traces.Noted after := by
  unfold annotate
  rw [ends_bind, ends_find]
  constructor
  · exact fun trace found => .insert found (notes trace)
  · exact fun _ => .refl traces

theorem noted_flagFrom (var : VarId) (stack : List Version) :
    Ends (flagFrom var stack) traces (fun _ after => traces.Noted after) fun _ after =>
      traces.Noted after := by
  unfold Ends
  fun_induction flagFrom var stack traces with
  | case1 traces => exact .refl traces
  | case2 version rest traces absent => exact .refl traces
  | case3 version rest traces trace found flagged ih => exact ih
  | case4 version rest traces trace found flagged ih =>
    have flag : traces.Noted (traces.insert ⟨var, version⟩ { trace with mayBeRead := true }) :=
      .insert found ⟨rfl, Nat.le_refl _, fun _ => rfl, id, id⟩
    revert ih
    split <;> exact flag.trans

theorem noted_noteRead :
    Ends (noteRead key) traces (fun _ after => traces.Noted after) fun _ after =>
      traces.Noted after := by
  unfold noteRead
  rw [ends_bind, ends_find]
  constructor
  · intro trace found
    rw [ends_bind, ends_modify]
    have counted : traces.Noted (traces.insert key { trace with reads := trace.reads + 1 }) :=
      .insert found ⟨rfl, Nat.le_succ _, id, id, id⟩
    exact (noted_flagFrom key.var trace.flagsOn).mono (fun _ _ => counted.trans)
      fun _ _ => counted.trans
  · exact fun _ => .refl traces

end Traces

/-- The version was handed out on the way from the older table to the newer one. -/
def TraceKey.HandedOut (key : TraceKey) (older newer : Variables) : Prop :=
  ∃ slot, older.get? key.var = some slot ∧ slot.lastVersion < key.version ∧
    ∃ later, newer.get? key.var = some later ∧ key.version ≤ later.lastVersion

/-- The state has only been added to. -/
structure Analysis.Appends (before after : Analysis) : Prop where
  kept : ∀ (key : TraceKey) (trace : Trace), before.traces[key]? = some trace →
    ∃ held, after.traces[key]? = some held ∧ trace.Noted held
  vars : before.vars.Advances after.vars
  fresh : ∀ key ∈ after.traces, key ∉ before.traces → key.version = .entry ∨ key.HandedOut before.vars after.vars

theorem TraceKey.HandedOut.earlier {key : TraceKey} {first second third : Variables}
    (advances : first.Advances second) (handed : key.HandedOut second third) :
    key.HandedOut first third := by
  obtain ⟨slot, found, above, reached⟩ := handed
  obtain ⟨old, foundOld, le, -⟩ := advances.slot_back found
  exact ⟨old, foundOld, Nat.lt_of_le_of_lt le above, reached⟩

theorem TraceKey.HandedOut.later {key : TraceKey} {first second third : Variables}
    (handed : key.HandedOut first second) (advances : second.Advances third) :
    key.HandedOut first third := by
  obtain ⟨slot, found, above, later, foundLater, reached⟩ := handed
  obtain ⟨last, le, foundLast⟩ := advances.slot _ _ foundLater
  exact ⟨slot, found, above, _, foundLast, Nat.le_trans reached le⟩

namespace Analysis.Appends

variable {first second third state : Analysis}

/-- Only the log and the counters count. -/
theorem of_log {before after : Analysis} (traces : after.traces = before.traces)
    (vars : after.vars = before.vars) : before.Appends after where
  kept key trace found := ⟨trace, by rw [traces, found], .refl trace⟩
  vars := by rw [vars]; exact .refl _
  fresh key mem free := absurd (traces ▸ mem) free

theorem refl (state : Analysis) : state.Appends state := of_log rfl rfl

theorem trans (early : first.Appends second) (late : second.Appends third) :
    first.Appends third where
  kept key trace found := by
    obtain ⟨middle, found, noted⟩ := early.kept key trace found
    obtain ⟨held, found, more⟩ := late.kept key middle found
    exact ⟨held, found, noted.trans more⟩
  vars := early.vars.trans late.vars
  fresh key mem free := by
    by_cases old : key ∈ second.traces
    · exact (early.fresh key old free).imp_right (·.later late.vars)
    · exact (late.fresh key mem old).imp_right (·.earlier early.vars)

/-- Notes of use may be added. -/
theorem note {traces : Traces} (noted : state.traces.Noted traces) :
    state.Appends { state with traces } where
  kept := noted.kept
  vars := .refl _
  fresh key mem free := absurd (noted.keys key mem) free

/-- A version that has no trace may be recorded, if it is an entry version or was just handed
out. -/
theorem record {key : TraceKey} {origin : Origin} {vars : Variables}
    (advances : state.vars.Advances vars) (free : key ∉ state.traces)
    (handed : key.version = .entry ∨ key.HandedOut state.vars vars) :
    state.Appends { state with vars, traces := state.traces.insert key (.ofOrigin origin) } where
  kept other trace found := by
    have apart : other ≠ key := by
      rintro rfl
      exact free (Std.ExtTreeMap.mem_iff_isSome_getElem?.2 (by simp [found]))
    exact ⟨trace, by rw [Traces.getElem?_insert_trace, if_neg apart, found], .refl trace⟩
  vars := advances
  fresh other mem absent := by
    obtain rfl :=
      Std.LawfulEqCmp.eq_of_compare ((Std.ExtTreeMap.mem_insert.1 mem).resolve_right absent)
    exact handed

end Analysis.Appends

/-- Behind a state that was only added to, all origins stand. -/
theorem Analysis.Appends.extends {before after : Analysis} (appends : before.Appends after) :
    before.traces.Extends after.traces := by
  intro key origin known
  obtain ⟨trace, found, rfl⟩ := Option.map_eq_some_iff.1 known
  obtain ⟨held, foundHeld, noted⟩ := appends.kept key trace found
  rw [Traces.origin?_eq_of_find foundHeld, noted.origin]

/-- A note of use is added, or there is no trace to add it to. -/
theorem Analysis.Appends.keeps_annotate (key : TraceKey) (note : Trace → Trace)
    (notes : ∀ trace : Trace, trace.Noted (note trace)) :
    Analysis.Keeps Analysis.Appends (Traces.annotate key note : AnalysisM Unit) :=
  fun _ => ends_liftTraces.2
    ((Traces.noted_annotate note notes).mono (fun _ _ => .note) fun _ _ => .note)

/-- Every operation on the log and the counters only appends. -/
theorem appends_habit : Analysis.Habit Analysis.Appends where
  refl := .refl
  trans := .trans
  recordEntry _ state := Analysis.ends_recordEntry_of (.refl state) fun _ _ free =>
    .record (.refl _) free (.inl rfl)
  recordNext var origin state := by
    refine Analysis.ends_recordNext_of (.refl state) fun version vars allocated => ?_
    obtain ⟨advances, slot, found, rfl⟩ := Variables.advances_of_allocate? allocated
    have handed : TraceKey.HandedOut ⟨var, slot.lastVersion + 1⟩ state.vars vars :=
      ⟨slot, found, Nat.lt_succ_self _, { slot with lastVersion := slot.lastVersion + 1 },
        by simp [Variables.get?_of_allocate? allocated, found], Nat.le_refl _⟩
    -- the version stays handed out, even if there is a trace under it already
    exact ⟨⟨(Analysis.Appends.refl state).kept, advances, fun key mem free => absurd mem free⟩,
      fun free => .record advances free (.inr handed)⟩
  noteRead _ _ := ends_liftTraces.2 (Traces.noted_noteRead.mono (fun _ _ => .note) fun _ _ => .note)
  noteRelease key := Analysis.Appends.keeps_annotate key ({ · with released := true }) fun _ =>
    ⟨rfl, Nat.le_refl _, id, fun _ => rfl, id⟩
  noteEscape key := Analysis.Appends.keeps_annotate key ({ · with escaped := true }) fun _ =>
    ⟨rfl, Nat.le_refl _, id, id, fun _ => rfl⟩

/-- Only the log and the counters count. -/
theorem appends_logHabit : Analysis.LogHabit Analysis.Appends :=
  { appends_habit with ofLog := .of_log }

end ValueFlow
