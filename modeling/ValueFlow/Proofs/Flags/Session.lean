import ValueFlow.Proofs.Flags.Reached
import ValueFlow.Proofs.Routing.Habits

/-!
# Flags in sessions

Whatever was done in a session, and whatever of it failed, the flags of the log tell exactly which
versions a counted read passes to (`Session.flags_tell_reached`). That only what is reached is
flagged is a habit of the log (`grounded_habit`). That all of it is flagged needs a sound session:
only there does no read stop half-way (`Session.Sound.ends_uses`).
-/

namespace ValueFlow
set_option autoImplicit false

/-- No record and no note ungrounds a table. -/
theorem grounded_records :
    Analysis.Habit fun before after => before.traces.Grounded → after.traces.Grounded where
  refl _ := id
  trans early late := late ∘ early
  recordEntry _ _ := Analysis.ends_recordEntry_of id fun _ _ free grounded => grounded.record free _
  recordNext _ _ _ := Analysis.ends_recordNext_of id fun _ _ _ =>
    ⟨id, fun free grounded => grounded.record free _⟩
  noteRead _ _ := ends_liftTraces.2 Traces.grounded_noteRead
  noteRelease _ _ :=
    ends_liftTraces.2 (Traces.grounded_annotate _ (fun _ => rfl) (fun _ => rfl) fun _ => rfl)
  noteEscape _ _ :=
    ends_liftTraces.2 (Traces.grounded_annotate _ (fun _ => rfl) (fun _ => rfl) fun _ => rfl)

/-- Grounded tables stay so, whatever is done. -/
theorem grounded_habit :
    Analysis.LogHabit fun before after => before.traces.Grounded → after.traces.Grounded :=
  { grounded_records with ofLog := fun same _ => by rw [same]; exact id }

/-- A note that leaves the origin and the notes of use alone, wherever it ends. -/
theorem Traces.uses_annotate {traces : Traces} {key : TraceKey} (note : Trace → Trace)
    (origin : ∀ trace, (note trace).origin = trace.origin)
    (reads : ∀ trace, (note trace).reads = trace.reads)
    (flags : ∀ trace, (note trace).mayBeRead = trace.mayBeRead) :
    Ends (annotate key note) traces (fun _ after => traces.Uses after) fun _ after =>
      traces.Uses after := by
  unfold annotate
  rw [ends_bind, ends_find]
  exact ⟨fun trace found => .renew found (origin trace) (reads trace) (flags trace),
    fun _ => .refl traces⟩

namespace Session

variable {session : Session}

/-- In a sound table no note of use is lost at a key, and a settled table stays settled. -/
theorem KeyOp.ends_uses {traces : Traces} {vars : Variables} (sound : traces.Sound vars)
    (key : TraceKey) (op : KeyOp) :
    Ends (op.run key) traces (fun _ after => traces.Uses after) fun _ after =>
      traces.Uses after := by
  cases op with
  | find =>
    unfold run
    rw [ends_discard, Traces.ends_find]
    exact ⟨fun _ _ => .refl traces, fun _ => .refl traces⟩
  | noteRead =>
    by_cases recorded : key ∈ traces
    · exact ((Traces.ends_noteRead_counts sound.linked recorded).and_gives
        Traces.gives_noteRead).mono (fun _ _ told => told.2.1) fun _ _ impossible => impossible.elim
    · have absent : traces[key]? = none :=
        Option.not_isSome_iff_eq_none.1 (mt Std.ExtTreeMap.mem_iff_isSome_getElem?.2 recorded)
      unfold run Traces.noteRead
      rw [ends_bind, Traces.ends_find]
      exact ⟨fun trace found => absurd (found.symm.trans absent) nofun, fun _ => .refl traces⟩
  | noteRelease =>
    exact Traces.uses_annotate ({ · with released := true }) (fun _ => rfl)
      (fun _ => rfl) fun _ => rfl
  | noteEscape =>
    exact Traces.uses_annotate ({ · with escaped := true }) (fun _ => rfl)
      (fun _ => rfl) fun _ => rfl
  | isSurelyBound | isSurelyUnbound =>
    unfold run
    rw [ends_bind, ends_get, ends_discard, ends_ofExcept]
    exact ⟨fun _ _ => .refl traces, fun _ _ => .refl traces⟩

/-- In a sound session no operation loses a note of use, and all leave settled tables settled. -/
theorem Sound.ends_uses (sound : session.Sound) (op : Op) :
    Ends (perform op) session (fun _ after => session.state.traces.Uses after.state.traces)
      fun _ after => session.state.traces.Uses after.state.traces := by
  cases op with
  | openScope | fork | assumeDynamicNames | signal | enter =>
    exact Traces.Uses.refl session.state.traces
  | atScope number op =>
    cases found : session.scopes[number]? with
    | none =>
      unfold perform
      rw [ends_bind, ends_get, found]
      exact .refl session.state.traces
    | some scope =>
      rw [Session.ends_atScope found]
      have soundSite : Site.Sound ⟨scope, session.state⟩ :=
        ⟨sound.state, sound.scopes scope (List.mem_of_getElem? found)⟩
      by_cases nothing : ∃ numbers, op = .join numbers ∧ paths session.scopes numbers = []
      · obtain ⟨numbers, rfl, empty⟩ := nothing
        change Ends (Site.join (paths session.scopes numbers)) _ _ _
        rw [empty]
        exact Traces.Uses.refl session.state.traces
      · exact Ends.mono
          (ScopeOp.holds_run soundSite (fun other mem => ⟨sound.state, sound.scopes other mem⟩) op
            fun numbers joins empty => nothing ⟨numbers, joins, empty⟩)
          (fun _ _ told => told.1.grows.uses) fun _ _ fell => fell.1.grows.uses
  | atKey key op => exact ends_focus.2 (op.ends_uses sound.state.traces key)
  | leave =>
    change session.state.traces.Uses session.leave.state.traces
    unfold Session.leave
    split <;> exact .refl _
  | take kind =>
    unfold perform
    rw [ends_bind, ends_get]
    split
    · exact Traces.Uses.refl session.state.traces
    · rename_i caught _ _ _
      rw [ends_bind, ends_focus]
      refine (Analysis.ends_takeExits caught).mono ?_ fun _ _ impossible => impossible.elim
      rintro snapshots after (⟨-, -, rfl⟩ | ⟨-, -, rfl⟩) <;> exact Traces.Uses.refl
        session.state.traces

theorem Sound.settled_run (sound : session.Sound) (settled : session.state.traces.Settled)
    (ops : List Op) :
    (session.run ops).state.traces.Settled := by
  induction ops generalizing session with
  | nil => exact settled
  | cons op rest ih =>
    have uses := after_of_ends (fun after => session.state.traces.Uses after.state.traces)
      (sound.ends_uses op)
    exact ih (sound.after op) (uses.settled settled)

/-- After whatever was done in a session, the flags are exact. -/
theorem exact_run (vars : Variables) (options : Options) (ops : List Op) :
    ((start vars options).run ops).state.traces.Exact where
  settled := (sound_start vars options).settled_run .empty ops
  grounded := grounded_habit.run (start vars options) ops Traces.Exact.empty.grounded

/-- Flags are exactly reachability. In whatever state a session has come to, a recorded version is
flagged if and only if there is a counted read of a transparent version of the same variable, and a
chain of one or more links from it back to the version with nothing but transparent versions in
between. A read of a recorded version succeeds and counts at that version alone; and a row of them
leaves the same table, flags included, in every order. -/
theorem flags_tell_reached (vars : Variables) (options : Options) (ops : List Op) :
    let traces := ((start vars options).run ops).state.traces
    (∀ (key : TraceKey) (trace : Trace), traces[key]? = some trace →
      (trace.mayBeRead = true ↔ ∃ reader, traces.IsCounted ⟨key.var, reader⟩ ∧ Relation.TransGen (traces.PassesTo key.var) reader key.version)) ∧
    (∀ key ∈ traces, ∃ after, Traces.noteRead key traces = .ok ⟨⟩ after ∧ traces.CountsReads after [key]) ∧
    ∀ keys others : List TraceKey, keys.Perm others → (∀ key ∈ keys, key ∈ traces) →
      ∃ after, keys.forM Traces.noteRead traces = .ok ⟨⟩ after ∧ others.forM Traces.noteRead traces = .ok ⟨⟩ after := by
  intro traces
  have linked : traces.Linked := ((sound_start vars options).run ops).state.traces.linked
  have exactly : traces.Exact := exact_run vars options ops
  refine ⟨fun key trace found => exactly.mayBeRead_iff found, fun key recorded => ?_, fun keys others same recorded => ?_⟩
  · obtain ⟨⟨⟩, after, read, counts⟩ := (Traces.ends_noteRead_counts linked recorded).exists_ok
    exact ⟨after, read, counts⟩
  · exact Traces.forM_noteRead_perm linked exactly same recorded

/-- A local `x` of which no version was handed out. -/
def forgottenVars : Variables := ⟨#[⟨"x", .localSlot, false, 0⟩]⟩

/-- `x` is assigned and forgotten twice, and then its last version is read. -/
def forgottenOps : List Op :=
  [.openScope "body", .atScope 0 (.assign 0 7), .atScope 0 (.forget 0), .atScope 0 (.forget 0), .atKey ⟨0, 3⟩ .noteRead]

/-- The read reaches the assigned version through an unknown one, and may be repeated together with
one of the entry version, in either order. -/
theorem forgotten_flagged :
    (∃ reader, ((start forgottenVars {}).run forgottenOps).state.traces.IsCounted ⟨0, reader⟩ ∧
      Relation.TransGen (((start forgottenVars {}).run forgottenOps).state.traces.PassesTo 0) reader 1) ∧
    ∃ after, [⟨0, 3⟩, ⟨0, 0⟩].forM Traces.noteRead ((start forgottenVars {}).run forgottenOps).state.traces = .ok ⟨⟩ after ∧
      [⟨0, 0⟩, ⟨0, 3⟩].forM Traces.noteRead ((start forgottenVars {}).run forgottenOps).state.traces = .ok ⟨⟩ after := by
  obtain ⟨tell, -, reorder⟩ := flags_tell_reached forgottenVars {} forgottenOps
  have found : ((start forgottenVars {}).run forgottenOps).state.traces[(⟨0, 1⟩ : TraceKey)]? =
      some ⟨.assigned 7 0, 0, true, false, false⟩ := by decide +kernel
  exact ⟨(tell ⟨0, 1⟩ _ found).1 rfl, reorder _ _ (.swap ..) (by decide +kernel)⟩

end Session

end ValueFlow
