import ValueFlow.Proofs.Discipline.Habit
import ValueFlow.Proofs.Discipline.Walk

/-!
# What becomes of the registries

The operations at a scope leave the exit registries alone, but for an exit, which adds a snapshot to
one of them. Walks open registries for the constructs they come across and close them again, so
behind a walk, wherever it ended, a registry holds what it held before and perhaps more behind
(`Exits.Extended`). That is a discipline of all walks (`routing_law`).
-/

namespace ValueFlow
set_option autoImplicit false

/-- Every registry holds what it held and perhaps more snapshots behind, and none was opened or
closed. -/
def Exits.Extended (before after : Exits) : Prop := ∀ kind, ∃ more, after.get kind = (before.get kind).map (· ++ more)

namespace Exits.Extended

variable {first second third : Exits}

theorem refl (exits : Exits) : exits.Extended exits := fun kind => ⟨[], by simp⟩

theorem of_eq (same : second = first) : first.Extended second := by
  rw [same]
  exact .refl first

theorem trans (early : first.Extended second) (late : second.Extended third) :
    first.Extended third := by
  intro kind
  obtain ⟨some_, held⟩ := early kind
  obtain ⟨more, holds⟩ := late kind
  refine ⟨some_ ++ more, ?_⟩
  rw [holds, held, Option.map_map]
  simp [Function.comp_def]

/-- Behind a construct the registries of the kinds it caught are as before, and the others are as
inside. -/
theorem behind {caught : Catch} {inner outer : Exits}
    (inside : (outer.enter caught).Extended inner) :
    outer.Extended (inner.leave caught outer) := by
  intro kind
  obtain ⟨more, held⟩ := inside kind
  rw [Exits.get_enter] at held
  rw [Exits.get_leave]
  by_cases catches : caught.catches kind = true
  · exact ⟨[], by simp [catches]⟩
  · rw [if_neg catches] at held ⊢
    exact ⟨more, held⟩

end Exits.Extended

/-- A snapshot was added to an open registry. -/
theorem Analysis.extended_withSnapshots {state : Analysis} {kind : ExitKind}
    {snapshots : List Scope} (opened : state.exits.get kind = some snapshots) (more : List Scope) :
    state.exits.Extended (state.withSnapshots kind (snapshots ++ more)).exits := by
  intro other
  rw [get_withSnapshots]
  by_cases same : other = kind
  · subst same
    exact ⟨more, by simp [opened]⟩
  · exact ⟨[], by simp [same]⟩

/-- The log and the counters have nothing to do with the registries. -/
theorem Exits.habit : Analysis.Habit fun before after => after.exits = before.exits where
  refl _ := rfl
  trans early late := late.trans early
  recordEntry _ _ := Analysis.ends_recordEntry_of rfl fun _ _ _ => rfl
  recordNext _ _ _ := Analysis.ends_recordNext_of rfl fun _ _ _ => ⟨rfl, fun _ => rfl⟩
  noteRead _ _ := ends_liftTraces.2 ((ends_reached _ _).mono (fun _ _ _ => rfl) fun _ _ _ => rfl)
  noteRelease _ _ := ends_liftTraces.2 ((ends_reached _ _).mono (fun _ _ _ => rfl) fun _ _ _ => rfl)
  noteEscape _ _ := ends_liftTraces.2 ((ends_reached _ _).mono (fun _ _ _ => rfl) fun _ _ _ => rfl)

/-- Registries only gain snapshots, and none is opened or closed. -/
def routing : Discipline where
  good _ _ := True
  grows before after := before.exits.Extended after.exits
  fault _ := True
  region := .everything

theorem routing_parks (kind : ExitKind) : routing.Parks kind := fun _ _ _ _ _ _ _ => trivial

/-- Whatever an operation of an analysis does to the registries, it only adds snapshots to them. -/
theorem routing_law : routing.Law :=
  Analysis.WorkingHabit.law (Exits.habit.widen .of_eq .trans).toWorkingHabit (fun _ _ => trivial)
    (fun _ => trivial) (fun _ grows => .behind grows) (fun {state} => .refl state.exits)
    fun _ opened => Analysis.extended_withSnapshots opened _

end ValueFlow
