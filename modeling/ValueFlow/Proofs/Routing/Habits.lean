import ValueFlow.Proofs.Routing.Session

/-!
# Habits of whole sessions

If all that counts for a habit is the log and the counters, then it is kept by whatever is done in a
session, whether it succeeds or fails, walks among it (`Analysis.LogHabit.after`).
-/

namespace ValueFlow
set_option autoImplicit false

/-- A working habit for which only the log and the counters count. -/
structure Analysis.LogHabit (related : Analysis → Analysis → Prop) : Prop extends Analysis.WorkingHabit related where
  ofLog : ∀ {before after : Analysis}, after.traces = before.traces → after.vars = before.vars → related before after

/-- The discipline that asks for a relation of states, and for nothing else. -/
def Discipline.ofHabit (related : Analysis → Analysis → Prop) : Discipline where
  good _ _ := True
  grows := related
  fault _ := True
  region := .everything

namespace Analysis.LogHabit

variable {related : Analysis → Analysis → Prop} (habit : Analysis.LogHabit related)

include habit

/-- A habit of the log is one of all walks. -/
theorem law : (Discipline.ofHabit related).Law :=
  habit.toWorkingHabit.law (fun _ _ => trivial) (fun _ => trivial)
    (fun {before _} caught grows =>
      habit.trans (habit.ofLog rfl rfl : related before (before.inside caught))
      (habit.trans grows (habit.ofLog rfl rfl)))
    (habit.ofLog rfl rfl) fun _ _ => habit.ofLog rfl rfl

/-- Every operation at a scope keeps the habit. -/
theorem keeps_run (scopes : List Scope) (op : Session.ScopeOp) :
    Site.Keeps related (op.run scopes) := by
  have keeps {act : SiteM Unit} (obeys : (Discipline.ofHabit related).Obeys .ofSite act) :
      Site.Keeps related act := fun site => Ends.mono (obeys site ⟨trivial, trivial⟩)
    (fun _ _ told => told.1.grows) fun _ _ fell => fell.1.grows
  by_cases exits : ∃ kind, op = .exit kind
  · obtain ⟨kind, rfl⟩ := exits
    exact keeps (habit.law.exit kind)
  · by_cases still : op.walks = false
    · exact op.keeps_run habit.toWorkingHabit scopes still fun kind same => exits ⟨kind, same⟩
    · cases op with
      | walkExpr arena id =>
        exact keeps (Session.obeys_overArena (Discipline.yields_walkExpr habit.law trivial)
          (Region.everything_encloses arena))
      | walkStmt arena id =>
        exact keeps (Session.obeys_overArena (Discipline.yields_walkStmt habit.law trivial)
          (Region.everything_encloses arena))
      | walkBody arena kind body =>
        have parks : (Discipline.ofHabit related).Parks .ret := fun _ _ _ _ _ _ _ => trivial
        exact keeps (Session.obeys_overArena
          (Discipline.yields_walkBody habit.law kind trivial parks)
          (Region.everything_encloses arena))
      | _ => exact absurd rfl still

/-- Every operation on the log at a key keeps the habit. -/
theorem keeps_atKey (key : TraceKey) (op : Session.KeyOp) (state : Analysis) :
    Ends (op.run key) state.traces (fun _ traces => related state { state with traces })
      fun _ traces => related state { state with traces } := by
  cases op with
  | find =>
    unfold Session.KeyOp.run
    rw [ends_discard, Traces.ends_find]
    exact ⟨fun _ _ => habit.refl state, fun _ => habit.refl state⟩
  | noteRead => exact ends_liftTraces.1 (habit.noteRead key state)
  | noteRelease => exact ends_liftTraces.1 (habit.noteRelease key state)
  | noteEscape => exact ends_liftTraces.1 (habit.noteEscape key state)
  | isSurelyBound | isSurelyUnbound =>
    unfold Session.KeyOp.run
    rw [ends_bind, ends_get, ends_discard, ends_ofExcept]
    exact ⟨fun _ _ => habit.refl state, fun _ _ => habit.refl state⟩

/-- Every operation of a session keeps the habit, whether it succeeds or fails. -/
theorem after (session : Session) (op : Session.Op) :
    related session.state (session.after op).state := by
  refine Session.after_of_ends (fun after => related session.state after.state) ?_
  cases op with
  | openScope | fork => exact habit.refl session.state
  | atScope number op =>
    cases found : session.scopes[number]? with
    | none =>
      unfold Session.perform
      rw [ends_bind, ends_get, found]
      exact habit.refl session.state
    | some scope =>
      rw [Session.ends_atScope found]
      exact habit.keeps_run session.scopes op ⟨scope, session.state⟩
  | atKey key op => exact ends_focus.2 (habit.keeps_atKey key op session.state)
  | assumeDynamicNames | signal | enter => exact habit.ofLog rfl rfl
  | leave =>
    change related session.state session.leave.state
    unfold Session.leave
    split
    · exact habit.refl _
    · exact habit.ofLog rfl rfl
  | take kind =>
    unfold Session.perform
    rw [ends_bind, ends_get]
    split
    · exact habit.refl session.state
    · rename_i caught _ _ _
      rw [ends_bind, ends_focus]
      refine (Analysis.ends_takeExits caught).mono ?_ fun _ _ impossible => impossible.elim
      rintro snapshots after (⟨-, -, rfl⟩ | ⟨-, -, rfl⟩)
      · exact habit.ofLog rfl rfl
      · exact habit.refl _

/-- From any session to what a row of operations makes of it. -/
theorem run (session : Session) (ops : List Session.Op) :
    related session.state (session.run ops).state := by
  induction ops generalizing session with
  | nil => exact habit.refl _
  | cons op rest ih => exact habit.trans (habit.after session op) (ih _)

end Analysis.LogHabit

end ValueFlow
