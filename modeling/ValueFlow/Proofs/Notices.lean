import ValueFlow.Proofs.Ends
import ValueFlow.Scope.Escape
import ValueFlow.Scope.Join

/-!
# Who gives notice

Notice of an edit is given by the walk alone. The operations on a scope and on the state behind it
are discreet: wherever they end, well or with a fault, the log of edits is the one from before.
-/

namespace ValueFlow
set_option autoImplicit false

/-- From no state does the computation give notice of an edit. -/
def Discreet {σ α : Type} (log : σ → EditLog) (act : EStateM Fault σ α) : Prop :=
  ∀ state, Ends act state (fun _ after => log after = log state) fun _ after => log after = log state

namespace Discreet

variable {σ α β : Type} {log : σ → EditLog} {act : EStateM Fault σ α}

theorem pure (value : α) : Discreet log (Pure.pure value : EStateM Fault σ α) := fun _ => rfl

theorem throw (fault : Fault) : Discreet log (MonadExcept.throw fault : EStateM Fault σ α) :=
  fun _ => rfl

theorem modify {change : σ → σ} (kept : ∀ state, log (change state) = log state) :
    Discreet log (modify change : EStateM Fault σ PUnit) := kept

theorem bind {next : α → EStateM Fault σ β} (first : Discreet log act)
    (rest : ∀ value, Discreet log (next value)) :
    Discreet log (act >>= next) := by
  intro state
  refine ends_bind.2 ((first state).mono (fun value middle early => ?_) fun _ _ fell => fell)
  exact (rest value middle).mono (fun _ _ late => late.trans early) fun _ _ late => late.trans early

theorem get_bind {next : σ → EStateM Fault σ β} (rest : ∀ state, Discreet log (next state)) :
    Discreet log (get >>= next) :=
  fun state => ends_bind.2 (ends_get.2 (rest state state))

theorem discard (discreet : Discreet log act) : Discreet log (discard act) :=
  fun state => ends_discard.2 (discreet state)

theorem forM {f : α → EStateM Fault σ PUnit} (each : ∀ value, Discreet log (f value))
    (list : List α) : Discreet log (list.forM f) := by
  induction list with
  | nil => exact .pure _
  | cons head tail ih => exact .bind (each head) fun _ => ih

theorem liftTraces (act : TracesM α) :
    Discreet Analysis.edits (liftM act : AnalysisM α) := fun state =>
  ends_liftTraces.2 ((ends_reached act state.traces).mono (fun _ _ _ => rfl) fun _ _ _ => rfl)

theorem liftAnalysis {act : AnalysisM α} (discreet : Discreet Analysis.edits act) :
    Discreet (·.analysis.edits) (liftM act : SiteM α) := fun site =>
  ends_liftAnalysis.2 (discreet site.analysis)

theorem liftTracesSite (act : TracesM α) : Discreet (·.analysis.edits) (liftM act : SiteM α) :=
  .liftAnalysis (.liftTraces act)

end Discreet

namespace Analysis

theorem discreet_lookup (var : VarId) : Discreet edits (lookup var) :=
  .get_bind fun state => by
    cases state.vars.get? var with
    | none => exact .throw _
    | some slot => exact .pure slot

theorem discreet_recordEntry (var : VarId) : Discreet edits (recordEntry var) :=
  .bind (discreet_lookup var) fun _ => .liftTraces _

theorem discreet_allocate (var : VarId) : Discreet edits (allocate var) :=
  .get_bind fun state => by
    cases state.vars.allocate? var with
    | none => exact .throw _
    | some next => exact .bind (.modify fun _ => rfl) fun _ => .pure _

theorem discreet_recordNext (var : VarId) (origin : Origin) :
    Discreet edits (recordNext var origin) :=
  .bind (discreet_allocate var) fun _ => .bind (.liftTraces _) fun _ => .pure _

theorem discreet_recordExit (kind : ExitKind) (scope : Scope) :
    Discreet edits (recordExit kind scope) :=
  .get_bind fun state => by
    dsimp only
    split
    · exact .modify fun _ => rfl
    · exact .pure _
    · exact .throw _

end Analysis

namespace Site

/-- An operation on a site is discreet. -/
abbrev IsDiscreet {α : Type} (act : SiteM α) : Prop := Discreet (fun site : Site => site.analysis.edits) act

variable (var : VarId)

theorem discreet_setVersion (version : Version) : IsDiscreet (setVersion var version) :=
  .modify fun _ => rfl

theorem discreet_currentVersion : IsDiscreet (currentVersion var) :=
  .get_bind fun site => by
    dsimp only
    split
    · exact .pure _
    · have entered : IsDiscreet
          (setVersion var .entry >>= fun _ => (pure .entry : SiteM Version)) :=
        .bind (discreet_setVersion var .entry) fun _ => .pure _
      split
      · exact .bind (.liftAnalysis (Analysis.discreet_recordEntry var)) fun _ => entered
      · exact entered

theorem discreet_currentKey : IsDiscreet (currentKey var) :=
  .bind (discreet_currentVersion var) fun _ => .pure _

theorem discreet_write (origin : Version → Origin) : IsDiscreet (write var origin) :=
  .bind (discreet_currentVersion var) fun _ =>
    .bind (.liftAnalysis (Analysis.discreet_recordNext var _)) fun version =>
    .bind (discreet_setVersion var version) fun _ => .pure _

theorem discreet_assign (node : NodeId) : IsDiscreet (assign var node) :=
  .bind (discreet_write var _) fun _ => .pure _

theorem discreet_delete : IsDiscreet (delete var) := .bind (discreet_write var _) fun _ => .pure _

theorem discreet_forget : IsDiscreet (forget var) := .bind (discreet_write var _) fun _ => .pure _

theorem discreet_release : IsDiscreet (release var) :=
  .bind (discreet_currentKey var) fun _ => .bind (.liftTracesSite _) fun _ => .pure _

theorem discreet_read : IsDiscreet (read var) :=
  .bind (discreet_currentKey var) fun _ => .liftTracesSite _

theorem discreet_escape : IsDiscreet (escape var) :=
  .bind (.liftAnalysis (Analysis.discreet_lookup var)) fun _ => .get_bind fun _ => by
    split
    · exact .discard (discreet_forget var)
    · exact .pure _

theorem discreet_escapeAll : IsDiscreet escapeAll := .get_bind fun _ => .forM discreet_escape _

theorem discreet_forgetAll (vars : List VarId) : IsDiscreet (forgetAll vars) :=
  .forM (fun var => .discard (discreet_forget var)) vars

theorem discreet_joinVersions (versions : List Version) :
    IsDiscreet (joinVersions var versions) := by
  unfold joinVersions
  split
  · exact discreet_setVersion var _
  · refine .bind (.forM (fun version => .discard (.liftTracesSite _)) _) fun _ => ?_
    exact .bind (.liftAnalysis (Analysis.discreet_recordNext var _)) fun version =>
      discreet_setVersion var version

theorem discreet_join (paths : List Scope) : IsDiscreet (join paths) := by
  unfold join
  split
  · exact .throw _
  · exact .modify fun _ => rfl
  · exact .bind (.modify fun _ => rfl) fun _ => .forM (fun var => discreet_joinVersions var _) _

end Site

end ValueFlow
