import ValueFlow.Proofs.Numbering.Basic
import ValueFlow.Proofs.Numbering.InStep

/-!
# Operations at a scope under other numbers

From states that are the same but for the numbers of versions, every operation on the log, on the
state and at a scope is in step with itself: versions are only compared, copied, looked up and
counted on.
-/

namespace ValueFlow
set_option autoImplicit false

namespace Traces

variable {traces : Traces} {var : VarId} {version : Version} {rest : List Version}

theorem flagFrom_missing (absent : traces[(⟨var, version⟩ : TraceKey)]? = none) :
    flagFrom var (version :: rest) traces = .error (.missingTrace ⟨var, version⟩) traces := by
  rw [flagFrom]
  split <;> simp_all

theorem flagFrom_flagged {trace : Trace}
    (found : traces[(⟨var, version⟩ : TraceKey)]? = some trace) (flagged : trace.mayBeRead = true) :
    flagFrom var (version :: rest) traces = flagFrom var rest traces := by
  rw [flagFrom]
  split <;> simp_all

theorem flagFrom_fresh {trace : Trace} (found : traces[(⟨var, version⟩ : TraceKey)]? = some trace)
    (fresh : ¬ trace.mayBeRead = true) :
    flagFrom var (version :: rest) traces =
      flagFrom var (trace.flagsOn ++ rest)
        (traces.insert ⟨var, version⟩ { trace with mayBeRead := true }) := by
  rw [flagFrom]
  split <;> simp_all

end Traces

namespace Numbering

theorem rel_none {α β : Type} {same : α → β → Prop} {image : Option β}
    (related : Option.Rel same none image) : image = none := by
  cases related
  rfl

theorem rel_some {α β : Type} {same : α → β → Prop} {value : α} {image : Option β}
    (related : Option.Rel same (some value) image) :
    ∃ other, image = some other ∧ same value other := by
  cases related with
  | some here => exact ⟨_, rfl, here⟩

variable {numbering : Numbering}

section Log

variable {var : VarId} {version other : Version}

theorem find (same : numbering.Same var version other) :
    InStep numbering.SameTraces (Traces.find ⟨var, version⟩) (Traces.find ⟨var, other⟩)
      (Trace.Same (numbering.Same var)) := by
  refine .get_bind fun left right traces => ?_
  have held := traces.found same
  revert held
  generalize left[(⟨var, version⟩ : TraceKey)]? = trace
  generalize right[(⟨var, other⟩ : TraceKey)]? = image
  intro held
  cases held with
  | some here => exact .pure here
  | none => exact .throw (.inr ⟨rfl, rfl⟩)

theorem record (same : numbering.Same var version other) {origin image : Origin}
    (related : Origin.Same (numbering.Same var) origin image) :
    InStep numbering.SameTraces (Traces.record ⟨var, version⟩ origin)
      (Traces.record ⟨var, other⟩ image) fun _ _ => True := by
  refine .get_bind fun left right traces => ?_
  have known : right.contains ⟨var, other⟩ = left.contains ⟨var, version⟩ := by
    rw [Bool.eq_iff_iff, Std.ExtTreeMap.contains_iff_mem, Std.ExtTreeMap.contains_iff_mem,
      traces.mem_iff same]
  rw [known]
  split
  · exact .throw (.inr ⟨rfl, rfl⟩)
  · exact .modify fun _ _ traces => traces.insert same (.ofOrigin related)

theorem annotate (same : numbering.Same var version other) (note : Trace → Trace)
    (keeps : ∀ {trace image}, Trace.Same (numbering.Same var) trace image →
      Trace.Same (numbering.Same var) (note trace) (note image)) :
    InStep numbering.SameTraces (Traces.annotate ⟨var, version⟩ note)
      (Traces.annotate ⟨var, other⟩ note) fun _ _ => True :=
  (find same).bind fun _ _ here => .modify fun _ _ traces => traces.insert same (keeps here)

/-- Flags pass on alike, from stacks that correspond. -/
theorem flagFrom {stack others : List Version}
    (same : List.Forall₂ (numbering.Same var) stack others) :
    InStep numbering.SameTraces (Traces.flagFrom var stack) (Traces.flagFrom var others)
      fun _ _ => True := by
  intro left right traces
  fun_induction Traces.flagFrom var stack left generalizing others right with
  | case1 left =>
    cases same with
    | nil =>
      rw [Traces.flagFrom]
      exact ⟨trivial, traces⟩
  | case2 version rest left absent =>
    cases same with
    | @cons _ other _ rest here later =>
      have held := traces.found here
      rw [absent] at held
      rw [Traces.flagFrom_missing (rel_none held)]
      exact ⟨.inr ⟨rfl, rfl⟩, traces⟩
  | case3 version rest left trace found flagged ih =>
    cases same with
    | @cons _ other _ rest here later =>
      have held := traces.found here
      rw [found] at held
      obtain ⟨image, foundRight, related⟩ := rel_some held
      rw [Traces.flagFrom_flagged foundRight (related.mayBeRead.trans flagged)]
      exact ih later right traces
  | case4 version rest left trace found fresh ih =>
    cases same with
    | @cons _ other _ rest here later =>
      have held := traces.found here
      rw [found] at held
      obtain ⟨image, foundRight, related⟩ := rel_some held
      rw [Traces.flagFrom_fresh foundRight fun flagged =>
        fresh (related.mayBeRead.symm.trans flagged)]
      exact ih (List.rel_append related.flagsOn later) _
        (traces.insert here { related with mayBeRead := rfl })

theorem noteRead (same : numbering.Same var version other) :
    InStep numbering.SameTraces (Traces.noteRead ⟨var, version⟩) (Traces.noteRead ⟨var, other⟩)
      fun _ _ => True := by
  refine (find same).bind fun trace image here => ?_
  refine (InStep.modify fun _ _ traces => traces.insert same ?_).bind fun _ _ _ =>
    flagFrom here.flagsOn
  exact { here with reads := congrArg (· + 1) here.reads }

/-- Both give the same answer, or faults that agree. -/
inductive SameAnswers : Except Fault Bool → Except Fault Bool → Prop
  | ok {answer image : Bool} (told : image = answer) : SameAnswers (.ok answer) (.ok image)
  | error {fault other : Fault} (agrees : fault.Agrees other) : SameAnswers (.error fault) (.error other)

theorem allM_same {versions others : List Version} {test testRight : Version → Except Fault Bool}
    (related : List.Forall₂ (numbering.Same var) versions others)
    (each : ∀ version ∈ versions, ∀ other, numbering.Same var version other →
      SameAnswers (test version) (testRight other)) :
    SameAnswers (versions.allM test) (others.allM testRight) := by
  induction related with
  | nil => exact .ok rfl
  | @cons version other rest restRight here _ ih =>
    have first := each version List.mem_cons_self other here
    have later := ih fun version mem => each version (List.mem_cons_of_mem _ mem)
    rw [List.allM, List.allM]
    revert first
    generalize test version = answer
    generalize testRight other = image
    intro first
    cases first with
    | @ok answer image told =>
      subst told
      cases image with
      | true => exact later
      | false => exact .ok rfl
    | error agrees => exact .error agrees

/-- What is asked of all leaves of a version is answered alike, if it does not depend on
versions. -/
theorem everyLeaf {holds : Origin → Bool}
    (alike : ∀ {origin image}, Origin.Same (numbering.Same var) origin image →
      holds image = holds origin)
    {left right : Traces} (traces : numbering.SameTraces left right)
    (same : numbering.Same var version other) :
    SameAnswers (left.everyLeaf holds var version) (right.everyLeaf holds var other) := by
  induction version using Nat.strongRecOn generalizing other with
  | ind version ih =>
    have held := traces.found same
    rw [Traces.everyLeaf, Traces.everyLeaf]
    revert held
    generalize left[(⟨var, version⟩ : TraceKey)]? = trace
    generalize right[(⟨var, other⟩ : TraceKey)]? = image
    intro held
    cases held with
    | none => exact .error (.inr ⟨rfl, rfl⟩)
    | @some trace image related =>
      have told := related.origin
      revert told
      dsimp only
      generalize trace.origin = origin
      generalize image.origin = originRight
      intro told
      cases told with
      | joined sources =>
        refine allM_same sources fun source _ sourceRight sameSource => ?_
        by_cases older : source < version
        · rw [dif_pos older, dif_pos ((sameSource.lt_iff same).2 older)]
          exact ih source older sameSource
        · rw [dif_neg older, dif_neg fun olderRight =>
            older ((sameSource.lt_iff same).1 olderRight)]
          exact .ok rfl
      | unbound here => exact .ok (alike (.unbound here))
      | bound => exact .ok (alike .bound)
      | unknown here => exact .ok (alike (.unknown here))
      | assigned node here => exact .ok (alike (.assigned node here))

end Log

section State

theorem SameSlots.storage {var : VarId} {slot other : Variable}
    (slots : numbering.SameSlots var slot other) : other.storage = slot.storage := by
  obtain ⟨count, -, rfl⟩ := slots
  rfl

theorem SameSlots.mayBeRebound {var : VarId} {slot other : Variable}
    (slots : numbering.SameSlots var slot other) (options : Options) :
    other.mayBeRebound options = slot.mayBeRebound options := by
  obtain ⟨count, -, rfl⟩ := slots
  rfl

/-- Operations on the log are operations on the state. -/
theorem onTraces {α β : Type} {first : TracesM α} {second : TracesM β} {same : α → β → Prop}
    (inStep : InStep numbering.SameTraces first second same) :
    InStep numbering.SameStates (liftM first : AnalysisM α) (liftM second : AnalysisM β) same :=
  inStep.focus (·.traces) fun states traces => { states with traces := traces }

theorem lookup (var : VarId) :
    InStep numbering.SameStates (Analysis.lookup var) (Analysis.lookup var)
      (numbering.SameSlots var) := by
  refine .get_bind fun left right states => ?_
  have held := states.vars var
  revert held
  generalize left.vars.get? var = slot
  generalize right.vars.get? var = image
  intro held
  cases held with
  | some here => exact .pure here
  | none => exact .throw (.refl _)

theorem recordEntry (var : VarId) :
    InStep numbering.SameStates (Analysis.recordEntry var) (Analysis.recordEntry var)
      fun _ _ => True := by
  refine (lookup var).bind fun slot other slots => onTraces (record .entry ?_)
  rw [slots.storage]
  cases slot.storage with
  | parameter => exact .bound
  | localSlot | temporary => exact .unbound .none
  | maybeLocal | global => exact .unknown .none

/-- The next versions of a variable correspond. -/
theorem allocate (var : VarId) :
    InStep numbering.SameStates (Analysis.allocate var) (Analysis.allocate var)
      (numbering.Same var) := by
  refine .get_bind fun left right states => ?_
  have held := states.vars var
  cases here : left.vars.get? var with
  | none =>
    rw [here] at held
    simp only [Variables.allocate?, here, rel_none held, Option.map_none]
    exact .throw (.refl _)
  | some slot =>
    rw [here] at held
    obtain ⟨other, hereRight, count, atLeft, rfl⟩ := rel_some held
    obtain ⟨after, allocated⟩ : ∃ after, left.vars.allocate? var =
      some (slot.lastVersion + 1, after) := ⟨_, by rw [Variables.allocate?, here, Option.map_some]⟩
    obtain ⟨afterRight, allocatedRight⟩ : ∃ after, right.vars.allocate? var =
      some (numbering.right var + count + 1, after) :=
      ⟨_, by rw [Variables.allocate?, hereRight, Option.map_some]⟩
    have vars (asked : VarId) : Option.Rel (numbering.SameSlots asked) (after.get? asked)
        (afterRight.get? asked) := by
      rw [Variables.get?_of_allocate? allocated, Variables.get?_of_allocate? allocatedRight,
        here, hereRight]
      split
      · subst asked
        exact .some ⟨count + 1, congrArg (· + 1) atLeft, rfl⟩
      · exact states.vars asked
    rw [allocated, allocatedRight]
    refine (InStep.modify fun _ _ now => { now with vars := vars }).bind fun _ _ _ => .pure ?_
    rw [atLeft]
    exact .handedOut count

theorem recordNext (var : VarId) {origin image : Origin}
    (related : Origin.Same (numbering.Same var) origin image) :
    InStep numbering.SameStates (Analysis.recordNext var origin) (Analysis.recordNext var image)
      (numbering.Same var) :=
  (allocate var).bind fun _ _ same => (onTraces (record same related)).bind fun _ _ _ => .pure same

/-- Registries of which one kind is exchanged. -/
theorem sameExits_set {exits others : Exits}
    (same : ∀ kind, Option.Rel (List.Forall₂ numbering.SameScopes) (exits.get kind)
      (others.get kind))
    (kind : ExitKind) {registry image : Option (List Scope)}
    (related : Option.Rel (List.Forall₂ numbering.SameScopes) registry image) (asked : ExitKind) :
    Option.Rel (List.Forall₂ numbering.SameScopes) ((exits.set kind registry).get asked)
      ((others.set kind image).get asked) := by
  rw [Exits.get_set, Exits.get_set]
  split
  · exact related
  · exact same asked

theorem recordExit (kind : ExitKind) {scope other : Scope}
    (scopes : numbering.SameScopes scope other) :
    InStep numbering.SameStates (Analysis.recordExit kind scope) (Analysis.recordExit kind other)
      fun _ _ => True := by
  refine .get_bind fun left right states => ?_
  have held := states.exits kind
  dsimp only
  revert held
  cases left.exits.get kind with
  | none =>
    intro held
    rw [rel_none held]
    cases kind with
    | ret => exact .pure trivial
    | brk | cont => exact .throw (.refl _)
  | some snapshots =>
    intro held
    obtain ⟨others, here, related⟩ := rel_some held
    rw [here]
    refine .modify fun _ _ now => { now with exits := sameExits_set states.exits kind (.some ?_) }
    exact List.rel_append related (.cons (scopes.fork _) .nil)

theorem takeExits (caught : Catch) (kind : ExitKind) :
    InStep numbering.SameStates (Analysis.takeExits caught kind) (Analysis.takeExits caught kind)
      (List.Forall₂ numbering.SameScopes) := by
  refine .get_bind fun left right states => ?_
  have held := states.exits kind
  unfold Exits.take
  revert held
  cases left.exits.get kind with
  | none =>
    intro held
    rw [rel_none held]
    cases caught.catches kind <;>
      exact (InStep.modify fun _ _ now => { now with exits := states.exits }).bind
      fun _ _ _ => .pure .nil
  | some snapshots =>
    intro held
    obtain ⟨others, here, related⟩ := rel_some held
    rw [here]
    cases caught.catches kind with
    | true =>
      refine (InStep.modify fun _ _ now => { now with exits := ?_ }).bind fun _ _ _ => .pure related
      exact sameExits_set states.exits kind (.some .nil)
    | false =>
      exact (InStep.modify fun _ _ now => { now with exits := states.exits }).bind
        fun _ _ _ => .pure .nil

theorem assumeDynamicNames :
    InStep numbering.SameStates Analysis.assumeDynamicNames Analysis.assumeDynamicNames
      fun _ _ => True :=
  .modify fun _ _ states => { states with dynamicNames := rfl }

theorem signal (edit : Edit) (span : Span) :
    InStep numbering.SameStates (Analysis.signal edit span) (Analysis.signal edit span)
      fun _ _ => True :=
  .modify fun _ _ states => { states with edits := congrArg (·.signal edit span) states.edits }

end State

section Site

/-- Operations on the state are operations at the scope. -/
theorem onState {α β : Type} {first : AnalysisM α} {second : AnalysisM β} {same : α → β → Prop}
    (inStep : InStep numbering.SameStates first second same) :
    InStep numbering.SameSites (liftM first : SiteM α) (liftM second : SiteM β) same :=
  inStep.focus (·.state) fun sites states => ⟨sites.scope, states⟩

theorem scopeHere : InStep numbering.SameSites Site.scopeHere Site.scopeHere numbering.SameScopes :=
  .get_bind fun _ _ sites => .pure sites.scope

theorem setVersion {var : VarId} {version other : Version}
    (same : numbering.Same var version other) :
    InStep numbering.SameSites (Site.setVersion var version) (Site.setVersion var other)
      fun _ _ => True :=
  .modify fun _ _ sites => ⟨sites.scope.setVersion same, sites.state⟩

theorem currentVersion (var : VarId) :
    InStep numbering.SameSites (Site.currentVersion var) (Site.currentVersion var)
      (numbering.Same var) := by
  refine .get_bind fun left right sites => ?_
  have held := sites.scope.active var
  revert held
  generalize left.scope.active[var]? = version
  generalize right.scope.active[var]? = other
  intro held
  cases held with
  | some same => exact .pure same
  | none =>
    have known : right.analysis.traces.contains ⟨var, .entry⟩ = left.analysis.traces.contains
        ⟨var, .entry⟩ := by
      rw [Bool.eq_iff_iff, Std.ExtTreeMap.contains_iff_mem, Std.ExtTreeMap.contains_iff_mem,
        sites.state.traces.mem_iff .entry]
    dsimp only
    rw [known]
    have entered : InStep numbering.SameSites (do Site.setVersion var .entry; pure Version.entry)
        (do Site.setVersion var .entry; pure Version.entry)
        (numbering.Same var) := (setVersion .entry).bind fun _ _ _ => .pure .entry
    split
    · exact (onState (recordEntry var)).bind fun _ _ _ => entered
    · exact entered

/-- What is done with the current key of a variable. -/
theorem currentKey_bind (var : VarId) {α β : Type} {act : TraceKey → SiteM α}
    {other : TraceKey → SiteM β} {same : α → β → Prop}
    (each : ∀ {version image}, numbering.Same var version image →
      InStep numbering.SameSites (act ⟨var, version⟩) (other ⟨var, image⟩) same) :
    InStep numbering.SameSites (Site.currentKey var >>= act)
      (Site.currentKey var >>= other) same := by
  simp only [Site.currentKey, bind_assoc, pure_bind]
  exact (currentVersion var).bind fun _ _ here => each here

theorem write (var : VarId) {origin : Version → Origin}
    (related : ∀ {version other}, numbering.Same var version other →
      Origin.Same (numbering.Same var) (origin version) (origin other)) :
    InStep numbering.SameSites (Site.write var origin) (Site.write var origin)
      fun versions others => numbering.Same var versions.1 others.1 ∧
        numbering.Same var versions.2 others.2 :=
  (currentVersion var).bind fun _ _ previous => (onState (recordNext var (related previous))).bind
    fun _ _ next => (setVersion next).bind fun _ _ _ => .pure ⟨previous, next⟩

theorem assign (var : VarId) (node : NodeId) :
    InStep numbering.SameSites (Site.assign var node) (Site.assign var node) (numbering.Same var) :=
  (write var (.assigned node)).map fun _ _ versions => versions.2

theorem delete (var : VarId) :
    InStep numbering.SameSites (Site.delete var) (Site.delete var) numbering.SameKeys :=
  (write var fun here => .unbound (.some here)).map fun _ _ versions => ⟨rfl, versions.1⟩

theorem forget (var : VarId) :
    InStep numbering.SameSites (Site.forget var) (Site.forget var) (numbering.Same var) :=
  (write var fun here => .unknown (.some here)).map fun _ _ versions => versions.2

theorem release (var : VarId) :
    InStep numbering.SameSites (Site.release var) (Site.release var) numbering.SameKeys :=
  currentKey_bind var fun same =>
    (onState (onTraces (annotate same ({ · with released := true }) fun related =>
          { related with released := rfl }))).bind fun _ _ _ => .pure ⟨rfl, same⟩

theorem read (var : VarId) :
    InStep numbering.SameSites (Site.read var) (Site.read var) fun _ _ => True :=
  currentKey_bind var fun same => onState (onTraces (noteRead same))

theorem escape (var : VarId) :
    InStep numbering.SameSites (Site.escape var) (Site.escape var) fun _ _ => True := by
  refine (onState (lookup var)).bind fun slot other slots => .get_bind fun left right sites => ?_
  rw [slots.mayBeRebound, sites.state.options]
  split
  · exact (forget var).discard
  · exact .pure trivial

theorem escapeAll : InStep numbering.SameSites Site.escapeAll Site.escapeAll fun _ _ => True := by
  refine scopeHere.bind fun scope other scopes => ?_
  rw [scopes.activeVars]
  exact .forM_same escape

theorem forgetAll (vars : List VarId) :
    InStep numbering.SameSites (Site.forgetAll vars) (Site.forgetAll vars) fun _ _ => True :=
  .forM_same fun var => (forget var).discard

theorem joinVersions (var : VarId) {versions others : List Version}
    (related : List.Forall₂ (numbering.Same var) versions others) :
    InStep numbering.SameSites (Site.joinVersions var versions) (Site.joinVersions var others)
      fun _ _ => True := by
  have several : InStep numbering.SameSites
      (do versions.forM fun version => discard <| Traces.find ⟨var, version⟩
          Site.setVersion var (← Analysis.recordNext var (.joined versions)))
      (do others.forM fun version => discard <| Traces.find ⟨var, version⟩
          Site.setVersion var (← Analysis.recordNext var (.joined others)))
      fun _ _ => True :=
    (InStep.forM related fun _ _ same => (onState (onTraces (find same))).discard).bind fun _ _ _ =>
      (onState (recordNext var (.joined related))).bind fun _ _ same => setVersion same
  cases related with
  | nil => exact several
  | cons here rest =>
    cases rest with
    | nil => exact setVersion here
    | cons _ _ => exact several

theorem join {paths others : List Scope}
    (related : List.Forall₂ numbering.SameScopes paths others) :
    InStep numbering.SameSites (Site.join paths) (Site.join others) fun _ _ => True := by
  cases related with
  | nil => exact .throw (.refl _)
  | cons here rest =>
    cases rest with
    | nil => exact .modify fun _ _ sites => ⟨sites.scope.adopt here, sites.state⟩
    | cons second rest =>
      have related := List.Forall₂.cons here (.cons second rest)
      refine (InStep.modify fun _ _ sites => ⟨sites.scope.label ▸ .fresh _, sites.state⟩).bind
        fun _ _ _ => ?_
      rw [varsOf_same related]
      exact .forM_same fun var => joinVersions var (versionsOf_same related var)

theorem joinArms {yes no otherYes otherNo : Option Scope}
    (yesSame : Option.Rel numbering.SameScopes yes otherYes)
    (noSame : Option.Rel numbering.SameScopes no otherNo) :
    InStep numbering.SameSites (Site.joinArms yes no) (Site.joinArms otherYes otherNo)
      fun _ _ => True := by
  cases yesSame with
  | none =>
    cases noSame with
    | none => exact .pure trivial
    | some path => exact scopeHere.bind fun _ _ here => join (.cons here (.cons path .nil))
  | some pathYes =>
    cases noSame with
    | none => exact scopeHere.bind fun _ _ here => join (.cons here (.cons pathYes .nil))
    | some pathNo => exact join (.cons pathYes (.cons pathNo .nil))

end Site

end Numbering

end ValueFlow
