import ValueFlow.Proofs.Integrity.Session
import ValueFlow.Proofs.Routing.Frames
import ValueFlow.Proofs.Routing.Registries

/-!
# Where exits go

The frames of a session follow from what was done in it: a construct that is entered opens one, an
exit is delivered to the innermost one that catches its kind, a take empties the innermost one of
one kind, and a construct that is left takes its frame along (`Session.framesAfter`). After whatever
was done, and whatever of it failed, the registries hold what the frames say
(`Session.exits_routed`).
-/

namespace ValueFlow
set_option autoImplicit false

/-- The snapshots of a kind that were added to the registries. -/
def Exits.gained (before after : Exits) (kind : ExitKind) : List Scope :=
  ((after.get kind).getD []).drop ((before.get kind).getD []).length

theorem Exits.Extended.gained {before after : Exits} (extended : before.Extended after)
    (kind : ExitKind) :
    after.get kind = (before.get kind).map (· ++ before.gained after kind) := by
  obtain ⟨more, held⟩ := extended kind
  unfold Exits.gained
  cases opened : before.get kind with
  | none => simpa [opened] using held
  | some snapshots => simp [held, opened]

namespace Session

/-- The operation walks an arena. -/
def ScopeOp.walks : ScopeOp → Bool
  | .walkExpr _ _ => true
  | .walkStmt _ _ => true
  | .walkBody _ _ _ => true
  | _ => false

/-- The snapshots that an operation hands to the open constructs: an exit that of its scope, a walk
those that it adds to the registries, and any other operation none. -/
def delivered (session : Session) : Op → ExitKind → List Scope
  | .atScope number (.exit kind), other =>
    if other = kind then (session.scopes[number]?.map (·.fork kind.snapshotLabel)).toList else []
  | .atScope number op, kind =>
    if op.walks then session.state.exits.gained (session.after (.atScope number op)).state.exits kind else []
  | _, _ => []

/-- The frames behind an operation. -/
def framesBehind (session : Session) (frames : Frames) : Op → Frames
  | .enter caught => .opened caught :: frames
  | .leave => frames.tail
  | .take kind => frames.handOut kind
  | op => frames.deliver (session.delivered op)

/-- The frames behind a row of operations. -/
def framesAfter (session : Session) (frames : Frames) : List Op → Frames
  | [] => frames
  | op :: ops => framesAfter (session.after op) (session.framesBehind frames op) ops

/-- The registries hold what the frames say, and so do those that the open constructs have put
aside. -/
structure Routed (session : Session) (frames : Frames) : Prop where
  registries : ∀ kind, session.state.exits.get kind = frames.registry kind
  guards : frames.Guarded session.guards

variable {session next : Session} {frames : Frames}

/-- What holds of both ends of an operation holds of the session behind it. -/
theorem after_of_ends {op : Op} (holds : Session → Prop)
    (ends : Ends (perform op) session (fun _ => holds) fun _ => holds) :
    holds (session.after op) := by
  unfold Ends at ends
  unfold Session.after
  split at ends <;> simp_all

theorem Routed.congr (routed : session.Routed frames)
    (exits : next.state.exits = session.state.exits) (guards : next.guards = session.guards) :
    next.Routed frames :=
  ⟨fun kind => exits ▸ routed.registries kind, guards ▸ routed.guards⟩

/-- Snapshots were added to the registries, and delivered to the frames. -/
theorem Routed.deliver (routed : session.Routed frames) {snapshots : ExitKind → List Scope}
    (exits : ∀ kind, next.state.exits.get kind =
      (session.state.exits.get kind).map (· ++ snapshots kind))
    (guards : next.guards = session.guards) : next.Routed (frames.deliver snapshots) where
  registries kind := by rw [exits, Frames.registry_deliver, routed.registries]
  guards := guards ▸ routed.guards.deliver snapshots

/-- Operations that are neither exits nor walks keep all working habits. -/
theorem ScopeOp.keeps_run {related : Analysis → Analysis → Prop}
    (habit : Analysis.WorkingHabit related) (scopes : List Scope) (op : ScopeOp)
    (still : op.walks = false) (stays : ∀ kind, op ≠ .exit kind) :
    Site.Keeps related (op.run scopes) := by
  cases op with
  | current var => exact .discard (habit.currentVersion var)
  | look var => exact .discard (habit.currentTrace var)
  | assign var node => exact .discard (habit.assign var node)
  | delete var => exact .discard (habit.delete var)
  | release var => exact .discard (habit.release var)
  | contentEscapes var => exact habit.contentEscapes var
  | forget var => exact .discard (habit.forget var)
  | escapeAll => exact habit.escapeAll
  | forgetAll vars => exact habit.forgetAll vars
  | join numbers => exact habit.join _
  | joinArms yes no => exact habit.joinArms _ _
  | exit kind => exact absurd rfl (stays kind)
  | walkExpr | walkStmt | walkBody => cases still

/-- A walk on any arena only adds snapshots to the registries, wherever it ends. -/
theorem ScopeOp.ends_walk (scopes : List Scope) {op : ScopeOp} (walks : op.walks = true)
    (site : Site) :
    Ends (op.run scopes) site (fun _ after => site.analysis.exits.Extended after.analysis.exits)
      fun _ after => site.analysis.exits.Extended after.analysis.exits := by
  have obeys : routing.Obeys .ofSite (op.run scopes) := by
    cases op with
    | walkExpr arena id =>
      exact obeys_overArena (Discipline.yields_walkExpr routing_law trivial)
        (Region.everything_encloses arena)
    | walkStmt arena id =>
      exact obeys_overArena (Discipline.yields_walkStmt routing_law trivial)
        (Region.everything_encloses arena)
    | walkBody arena kind body =>
      exact obeys_overArena
        (Discipline.yields_walkBody routing_law kind trivial (routing_parks .ret))
        (Region.everything_encloses arena)
    | _ => cases walks
  exact Ends.mono (obeys site ⟨trivial, trivial⟩) (fun _ _ told => told.1.grows)
    fun _ _ fell => fell.1.grows

/-- An operation at a scope in hand is done at its site. -/
theorem ends_atScope {number : Nat} {scope : Scope} (found : session.scopes[number]? = some scope)
    {op : ScopeOp} {well : Unit → Session → Prop} {ill : Fault → Session → Prop} :
    Ends (perform (.atScope number op)) session well ill ↔
      Ends (op.run session.scopes) ⟨scope, session.state⟩
      (fun value site =>
        well value { session with
          state := site.analysis, scopes := session.scopes.set number site.scope })
      (fun fault site =>
        ill fault { session with
          state := site.analysis, scopes := session.scopes.set number site.scope }) := by
  unfold perform
  rw [ends_bind, ends_get, found]
  exact ends_focus

/-- One at a scope that is not in hand does nothing. -/
theorem after_atScope_none {number : Nat} (absent : session.scopes[number]? = none) (op : ScopeOp) :
    session.after (.atScope number op) = session := by
  have ends : Ends (perform (.atScope number op)) session (fun _ after => after = session)
      fun _ after => after = session := by
    unfold perform
    rw [ends_bind, ends_get, absent]
    rfl
  exact after_of_ends (· = session) ends

/-- An exit at a scope in hand. -/
theorem ends_exit {number : Nat} {scope : Scope} (found : session.scopes[number]? = some scope)
    (kind : ExitKind) :
    Ends (perform (.atScope number (.exit kind))) session
      (fun _ after => (∃ snapshots, session.state.exits.get kind = some snapshots ∧
          after = { session with
            state := session.state.withSnapshots kind
              (snapshots ++ [scope.fork kind.snapshotLabel]) }) ∨
        session.state.exits.get kind = none ∧ kind = .ret ∧ after = session)
      (fun fault after => fault = .strayExit kind ∧ after = session ∧
        session.state.exits.get kind = none ∧ kind ≠ .ret) := by
  rw [ends_atScope found]
  have scopes : session.scopes.set number scope = session.scopes := by
    obtain ⟨inside, rfl⟩ := List.getElem?_eq_some_iff.1 found
    exact List.set_getElem_self inside
  change Ends (liftM (Analysis.recordExit kind scope) : SiteM Unit) _ _ _
  rw [ends_liftAnalysis]
  dsimp only
  rw [scopes]
  refine (Analysis.ends_recordExit scope).mono ?_ ?_
  · rintro _ after (⟨snapshots, opened, rfl⟩ | ⟨closed, rfl, rfl⟩)
    · exact .inl ⟨snapshots, opened, rfl⟩
    · exact .inr ⟨closed, rfl, rfl⟩
  · rintro fault after ⟨rfl, rfl, closed, early⟩
    exact ⟨rfl, rfl, closed, early⟩

/-- A snapshot of a kind that no open construct catches goes nowhere. -/
theorem Routed.deliver_stray (routed : session.Routed frames) {kind : ExitKind}
    (closed : session.state.exits.get kind = none) (snapshot : Scope) :
    session.Routed (frames.deliver fun other => if other = kind then [snapshot] else []) := by
  refine routed.deliver (fun other => ?_) rfl
  by_cases same : other = kind
  · subst same
    simp [closed]
  · simp [same]

/-- A snapshot goes to the open registry of its kind. -/
theorem Routed.deliver_one (routed : session.Routed frames) {kind : ExitKind}
    {snapshots : List Scope} (opened : session.state.exits.get kind = some snapshots)
    (snapshot : Scope) :
    Routed { session with state := session.state.withSnapshots kind (snapshots ++ [snapshot]) }
      (frames.deliver fun other => if other = kind then [snapshot] else []) := by
  refine routed.deliver (fun other => (Analysis.get_withSnapshots other _).trans ?_) rfl
  by_cases same : other = kind
  · subst same
    simp [opened]
  · simp [same]

/-- Operations that are neither exits nor walks deliver nothing. -/
theorem delivered_still {op : ScopeOp} (still : op.walks = false)
    (stays : ∀ kind, op ≠ .exit kind) (number : Nat) :
    session.delivered (.atScope number op) = fun _ => [] := by
  funext kind
  cases op with
  | exit kind => exact absurd rfl (stays kind)
  | walkExpr | walkStmt | walkBody => cases still
  | _ => rfl

/-- A walk delivers what it adds to the registries. -/
theorem delivered_walk {op : ScopeOp} (walks : op.walks = true) (number : Nat) :
    session.delivered (.atScope number op) = session.state.exits.gained
      (session.after (.atScope number op)).state.exits := by
  funext kind
  cases op with
  | walkExpr | walkStmt | walkBody => rfl
  | _ => cases walks

theorem delivered_exit {number : Nat} {scope : Scope}
    (found : session.scopes[number]? = some scope) (kind : ExitKind) :
    session.delivered (.atScope number (.exit kind)) = fun other => if other = kind then
      [scope.fork kind.snapshotLabel] else [] := by
  funext other
  simp [delivered, found]

/-- An operation at a scope delivers what it adds to the registries. -/
theorem Routed.atScope (routed : session.Routed frames) (number : Nat) (op : ScopeOp) :
    (session.after (.atScope number op)).Routed
      (frames.deliver (session.delivered (.atScope number op))) := by
  cases found : session.scopes[number]? with
  | none =>
    rw [after_atScope_none found]
    have nothing : session.delivered (.atScope number op) = fun _ => [] := by
      funext kind
      cases op <;> simp [delivered, found, after_atScope_none found, Exits.gained]
    rw [nothing, Frames.deliver_nothing]
    exact routed
  | some scope =>
    by_cases walks : op.walks = true
    · have extended : session.state.exits.Extended
          (session.after (.atScope number op)).state.exits ∧
          (session.after (.atScope number op)).guards = session.guards :=
        after_of_ends
          (fun after => session.state.exits.Extended after.state.exits ∧
            after.guards = session.guards)
          ((ends_atScope found).2
            ((ScopeOp.ends_walk session.scopes walks ⟨scope, session.state⟩).mono
              (fun _ _ grown => ⟨grown, rfl⟩) fun _ _ grown => ⟨grown, rfl⟩))
      rw [delivered_walk walks]
      exact routed.deliver extended.1.gained extended.2
    · by_cases exits : ∃ kind, op = .exit kind
      · obtain ⟨kind, rfl⟩ := exits
        rw [delivered_exit found]
        refine after_of_ends (·.Routed _) ((ends_exit found kind).mono ?_ ?_)
        · rintro _ after (⟨snapshots, opened, rfl⟩ | ⟨closed, -, rfl⟩)
          · exact routed.deliver_one opened _
          · exact routed.deliver_stray closed _
        · rintro fault after ⟨-, rfl, closed, -⟩
          exact routed.deliver_stray closed _
      · have still : op.walks = false := Bool.eq_false_iff.2 walks
        have stays : ∀ kind, op ≠ .exit kind := fun kind same => exits ⟨kind, same⟩
        rw [delivered_still still stays, Frames.deliver_nothing]
        have keeps := ScopeOp.keeps_run Exits.habit.toWorkingHabit session.scopes op still stays
          ⟨scope, session.state⟩
        exact after_of_ends (·.Routed frames)
          ((ends_atScope found).2
            (keeps.mono (fun _ _ same => routed.congr same rfl) fun _ _ same =>
              routed.congr same rfl))

/-- Inside a construct its frame is the innermost one, and the registries from around it are put
aside. -/
theorem Routed.enter (routed : session.Routed frames) (caught : Catch) :
    (session.after (.enter caught)).Routed (.opened caught :: frames) where
  registries kind := by
    change (session.state.exits.enter caught).get kind = _
    rw [Exits.get_enter, routed.registries]
    rfl
  guards := ⟨rfl, fun kind _ => routed.registries kind, routed.guards⟩

/-- Behind a construct the registries of the frames around it are back. -/
theorem Routed.leave (routed : session.Routed frames) :
    (session.after .leave).Routed frames.tail := by
  change session.leave.Routed frames.tail
  unfold Session.leave
  split
  · rename_i closed
    have none_ : frames = [] := by
      have guards := routed.guards
      rw [closed] at guards
      cases frames with
      | nil => rfl
      | cons frame frames => exact guards.elim
    subst none_
    exact routed
  · rename_i caught outer guards open_
    obtain ⟨registries, guarded⟩ := routed
    rw [open_] at guarded
    cases frames with
    | nil => exact guarded.elim
    | cons frame frames =>
      obtain ⟨rfl, put, rest⟩ := guarded
      refine ⟨fun kind => ?_, rest⟩
      rw [Analysis.behind, Exits.get_leave]
      split
      · exact put kind ‹_›
      · rename_i passes
        rw [registries, Frames.registry, if_neg passes]
        rfl

/-- The innermost construct hands out what it has collected of a kind, and has nothing of it
left. -/
theorem Routed.ends_take (routed : session.Routed frames) (kind : ExitKind) :
    Ends (perform (.take kind)) session
      (fun _ after => after.scopes = session.scopes ++ frames.handedOut kind ∧
        after.Routed (frames.handOut kind))
      fun _ _ => False := by
  unfold perform
  rw [ends_bind, ends_get]
  obtain ⟨registries, guarded⟩ := routed
  split
  · rename_i closed
    rw [closed] at guarded
    cases frames with
    | nil => exact ⟨by simp [Frames.handedOut], registries, by rw [closed]; exact guarded⟩
    | cons frame frames => exact guarded.elim
  · rename_i caught outer guards open_
    rw [open_] at guarded
    cases frames with
    | nil => exact guarded.elim
    | cons frame frames =>
      obtain ⟨rfl, put, rest⟩ := guarded
      rw [ends_bind, ends_focus]
      refine (Analysis.ends_takeExits frame.caught).mono ?_ fun _ _ impossible => impossible
      have guards : Frames.Guarded (Frames.handOut kind (frame :: frames)) session.guards := by
        rw [open_]
        exact ⟨rfl, put, rest⟩
      have own := registries kind
      unfold Frames.registry at own
      rintro snapshots after (⟨catches, opened, rfl⟩ | ⟨rfl, closed, rfl⟩)
      · rw [if_pos catches, opened] at own
        obtain rfl := Option.some.inj own
        refine ⟨by simp [Frames.handedOut, catches], fun other => ?_, guards⟩
        rw [Frames.registry_handOut]
        refine (Analysis.get_withSnapshots other []).trans ?_
        simp [catches, registries]
      · have passes : frame.caught.catches kind ≠ true := by
          intro catches
          rw [if_pos catches, closed catches] at own
          cases own
        refine ⟨by simp [Frames.handedOut, passes], fun other => ?_, guards⟩
        rw [Frames.registry_handOut]
        simp [passes, registries]

/-- Every operation leaves registries behind that hold what the frames behind it say. -/
theorem Routed.after (routed : session.Routed frames) (op : Op) :
    (session.after op).Routed (session.framesBehind frames op) := by
  have nothing (same : session.delivered op = fun _ => []) : session.Routed
      (frames.deliver (session.delivered op)) := by
    rw [same, Frames.deliver_nothing]
    exact routed
  cases op with
  | openScope label => exact (nothing rfl).congr rfl rfl
  | fork number label => exact (nothing rfl).congr rfl rfl
  | atScope number op => exact routed.atScope number op
  | atKey key op =>
    refine after_of_ends (·.Routed (frames.deliver (session.delivered (.atKey key op)))) ?_
    unfold perform
    rw [ends_focus]
    exact (ends_reached _ _).mono (fun _ _ _ => (nothing rfl).congr rfl rfl) fun _ _ _ =>
      (nothing rfl).congr rfl rfl
  | assumeDynamicNames => exact (nothing rfl).congr rfl rfl
  | signal edit span => exact (nothing rfl).congr rfl rfl
  | enter caught => exact routed.enter caught
  | leave => exact routed.leave
  | take kind =>
    exact after_of_ends (·.Routed (frames.handOut kind))
      ((routed.ends_take kind).mono (fun _ _ told => told.2) fun _ _ impossible => impossible.elim)

theorem Routed.run (routed : session.Routed frames) (ops : List Op) :
    (session.run ops).Routed (session.framesAfter frames ops) := by
  induction ops generalizing session frames with
  | nil => exact routed
  | cons op ops ih => exact ih (routed.after op)

theorem routed_start (vars : Variables) (options : Options) : (start vars options).Routed [] :=
  ⟨fun kind => by cases kind <;> rfl, trivial⟩

/-- The operation enters or leaves a construct. -/
def Op.brackets : Op → Bool
  | .enter _ => true
  | .leave => true
  | _ => false

/-- Every construct that is entered in the row is left in it, and no other. -/
inductive Balanced : List Op → Prop
  | nil : Balanced []
  | op {op : Op} {ops : List Op} (plain : op.brackets = false) (rest : Balanced ops) : Balanced (op :: ops)
  | region {caught : Catch} {inner rest : List Op} (inside : Balanced inner) (behind : Balanced rest) :
      Balanced (.enter caught :: inner ++ .leave :: rest)

theorem framesAfter_append (ops more : List Op) :
    session.framesAfter frames (ops ++ more) = (session.run ops).framesAfter
      (session.framesAfter frames ops) more := by
  induction ops generalizing session frames with
  | nil => rfl
  | cons op ops ih => exact ih

theorem run_append (ops more : List Op) : session.run (ops ++ more) = (session.run ops).run more :=
  List.foldl_append

/-- A balanced row of operations leaves the frames open that it found. Those around the innermost
one have been delivered snapshots, but none of a kind that the innermost one catches. -/
theorem Balanced.framesAfter {ops : List Op} (balanced : Balanced ops) (session : Session)
    (frame : Frame) (frames : Frames) :
    ∃ (last : Frame) (more : ExitKind → List Scope),
      session.framesAfter (frame :: frames) ops = last :: frames.deliver more ∧
      last.caught = frame.caught ∧ ∀ kind, frame.caught.catches kind = true → more kind = [] := by
  induction balanced generalizing session frame frames with
  | nil => exact ⟨frame, fun _ => [], by rw [Frames.deliver_nothing]; rfl, rfl, fun _ _ => rfl⟩
  | @op op ops plain rest ih =>
    have first : ∃ (middle : Frame) (early : ExitKind → List Scope),
        session.framesBehind (frame :: frames) op = middle :: frames.deliver early ∧
        middle.caught = frame.caught ∧ ∀ kind, frame.caught.catches kind = true →
          early kind = [] := by
      have delivers : session.framesBehind (frame :: frames) op = Frames.deliver
          (session.delivered op) (frame :: frames) ∨
          ∃ kind, op = .take kind := by
        cases op with
        | enter | leave => cases plain
        | take kind => exact .inr ⟨kind, rfl⟩
        | _ => exact .inl rfl
      rcases delivers with same | ⟨kind, rfl⟩
      · refine ⟨frame.collect (session.delivered op), frame.caught.pass (session.delivered op),
          same, rfl, fun kind catches => ?_⟩
        simp [Catch.pass, catches]
      · exact ⟨frame.emptied kind,
          fun _ => [], by rw [Frames.deliver_nothing]; rfl, rfl, fun _ _ => rfl⟩
    obtain ⟨middle, early, onto, caught, none_⟩ := first
    obtain ⟨last, late, ends, caughtLast, noneLate⟩ :=
      ih (session.after op) middle (frames.deliver early)
    rw [caught] at caughtLast noneLate
    refine ⟨last, fun kind => early kind ++ late kind, ?_, caughtLast, fun kind catches => ?_⟩
    · rw [← Frames.deliver_deliver, ← ends, ← onto]
      rfl
    · simp [none_ kind catches, noneLate kind catches]
  | @region caught inner rest inside behind ihInside ihBehind =>
    obtain ⟨inmost, early, onto, -, -⟩ := ihInside (session.after (.enter caught)) (.opened caught)
      (frame :: frames)
    obtain ⟨last, late, ends, caughtLast, noneLate⟩ :=
      ihBehind (session.run (.enter caught :: inner ++ [.leave])) (frame.collect early)
        (frames.deliver (frame.caught.pass early))
    refine ⟨last, fun kind => frame.caught.pass early kind ++ late kind, ?_, caughtLast,
      fun kind catches => ?_⟩
    · rw [← Frames.deliver_deliver, ← ends, show .enter caught :: inner ++ .leave :: rest =
        (.enter caught :: inner ++ [.leave]) ++ rest by simp,
        framesAfter_append, framesAfter_append]
      change Session.framesAfter _
        (Session.framesAfter _ (Session.framesAfter _ (.opened caught :: frame :: frames) inner)
          [.leave]) rest = _
      rw [onto]
      rfl
    · simp [Catch.pass, catches, noneLate kind catches]

/-- What the routing of exits comes to in a session with certain frames. -/
structure Routing (session : Session) (frames : Frames) : Prop extends session.Routed frames where
  /-- An exit is recorded in the registry of its kind alone, and the snapshot holds what the scope
  holds. -/
  exit : ∀ number (scope : Scope) kind snapshots, session.scopes[number]? = some scope → frames.registry kind = some snapshots →
    ∃ exits, perform (.atScope number (.exit kind)) session = .ok () { session with state := { session.state with exits } } ∧
      ∀ other, exits.get other =
        if other = kind then some (snapshots ++ [⟨kind.snapshotLabel, scope.active⟩]) else session.state.exits.get other
  /-- An exit that no open construct catches changes nothing: a return is passed over, and any other
  one is a fault. -/
  stray : ∀ number (scope : Scope) kind, session.scopes[number]? = some scope → frames.registry kind = none →
    perform (.atScope number (.exit kind)) session = if kind = .ret then .ok () session else .error (.strayExit kind) session
  /-- A take hands out what the innermost construct has collected since the last one. -/
  take : ∀ kind, ∃ after, perform (.take kind) session = .ok () after ∧ after.scopes = session.scopes ++ frames.handedOut kind ∧
    after.Routed (frames.handOut kind)
  /-- Behind a construct the registries that it caught are as before it. -/
  caught : ∀ (caught : Catch) (body : List Op), Balanced body → ∀ kind, caught.catches kind = true →
    (session.run (.enter caught :: body ++ [.leave])).state.exits.get kind = session.state.exits.get kind
  /-- Behind a construct the other registries are as they were left inside, with what was there
  before in front. -/
  passed : ∀ (caught : Catch) (body : List Op), Balanced body → ∀ kind, caught.catches kind = false →
    (session.run (.enter caught :: body ++ [.leave])).state.exits.get kind = (session.run (.enter caught :: body)).state.exits.get kind ∧
      ∃ more, (session.run (.enter caught :: body)).state.exits.get kind = (session.state.exits.get kind).map (· ++ more)
  /-- Whatever is done at a scope, a walk above all, and wherever it ends: every registry holds what
  it held, with more behind it. -/
  walk : ∀ number op, session.state.exits.Extended (session.after (.atScope number op)).state.exits

theorem Routed.exit (routed : session.Routed frames) {number : Nat} {scope : Scope}
    {kind : ExitKind} {snapshots : List Scope} (found : session.scopes[number]? = some scope)
    (opened : frames.registry kind = some snapshots) :
    ∃ exits, perform (.atScope number (.exit kind)) session = .ok ()
      { session with state := { session.state with exits } } ∧
      ∀ other, exits.get other =
        if other = kind then some (snapshots ++ [⟨kind.snapshotLabel, scope.active⟩]) else
          session.state.exits.get other := by
  have open_ : session.state.exits.get kind = some snapshots :=
    (routed.registries kind).trans opened
  have ends : Ends (perform (.atScope number (.exit kind))) session
      (fun _ after => after = { session with
        state := session.state.withSnapshots kind
          (snapshots ++ [scope.fork kind.snapshotLabel]) })
      fun _ _ => False := by
    refine (ends_exit found kind).mono ?_ fun _ _ fell => absurd (open_.symm.trans fell.2.2.1) nofun
    rintro _ after (⟨held, again, rfl⟩ | ⟨closed, -, -⟩)
    · rw [Option.some.inj (open_.symm.trans again)]
    · cases open_.symm.trans closed
  obtain ⟨_, _, reached, rfl⟩ := ends.exists_ok
  exact ⟨_, reached, fun other => Analysis.get_withSnapshots other _⟩

theorem Routed.stray (routed : session.Routed frames) {number : Nat} {scope : Scope}
    {kind : ExitKind} (found : session.scopes[number]? = some scope)
    (closed : frames.registry kind = none) :
    perform (.atScope number (.exit kind)) session = if kind = .ret then .ok () session else
      .error (.strayExit kind) session := by
  have closed_ : session.state.exits.get kind = none := (routed.registries kind).trans closed
  have ends := ends_exit found kind
  unfold Ends at ends
  split at ends
  · rename_i reached
    rcases ends with ⟨snapshots, opened, -⟩ | ⟨-, rfl, rfl⟩
    · cases closed_.symm.trans opened
    · exact reached
  · rename_i reached
    obtain ⟨rfl, rfl, -, early⟩ := ends
    rw [if_neg early]
    exact reached

/-- A construct that is entered and left again, with anything balanced inside, delivers snapshots to
the frames around it, but none of a kind that it catches. -/
theorem Routed.region (routed : session.Routed frames) (caught : Catch) {body : List Op}
    (balanced : Balanced body) :
    ∃ (last : Frame) (more : ExitKind → List Scope), last.caught = caught ∧
      (session.run (.enter caught :: body)).Routed (last :: frames.deliver more) ∧
      (session.run (.enter caught :: body ++ [.leave])).Routed (frames.deliver more) ∧
      ∀ kind, caught.catches kind = true → more kind = [] := by
  obtain ⟨last, more, ends, same, none_⟩ := balanced.framesAfter (session.after (.enter caught))
    (.opened caught) frames
  have inner := (routed.enter caught).run body
  rw [ends] at inner
  refine ⟨last, more, same, inner, ?_, none_⟩
  rw [run_append]
  exact inner.leave

theorem Routed.walk (routed : session.Routed frames) (number : Nat) (op : ScopeOp) :
    session.state.exits.Extended (session.after (.atScope number op)).state.exits := by
  intro kind
  refine ⟨session.delivered (.atScope number op) kind, ?_⟩
  rw [(routed.atScope number op).registries kind, Frames.registry_deliver, routed.registries]

/-- Wherever a session has come to, its exits are routed by what was done in it: each goes to the
innermost open construct that catches its kind, as a snapshot of its scope, and is handed out by the
next take there. -/
theorem exits_routed (vars : Variables) (options : Options) (ops : List Op) :
    ((start vars options).run ops).Routing ((start vars options).framesAfter [] ops) := by
  have routed := (routed_start vars options).run ops
  exact {
    toRouted := routed
    exit := fun _ _ _ _ found opened => routed.exit found opened
    stray := fun _ _ _ found closed => routed.stray found closed
    take := fun kind => by
      obtain ⟨_, after, taken, told⟩ := (routed.ends_take kind).exists_ok
      exact ⟨after, taken, told⟩
    caught := fun caught body balanced kind catches => by
      obtain ⟨last, more, -, -, outer, none_⟩ := routed.region caught balanced
      rw [outer.registries kind, Frames.registry_deliver, none_ kind catches, routed.registries]
      simp
    passed := fun caught body balanced kind passes => by
      obtain ⟨last, more, same, inner, outer, -⟩ := routed.region caught balanced
      have inside := inner.registries kind
      rw [Frames.registry, same, if_neg (Bool.eq_false_iff.1 passes)] at inside
      rw [outer.registries kind, inside, Frames.registry_deliver, routed.registries]
      exact ⟨rfl, more kind, rfl⟩
    walk := routed.walk }

end Session

end ValueFlow
