import ValueFlow.Proofs.Integrity.Session
import ValueFlow.Proofs.Join.Spread
import ValueFlow.Proofs.Loop.Drift

/-!
# What a walk leaves alone

A walk may move a variable to another version if something below its statement writes the variable,
or if code elsewhere may rebind it and a call or an evaluation is below (`Territory.Free`). Every
other variable stands where it stood in the scope from which the walk began: in the scope behind the
walk and in each snapshot that the walk enters in a registry. A look makes a variable current at the
version it had anyway, and a join of paths that agree on it records nothing.

To stay within these bounds is a discipline of the walks below the statement (`untouched_law`).
Snapshots that were parked before the walk are not bound by it, so what a loop takes out at its
breaks is known to be within the bounds only because the loop has collected it itself.
-/

namespace ValueFlow
set_option autoImplicit false

/-- A site from which a statement of an arena is walked. -/
structure Territory where
  arena : Arena
  root : NodeId
  start : Site

namespace Territory

variable (land : Territory)

/-- The walk may move the variable to another version. -/
def Free (var : VarId) : Prop :=
  var ∈ land.arena.variablesWritten land.root ∨ land.start.analysis.MayRebind var ∧ land.arena.RunsCode land.root

/-- The scope has every variable at the version of the start, but for those that may move. -/
def Fits (scope : Scope) : Prop := ∀ var, scope.versionOf var = land.start.scope.versionOf var ∨ land.Free var

/-- The state is sound and has grown from the one at the start, and the scope fits. -/
structure Calm (scope : Scope) (state : Analysis) : Prop where
  sound : Site.Sound ⟨scope, state⟩
  grows : land.start.analysis.Grows state
  fits : land.Fits scope

/-- The state has gained, and so have the registries, by snapshots that fit. -/
structure Gains (before after : Analysis) : Prop where
  grows : before.Grows after
  exits : before.exits.Gains (fun _ taken => ∀ path ∈ taken, land.Fits path) after.exits

/-- To leave the other variables alone is a discipline of the walks below the statement. -/
def untouched : Discipline where
  good := land.Calm
  grows := land.Gains
  fault := fun _ => True
  region := land.arena.regionBelow land.root

variable {land}

theorem Fits.fork {scope : Scope} (fits : land.Fits scope) (label : String) :
    land.Fits (scope.fork label) :=
  fits

/-- A variable goes to a version that it had anyway, or it may move. -/
theorem Fits.setVersion {scope : Scope} (fits : land.Fits scope) {var : VarId} {version : Version}
    (allowed : version = scope.versionOf var ∨ land.Free var) :
    land.Fits (scope.setVersion var version) := by
  intro other
  rw [Scope.versionOf_setVersion]
  split
  · rename_i same
    subst same
    exact allowed.elim (fun stays => stays ▸ fits other) .inr
  · exact fits other

theorem Fits.adopt {scope path : Scope} (fits : land.Fits scope) (fitsPath : land.Fits path) :
    land.Fits (scope.adopt path) := by
  intro var
  rcases Scope.versionOf_adopt scope path var with same | same
  · exact same ▸ fitsPath var
  · exact same ▸ fits var

namespace Gains

variable {first second third : Analysis}

theorem of_exits (grows : first.Grows second) (exits : second.exits = first.exits) :
    land.Gains first second :=
  ⟨grows, .of_eq exits fun _ => List.forall_mem_nil _⟩

theorem refl (state : Analysis) : land.Gains state state := of_exits (.refl _) rfl

theorem trans (early : land.Gains first second) (late : land.Gains second third) :
    land.Gains first third :=
  ⟨early.grows.trans late.grows, early.exits.trans late.exits fun _ _ _ fits more =>
    List.forall_mem_append.2 ⟨fits, more⟩⟩

theorem behind {caught : Catch} (inner : land.Gains (first.inside caught) second) :
    land.Gains first (second.behind caught first.exits) where
  grows := ⟨inner.grows.traces, inner.grows.uses, inner.grows.vars, inner.grows.options,
    inner.grows.edits⟩
  exits := inner.exits.leave (fun _ _ => List.forall_mem_nil _) fun _ _ _ fits => fits

end Gains

namespace Calm

variable {site later : Site}

/-- A scope that fits is reached while the registries stay. -/
theorem kept (calm : land.Calm site.scope site.analysis) (sound : later.Sound)
    (grows : site.analysis.Grows later.analysis)
    (exits : later.analysis.exits = site.analysis.exits) (fits : land.Fits later.scope) :
    land.untouched.Kept .ofSite site later where
  good := ⟨sound, calm.grows.trans grows, fits⟩
  fits := trivial
  grows := .of_exits grows exits

theorem kept_refl (calm : land.Calm site.scope site.analysis) :
    land.untouched.Kept .ofSite site site :=
  calm.kept calm.sound (.refl _) rfl calm.fits

theorem looked (calm : land.Calm site.scope site.analysis) {var : VarId}
    (looked : site.Looked var later) :
    land.untouched.Kept .ofSite site later :=
  calm.kept looked.sound looked.grows looked.logOnly.exits
    (looked.scope ▸ calm.fits.setVersion (.inl rfl))

theorem wrote (calm : land.Calm site.scope site.analysis) {var : VarId}
    {origin : Version → Origin} {version : Version} (wrote : site.Wrote var origin version later)
    (free : land.Free var) : land.untouched.Kept .ofSite site later :=
  calm.kept wrote.sound wrote.grows wrote.logOnly.exits
    (wrote.scope ▸ calm.fits.setVersion (.inr free))

/-- A join of paths that agree on a variable leaves it where it is. -/
theorem fits_joined {paths : List Scope} (several : 2 ≤ paths.length)
    (fits : ∀ path ∈ paths, land.Fits path) (joined : site.Joined paths [] later) :
    land.Fits later.scope := by
  intro var
  by_cases free : land.Free var
  · exact .inr free
  · have nonempty : paths ≠ [] :=
      List.ne_nil_of_length_pos (Nat.lt_of_lt_of_le Nat.zero_lt_two several)
    exact .inl (joined.versionOf_eq nonempty fun path mem => (fits path mem var).resolve_right free)

end Calm

/-- An operation that looks at a variable, and may fail over an unregistered one, keeps to the
bounds. -/
theorem Calm.holds_looked {site : Site} {α : Type} {act : SiteM α} {var : VarId}
    (calm : land.Calm site.scope site.analysis)
    (ends : Ends act site (fun _ after => site.Looked var after) (site.Refuses var)) :
    land.untouched.Holds .ofSite act site fun _ _ => True := by
  refine ends.mono (fun _ after looked => ⟨calm.looked looked, trivial⟩) ?_
  rintro fault after ⟨rfl, rfl⟩
  exact ⟨calm.kept_refl, trivial⟩

theorem Calm.holds_write {site : Site} {var : VarId} {origin : Version → Origin}
    (calm : land.Calm site.scope site.analysis) (free : land.Free var)
    (isWrite : Origin.IsWrite origin) :
    land.untouched.Holds .ofSite (Site.write var origin) site fun _ _ => True := by
  refine (Site.ends_write calm.sound isWrite var).mono
    (fun _ after told => ⟨calm.wrote told.2 free, trivial⟩) ?_
  rintro fault after ⟨rfl, rfl⟩
  exact ⟨calm.kept_refl, trivial⟩

theorem Calm.holds_escape {site : Site} (calm : land.Calm site.scope site.analysis)
    (calls : land.arena.RunsCode land.root) (var : VarId) :
    land.untouched.Holds .ofSite (Site.escape var) site fun _ _ => True := by
  refine (Site.ends_escape calm.sound var).mono ?_ ?_
  · rintro _ after ⟨slot, found, outcome⟩
    split at outcome
    · rename_i rebound
      obtain ⟨version, wrote⟩ := outcome
      exact ⟨calm.wrote wrote (.inr ⟨calm.grows.mayRebind ⟨slot, found, rebound⟩, calls⟩), trivial⟩
    · subst outcome
      exact ⟨calm.kept_refl, trivial⟩
  · rintro fault after ⟨rfl, rfl⟩
    exact ⟨calm.kept_refl, trivial⟩

/-- An exit enters a copy of the scope, which fits. -/
theorem Calm.holds_recordExit {site : Site} (calm : land.Calm site.scope site.analysis)
    (kind : ExitKind) :
    land.untouched.Holds .ofSite
      (Site.scopeHere >>= fun scope => liftM (Analysis.recordExit kind scope)) site
      fun _ _ => True := by
  refine .scopeHere_bind (ends_liftAnalysis.2 (((Analysis.ends_recordExit site.scope).and_gives
    (Analysis.gives_recordExit_gains site.scope)).mono ?_ ?_))
  · rintro _ after ⟨told, gains⟩
    have exits : site.analysis.exits.Gains (fun _ taken => ∀ path ∈ taken, land.Fits path)
        after.exits := by
      refine gains.mono ?_
      rintro other _ rfl
      split
      · exact List.forall_mem_singleton.2 (calm.fits.fork _)
      · exact List.forall_mem_nil _
    obtain ⟨snapshots, opened, rfl⟩ | ⟨-, -, rfl⟩ := told
    · have sound := calm.sound.analysis.parkOne opened calm.sound.scope kind.snapshotLabel
      have grows := Analysis.Grows.withSnapshots site.analysis kind
        (snapshots ++ [site.scope.fork kind.snapshotLabel])
      exact ⟨⟨⟨⟨⟨sound, calm.sound.scope⟩, calm.grows.trans grows, calm.fits⟩, trivial⟩,
        ⟨grows, exits⟩⟩, trivial⟩
    · exact ⟨calm.kept_refl, trivial⟩
  · rintro fault after ⟨-, rfl, -⟩
    exact ⟨calm.kept_refl, trivial⟩

/-- Below the statement no operation moves a variable that is not free to move. -/
theorem untouched_law (land : Territory) : land.untouched.Law where
  refl := .refl
  trans := .trans
  carry := fun {_ _ _ _} good other gains =>
    ⟨⟨other.sound.analysis, good.sound.scope.extend gains.grows.traces⟩, other.grows, good.fits⟩
  fork := fun label good =>
    ⟨⟨good.sound.analysis, good.sound.scope.fork label⟩, good.grows, good.fits.fork label⟩
  inside := fun caught good =>
    ⟨⟨good.sound.analysis.inside caught, good.sound.scope⟩,
      ⟨good.grows.traces, good.grows.uses, good.grows.vars, good.grows.options, good.grows.edits⟩,
      good.fits⟩
  behind := fun caught good other gains =>
    ⟨⟨⟨other.sound.analysis.behind good.sound.analysis gains.grows.traces caught,
          other.sound.scope⟩,
        ⟨other.grows.traces, other.grows.uses, other.grows.vars, other.grows.options,
          other.grows.edits⟩, other.fits⟩, gains.behind⟩
  unseen := fun {_ _ edits} dynamicNames more good =>
    ⟨⟨⟨good.sound.analysis.unseen edits dynamicNames, good.sound.scope⟩,
        ⟨good.grows.traces, good.grows.uses, good.grows.vars, good.grows.options,
          Nat.le_trans good.grows.edits more⟩, good.fits⟩,
      .of_exits ⟨.refl _, .refl _, .refl _, rfl, more⟩ rfl⟩
  current := fun var site ready => ready.good.holds_looked
    ((Site.ends_currentVersion ready.good.sound var).mono (fun _ _ told => told.2)
      fun _ _ fell => fell)
  write := fun var origin writes isWrite site ready => ready.good.holds_write (.inl writes) isWrite
  escape := fun calls var site ready => ready.good.holds_escape calls var
  read := fun var site ready => ready.good.holds_looked (Site.ends_read ready.good.sound var)
  release := fun var site ready => ready.good.holds_looked (Site.ends_release ready.good.sound var)
  delete := fun var site writes ready =>
    .map (ready.good.holds_write (.inl writes) Origin.isWrite_unbound) fun _ _ _ _ _ => trivial
  join := fun paths site nonempty ready good => by
    have calm : land.Calm site.scope site.analysis := ready.good
    refine (Site.ends_join calm.sound nonempty fun path mem => (good path mem).sound.scope).mono ?_
      (fun _ _ impossible => impossible.elim)
    rintro _ after (⟨path, rfl, rfl⟩ | ⟨several, joined⟩)
    · have path := good path (by simp)
      exact ⟨calm.kept ⟨calm.sound.analysis, calm.sound.scope.adopt path.sound.scope⟩ (.refl _) rfl
        (calm.fits.adopt path.fits), trivial⟩
    · have fits := Calm.fits_joined several (fun path mem => (good path mem).fits) joined
      exact ⟨calm.kept joined.sound joined.grows joined.logOnly.exits fits, trivial⟩
  exit := fun kind site ready => ready.good.holds_recordExit kind
  breaks := by
    intro scope before after caught catches good gains snapshots opened snapshot mem
    obtain ⟨taken, collected, fits⟩ := gains.exits.collected catches
    obtain rfl := Option.some.inj (collected.symm.trans opened)
    exact ⟨⟨good.sound.analysis, good.sound.analysis.parked _ _ opened snapshot mem⟩, good.grows,
      fits snapshot mem⟩
  unregistered := fun _ => trivial
  wrongShape := fun _ _ => trivial
  cyclicNesting := fun _ => trivial
  within := fun _ _ => trivial

end Territory

namespace Walk

/-- The scope has kept the variables that were active before the walk, and has the others and them
at the versions before the walk, but for those that something below the statement writes, and for
those that code elsewhere may rebind where a call or an evaluation is below. -/
structure OnlyMoves (before : Walk) (id : NodeId) (path : Scope) : Prop where
  active : before.scope.Within path
  moved : ∀ var, path.versionOf var ≠ before.scope.versionOf var →
    var ∈ before.arena.variablesWritten id ∨ before.analysis.MayRebind var ∧ before.arena.RunsCode id

variable {walk after : Walk} {id : NodeId} {left : Option NodeId} {depth : Nat}

/-- Where the walk of a statement ends well, only written and escaped variables have moved. -/
theorem onlyMoves_of_walked (sound : walk.toSite.Sound)
    (walked : walkStmtWithin depth id walk = .ok left after) :
    walk.OnlyMoves id after.scope ∧
      walk.analysis.exits.Gains (fun _ taken => ∀ path ∈ taken, walk.OnlyMoves id path)
        after.analysis.exits := by
  let land : Territory := ⟨walk.arena, id, walk.toSite⟩
  have ready : land.untouched.Ready land.untouched.ofWalk walk :=
    ⟨⟨sound, .refl _, fun _ => .inl rfl⟩, Arena.regionBelow_encloses walk.arena id⟩
  have inside : land.untouched.region.stmts id := .inl .root
  obtain ⟨kept, -⟩ :=
    Ends.of_ok (Discipline.yields_walkStmtWithin land.untouched_law depth inside walk ready) walked
  have spreads := (spreading_walkStmtWithin depth id walk).of_ok walked
  have moves {path : Scope} (fits : land.Fits path) (within : walk.scope.Within path) :
      walk.OnlyMoves id path := ⟨within, fun var moved => (fits var).resolve_left moved⟩
  refine ⟨moves kept.good.fits spreads.scope, ?_⟩
  refine (kept.grows.exits.and spreads.exits fun _ =>
    ⟨List.forall_mem_nil _, List.forall_mem_nil _⟩).mono ?_
  exact fun _ _ told path mem => moves (told.1 path mem) (told.2 path mem)

/-- In every session and at every scope, a walk of a statement that ends well moves only variables
that something below the statement writes, or that escape to code that is called below it. This
holds of the scope behind the walk and of every snapshot that the walk has entered in a registry,
and no variable that was active is lost in them. -/
theorem only_written_or_escaped_move (vars : Variables) (options : Options) (ops : List Session.Op) {scope : Scope}
    (held : scope ∈ ((Session.start vars options).run ops).scopes) {arena : Arena}
    (walked : walkStmtWithin depth id ⟨⟨scope, ((Session.start vars options).run ops).state⟩, arena⟩ = .ok left after) :
    OnlyMoves ⟨⟨scope, ((Session.start vars options).run ops).state⟩, arena⟩ id after.scope ∧
      ∀ kind snapshots, ((Session.start vars options).run ops).state.exits.get kind = some snapshots →
        ∃ taken, after.analysis.exits.get kind = some (snapshots ++ taken) ∧
          ∀ path ∈ taken, OnlyMoves ⟨⟨scope, ((Session.start vars options).run ops).state⟩, arena⟩ id path := by
  have session := (Session.sound_start vars options).run ops
  obtain ⟨own, gains⟩ := onlyMoves_of_walked ⟨session.state, session.scopes scope held⟩ walked
  refine ⟨own, fun kind snapshots opened => ?_⟩
  obtain ⟨taken, gained, moves⟩ := gains kind
  exact ⟨taken, by simpa [opened] using gained, moves⟩

/-- Two locals and a global, each assigned in a loop, and the first local once more behind a
break. -/
def threeAssigned : Session :=
  (Session.start ⟨#[⟨"x", .localSlot, false, .entry⟩, ⟨"y", .localSlot, false, .entry⟩, ⟨"z", .global, false, .entry⟩]⟩ {}).run
    [.openScope "main", .enter .byLoop, .atScope 0 (.assign 0 20), .atScope 0 (.assign 1 21), .atScope 0 (.assign 2 22),
      .atScope 0 (.exit .brk), .atScope 0 (.assign 0 23)]

/-- An arm that writes the second local and breaks, and a call behind:
`if x { y = None; break }; None()`. -/
def breakOrCall : Arena :=
  ⟨#[⟨.expr (.read 0 none), ⟨0, 1⟩⟩, ⟨.expr (.literal .none), ⟨1, 2⟩⟩, ⟨.stmt (.assign 1 1 none), ⟨2, 3⟩⟩, ⟨.stmt .brk, ⟨3, 4⟩⟩,
    ⟨.stmt (.block [2, 3]), ⟨4, 5⟩⟩, ⟨.stmt (.branch 0 (some 4) none), ⟨5, 6⟩⟩, ⟨.expr (.literal .none), ⟨6, 7⟩⟩,
    ⟨.expr (.call 6 []), ⟨7, 8⟩⟩, ⟨.stmt (.effect 7), ⟨8, 9⟩⟩, ⟨.stmt (.block [5, 8]), ⟨9, 10⟩⟩]⟩

/-- The scope with the three variables, over it. -/
def atBreakOrCall : Walk := ⟨⟨threeAssigned.scopes.headD (.fresh "main"), threeAssigned.state⟩, breakOrCall⟩

theorem atBreakOrCall_scope_mem : atBreakOrCall.scope ∈ threeAssigned.scopes :=
  Session.headD_mem_scopes (.fresh "main") (by decide +kernel)

/-- The call moves the global in the scope behind, and the arm moves the second local in the
snapshot at the break. The snapshot that was there before has the first local at another version,
and is none of those that the walk enters. -/
theorem breakOrCall_moves : ∃ left after, walkStmtWithin 11 9 atBreakOrCall = .ok left after ∧
    ([0, 1, 2].map after.scope.versionOf = [2, 1, 2] ∧ [0, 1, 2].map atBreakOrCall.scope.versionOf = [2, 1, 1]) ∧
    (after.analysis.exits.get .brk).map (·.map fun path => [0, 1, 2].map path.versionOf) = some [[1, 1, 1], [2, 2, 1]] ∧
    atBreakOrCall.OnlyMoves 9 after.scope ∧
    ∀ kind snapshots, threeAssigned.state.exits.get kind = some snapshots →
      ∃ taken, after.analysis.exits.get kind = some (snapshots ++ taken) ∧ ∀ path ∈ taken, atBreakOrCall.OnlyMoves 9 path := by
  have ends : endsWith (walkStmtWithin 11 9) atBreakOrCall (fun _ after => [0, 1, 2].map after.scope.versionOf == [2, 1, 2] &&
      (after.analysis.exits.get .brk).map (·.map fun path => [0, 1, 2].map path.versionOf) == some [[1, 1, 1], [2, 2, 1]]) = true := by
    decide +kernel
  obtain ⟨left, after, walked, told⟩ := exists_of_endsWith ends
  simp only [Bool.and_eq_true, beq_iff_eq] at told
  have start : [0, 1, 2].map atBreakOrCall.scope.versionOf = [2, 1, 1] := by decide +kernel
  exact ⟨left, after, walked, ⟨told.1, start⟩, told.2, only_written_or_escaped_move _ _ _ atBreakOrCall_scope_mem walked⟩

end Walk

end ValueFlow
