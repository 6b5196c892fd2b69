import ValueFlow.Proofs.Integrity.Law
import ValueFlow.Proofs.WellFormed.Edits

/-!
# Operations that cannot fail

At a sound site an operation fails for two reasons only: a variable is not registered, or a loop is
left where none is open. `Site.Succeeds` says that an operation does not fail and leaves a sound
site in which every open registry is still open (`Site.Onward`). `Walk.Succeeds` says the same of a
part of a walk over an arena that is laid out, and that the arena is laid out afterwards, by a
layout that extends the one before. Both go along with the sequence of operations (`Succeeds.bind`)
and into the brackets of a walk.

What is known of a value that a part ends with may depend on the layout and on the log, and on
nothing else, so that it outlives what happens next to the scope and to the registries.
-/

namespace ValueFlow
set_option autoImplicit false

/-- The site is sound, has gained, and has no registry closed that was open. -/
structure Site.Onward (before after : Site) : Prop where
  sound : after.Sound
  grows : before.analysis.Grows after.analysis
  opened : ∀ kind, (before.analysis.exits.get kind).isSome → (after.analysis.exits.get kind).isSome

/-- The operation does not fail, and its value is as described. -/
def Site.Succeeds {α : Type} (act : SiteM α) (site : Site) (well : α → Traces → Prop) : Prop :=
  Ends act site (fun value after => site.Onward after ∧ well value after.analysis.traces) fun _ _ => False

namespace Variables

variable {vars newer : Variables} {var : VarId}

/-- Registered variables stay registered when counters move on. -/
theorem Advances.isSome (advances : vars.Advances newer) (registered : (vars.get? var).isSome) :
    (newer.get? var).isSome := by
  obtain ⟨slot, found⟩ := Option.isSome_iff_exists.1 registered
  obtain ⟨last, -, again⟩ := advances.slot var slot found
  simp [again]

theorem Advances.knows (advances : vars.Advances newer) (known : vars.Knows var) :
    newer.Knows var := by
  obtain ⟨slot, found, fallback⟩ := known
  obtain ⟨last, -, again⟩ := advances.slot var slot found
  exact ⟨_, again, fun other mem => advances.isSome (fallback other mem)⟩

theorem Knows.isSome (known : vars.Knows var) : (vars.get? var).isSome := by
  obtain ⟨slot, found, -⟩ := known
  simp [found]

end Variables

namespace Site

variable {site middle after : Site} {α β : Type} {act : SiteM α} {well : α → Traces → Prop}
  {var : VarId}

theorem Onward.refl (sound : site.Sound) : site.Onward site :=
  ⟨sound, .refl _, fun _ opened => opened⟩

theorem Onward.trans (early : site.Onward middle) (late : middle.Onward after) :
    site.Onward after :=
  ⟨late.sound, early.grows.trans late.grows,
    fun kind opened => late.opened kind (early.opened kind opened)⟩

/-- Nothing but counters and the log changed. -/
theorem Onward.of_logOnly (sound : after.Sound) (grows : site.analysis.Grows after.analysis)
    (logOnly : site.analysis.LogOnly after.analysis) : site.Onward after :=
  ⟨sound, grows, fun kind opened => by rwa [logOnly.exits]⟩

theorem Looked.onward (looked : site.Looked var after) : site.Onward after :=
  .of_logOnly looked.sound looked.grows looked.logOnly

theorem Wrote.onward {origin : Version → Origin} {version : Version}
    (wrote : site.Wrote var origin version after) : site.Onward after :=
  .of_logOnly wrote.sound wrote.grows wrote.logOnly

theorem Refuses.absurd {fault : Fault} (refuses : site.Refuses var fault after)
    (registered : (site.analysis.vars.get? var).isSome) : False := by
  rw [refuses.absent] at registered
  cases registered

/-- The variables that a sound site has looked at are registered. -/
theorem Sound.isSome_of_active (sound : site.Sound) (looked : var ∈ site.scope.activeVars) :
    (site.analysis.vars.get? var).isSome := by
  obtain ⟨version, active⟩ := Scope.mem_activeVars.1 looked
  obtain ⟨slot, found, -⟩ := sound.analysis.traces.entry _ (sound.scope var version active)
  exact Option.isSome_iff_exists.2 ⟨slot, found⟩

namespace Succeeds

theorem of_looked (ends : Ends act site (fun _ after => site.Looked var after) (site.Refuses var))
    (registered : (site.analysis.vars.get? var).isSome) : Succeeds act site fun _ _ => True :=
  ends.mono (fun _ _ looked => ⟨looked.onward, trivial⟩) fun _ _ refuses =>
    refuses.absurd registered

end Succeeds

section Operations

variable (sound : site.Sound)

include sound

theorem succeeds_currentVersion (registered : (site.analysis.vars.get? var).isSome) :
    Succeeds (currentVersion var) site fun _ _ => True :=
  .of_looked ((ends_currentVersion sound var).mono (fun _ _ told => told.2) fun _ _ fell =>
    fell) registered

theorem succeeds_read (registered : (site.analysis.vars.get? var).isSome) :
    Succeeds (read var) site fun _ _ => True :=
  .of_looked (ends_read sound var) registered

theorem succeeds_release (registered : (site.analysis.vars.get? var).isSome) :
    Succeeds (release var) site fun _ _ => True :=
  .of_looked (ends_release sound var) registered

theorem ends_assign_onward (var : VarId) (node : NodeId) :
    Ends (assign var node) site (fun _ after => site.Onward after) (site.Refuses var) := by
  unfold assign
  rw [ends_bind]
  exact (ends_write sound (Origin.isWrite_assigned node) var).mono (fun _ _ told => told.2.onward)
    fun _ _ refuses => refuses

theorem succeeds_assign (registered : (site.analysis.vars.get? var).isSome) (node : NodeId) :
    Succeeds (assign var node) site fun _ _ => True :=
  (ends_assign_onward sound var node).mono (fun _ _ onward => ⟨onward, trivial⟩) fun _ _ refuses =>
    refuses.absurd registered

/-- Behind a delete it can be told whether the delete found its variable unbound. -/
theorem ends_delete_onward (var : VarId) :
    Ends (delete var) site
      (fun prior after => site.Onward after ∧ ∃ answer,
        after.analysis.traces.isSurelyUnbound prior = .ok answer)
      (site.Refuses var) := by
  unfold delete
  rw [ends_bind]
  refine (ends_write sound Origin.isWrite_unbound var).mono ?_ fun _ _ refuses => refuses
  rintro ⟨previous, version⟩ after ⟨rfl, wrote⟩
  obtain ⟨answer, told, -⟩ := wrote.sound.analysis.traces.everyLeaf Traces.leavesUnbound
    (wrote.previous_mem Origin.isWrite_unbound)
  exact ends_pure.2 ⟨wrote.onward, answer, told⟩

theorem succeeds_delete (registered : (site.analysis.vars.get? var).isSome) :
    Succeeds (delete var) site fun prior traces => ∃ answer,
      traces.isSurelyUnbound prior = .ok answer :=
  (ends_delete_onward sound var).mono (fun _ _ told => told) fun _ _ refuses =>
    refuses.absurd registered

/-- Variables are forgotten up to the first one that is not registered. -/
theorem ends_forgetAll_onward (vars : List VarId) :
    Ends (forgetAll vars) site (fun _ after => site.Onward after)
      fun fault after => site.Onward after ∧ ∃ var ∈ vars, fault = .unregistered var ∧
        site.analysis.vars.get? var = none := by
  refine (ends_forM (fun pending after => site.Onward after ∧ pending ⊆ vars) ?_
    ⟨.refl sound, fun _ mem => mem⟩).mono (fun _ _ told => told.1) fun _ _ fell => fell
  rintro var pending middle ⟨onward, listed⟩
  rw [ends_discard]
  refine (ends_forget onward.sound var).mono (fun _ after wrote => ?_) ?_
  · exact ⟨onward.trans wrote.onward, fun other mem => listed (List.mem_cons_of_mem _ mem)⟩
  · rintro _ _ ⟨rfl, rfl, absent⟩
    refine ⟨onward, var, listed List.mem_cons_self, rfl, ?_⟩
    by_contra registered
    have still := onward.grows.vars.isSome (Option.isSome_iff_ne_none.2 registered)
    rw [absent] at still
    cases still

theorem succeeds_forgetAll {vars : List VarId}
    (registered : ∀ var ∈ vars, (site.analysis.vars.get? var).isSome) :
    Succeeds (forgetAll vars) site fun _ _ => True := by
  refine (ends_forgetAll_onward sound vars).mono (fun _ _ onward => ⟨onward, trivial⟩) ?_
  rintro _ _ ⟨-, var, mem, -, absent⟩
  have known := registered var mem
  rw [absent] at known
  cases known

theorem succeeds_escape (registered : (site.analysis.vars.get? var).isSome) :
    Succeeds (escape var) site fun _ _ => True := by
  refine (ends_escape sound var).mono ?_ fun _ _ refuses => refuses.absurd registered
  rintro _ after ⟨slot, -, outcome⟩
  split at outcome
  · obtain ⟨version, wrote⟩ := outcome
    exact ⟨wrote.onward, trivial⟩
  · subst outcome
    exact ⟨.refl sound, trivial⟩

theorem succeeds_escapeAll : Succeeds escapeAll site fun _ _ => True := by
  refine (ends_forM (fun pending after => site.Onward after ∧ ∀ var ∈ pending,
    (after.analysis.vars.get? var).isSome) ?_ ⟨.refl sound, fun var => sound.isSome_of_active⟩).mono
    (fun _ _ told => ⟨told.1, trivial⟩) fun _ _ fell => fell
  rintro var pending middle ⟨onward, waiting⟩
  refine (succeeds_escape onward.sound (waiting var (by simp))).mono ?_ fun _ _ fell => fell
  rintro _ after ⟨late, -⟩
  exact ⟨onward.trans late, fun other mem => late.grows.vars.isSome (waiting other (by simp [mem]))⟩

theorem succeeds_join {paths : List Scope} (nonempty : paths ≠ [])
    (backed : ∀ path ∈ paths, path.Backed site.analysis.traces) :
    Succeeds (join paths) site fun _ _ => True := by
  refine (ends_join sound nonempty backed).mono ?_ fun _ _ impossible => impossible
  rintro _ after (⟨path, rfl, rfl⟩ | ⟨-, joined⟩)
  · exact ⟨⟨⟨sound.analysis, sound.scope.adopt (backed path (by simp))⟩, .refl _,
      fun _ opened => opened⟩, trivial⟩
  · exact ⟨.of_logOnly joined.sound joined.grows joined.logOnly, trivial⟩

theorem succeeds_joinArms {yes no : Option Scope}
    (backedYes : ∀ path ∈ yes, path.Backed site.analysis.traces)
    (backedNo : ∀ path ∈ no, path.Backed site.analysis.traces) :
    Succeeds (joinArms yes no) site fun _ _ => True := by
  have own := sound.scope
  cases yes with
  | none =>
    cases no with
    | none => exact ⟨.refl sound, trivial⟩
    | some path =>
      exact succeeds_join sound (List.cons_ne_nil site.scope [path])
        (by simpa using ⟨own, backedNo path rfl⟩)
  | some path =>
    cases no with
    | none =>
      exact succeeds_join sound (List.cons_ne_nil site.scope [path])
        (by simpa using ⟨own, backedYes path rfl⟩)
    | some other =>
      exact succeeds_join sound (List.cons_ne_nil path [other])
        (by simpa using ⟨backedYes path rfl, backedNo other rfl⟩)

/-- An exit is taken, or it is a break or a continue whose registry is not open. -/
theorem ends_exit_onward (kind : ExitKind) :
    Ends (scopeHere >>= fun scope => liftM (Analysis.recordExit kind scope)) site
      (fun _ after => site.Onward after)
      fun fault after => after = site ∧ fault = .strayExit kind ∧ kind ≠ .ret ∧
        site.analysis.exits.get kind = none := by
  refine ends_liftAnalysis.2 ((Analysis.ends_recordExit site.scope).mono ?_ ?_)
  · rintro _ state (⟨snapshots, held, rfl⟩ | ⟨-, -, rfl⟩)
    · exact ⟨⟨sound.analysis.parkOne held sound.scope _, sound.scope⟩, .withSnapshots _ _ _,
        fun other => Analysis.isSome_withSnapshots _⟩
    · exact .refl sound
  · rintro fault state ⟨told, rfl, closed, early⟩
    exact ⟨rfl, told, early, closed⟩

/-- A return may be taken anywhere, a break and a continue where their registry is open. -/
theorem succeeds_recordExit {kind : ExitKind}
    (opened : kind = .ret ∨ (site.analysis.exits.get kind).isSome) :
    Succeeds (scopeHere >>= fun scope => liftM (Analysis.recordExit kind scope)) site
      fun _ _ => True := by
  refine (ends_exit_onward sound kind).mono (fun _ _ onward => ⟨onward, trivial⟩) ?_
  rintro _ _ ⟨-, -, early, closed⟩
  have held := opened.resolve_left early
  rw [closed] at held
  cases held

theorem succeeds_takeExits (caught : Catch) (kind : ExitKind) :
    Succeeds (liftM (Analysis.takeExits caught kind)) site fun snapshots traces =>
      ∀ snapshot ∈ snapshots, snapshot.Backed traces := by
  refine ends_liftAnalysis.2
    ((Analysis.ends_takeExits caught).mono ?_ fun _ _ impossible => impossible)
  rintro snapshots state (⟨-, opened, rfl⟩ | ⟨rfl, -, rfl⟩)
  · exact ⟨⟨⟨sound.analysis.park (by simp), sound.scope⟩, .withSnapshots _ _ _,
      fun other => Analysis.isSome_withSnapshots _⟩, sound.analysis.parked kind snapshots opened⟩
  · exact ⟨.refl sound, by simp⟩

end Operations

end Site

namespace Walk

/-- The walk stands at a sound site, over an arena that keeps to the layout. -/
structure Fits (layout : Layout) (walk : Walk) : Prop where
  sound : walk.toSite.Sound
  laid : walk.arena.Laid walk.analysis.vars layout

/-- The walk has gone on, over an arena that keeps to a larger layout. -/
structure Onward (older : Layout) (before : Walk) (newer : Layout) (after : Walk) : Prop where
  site : before.toSite.Onward after.toSite
  laid : after.arena.Laid after.analysis.vars newer
  extends_ : older.Extends newer

/-- The part of the walk does not fail, and its value is as described. -/
def Succeeds {α : Type} (layout : Layout) (act : WalkM α) (walk : Walk) (well : Layout → α → Traces → Prop) : Prop :=
  Ends act walk (fun value after => ∃ newer, Onward layout walk newer after ∧ well newer value after.analysis.traces) fun _ _ => False

variable {layout newer newest : Layout} {walk middle after : Walk} {α β : Type} {act : WalkM α}
  {well : Layout → α → Traces → Prop} {last : Layout → β → Traces → Prop}

namespace Onward

theorem refl (fits : walk.Fits layout) : Onward layout walk layout walk :=
  ⟨.refl fits.sound, fits.laid, .refl layout⟩

theorem trans (early : Onward layout walk newer middle) (late : Onward newer middle newest after) :
    Onward layout walk newest after :=
  ⟨early.site.trans late.site, late.laid, early.extends_.trans late.extends_⟩

theorem fits (onward : Onward layout walk newer after) : after.Fits newer :=
  ⟨onward.site.sound, onward.laid⟩

end Onward

/-- The walk stands at another site, with what the site before knew. -/
theorem Fits.at_site (fits : walk.Fits layout) {site : Site} (onward : walk.toSite.Onward site) :
    Onward layout walk layout { walk with toSite := site } :=
  ⟨onward, fits.laid.advance fun _ => onward.grows.vars.knows, .refl layout⟩

/-- A walk inside a construct fits as the one around it does. -/
theorem Fits.inside (fits : walk.Fits layout) (caught : Catch) :
    Fits layout { walk with analysis := walk.analysis.inside caught } :=
  ⟨⟨fits.sound.analysis.inside caught, fits.sound.scope⟩, fits.laid⟩

theorem Fits.fork (fits : walk.Fits layout) (label : String) :
    Fits layout { walk with scope := walk.scope.fork label } :=
  ⟨⟨fits.sound.analysis, fits.sound.scope.fork label⟩, fits.laid⟩

/-- Other notices and dynamic names are no concern of a layout. -/
theorem Fits.unseen (fits : walk.Fits layout) {edits : EditLog} (dynamicNames : Bool)
    (more : walk.analysis.edits.size ≤ edits.size) :
    Onward layout walk layout
      { walk with analysis := { walk.analysis with edits, dynamicNames } } :=
  ⟨⟨⟨fits.sound.analysis.unseen edits dynamicNames, fits.sound.scope⟩,
    ⟨.refl _, .refl _, .refl _, rfl, more⟩, fun _ opened => opened⟩, fits.laid, .refl layout⟩

namespace Succeeds

theorem pure (fits : walk.Fits layout) {value : α}
    (given : well layout value walk.analysis.traces) :
    Succeeds layout (Pure.pure value) walk well :=
  ends_pure.2 ⟨layout, .refl fits, given⟩

theorem bind {next : α → WalkM β} (first : Succeeds layout act walk well)
    (rest : ∀ newer value after, Onward layout walk newer after →
      well newer value after.analysis.traces → Succeeds newer (next value) after last) :
    Succeeds layout (act >>= next) walk last := by
  refine ends_bind.2 (Ends.mono first ?_ fun _ _ fell => fell)
  rintro value middle ⟨newer, early, held⟩
  refine Ends.mono (rest newer value middle early held) ?_ fun _ _ fell => fell
  rintro answer after ⟨newest, late, told⟩
  exact ⟨newest, early.trans late, told⟩

theorem mono {well' : Layout → α → Traces → Prop} (first : Succeeds layout act walk well)
    (given : ∀ newer value after, Onward layout walk newer after →
      well newer value after.analysis.traces → well' newer value after.analysis.traces) :
    Succeeds layout act walk well' := by
  refine Ends.mono first ?_ fun _ _ fell => fell
  rintro value after ⟨newer, onward, held⟩
  exact ⟨newer, onward, given newer value after onward held⟩

/-- A look at the arena costs nothing. -/
theorem arenaHere_bind {next : Arena → WalkM β}
    (rest : Succeeds layout (next walk.arena) walk last) :
    Succeeds layout (arenaHere >>= next) walk last := rest

theorem scopeHere_bind {next : Scope → WalkM β}
    (rest : Succeeds layout (next walk.scope) walk last) :
    Succeeds layout (liftM Site.scopeHere >>= next) walk last := rest

theorem fallback_bind {var : VarId} {next : Option VarId → WalkM β}
    (rest : Succeeds layout
      (next ((walk.analysis.vars.get? var).bind (·.storage.fallback?))) walk last) :
    Succeeds layout (fallback? var >>= next) walk last := rest

theorem get_bind {next : Walk → WalkM β} (rest : Succeeds layout (next walk) walk last) :
    Succeeds layout (get >>= next) walk last :=
  rest

theorem lift {act : SiteM α} {well : α → Traces → Prop} (fits : walk.Fits layout)
    (succeeds : Site.Succeeds act walk.toSite well) :
    Succeeds layout (liftM act) walk fun _ => well :=
  ends_liftSite.2 (Ends.mono succeeds (fun _ _ told => ⟨layout, fits.at_site told.1, told.2⟩)
    fun _ _ fell => fell)

theorem signal (fits : walk.Fits layout) (id : NodeId) (edit : Option Edit) :
    Succeeds layout (Walk.signal id edit) walk fun _ _ _ => True := by
  cases edit with
  | none => exact .pure fits trivial
  | some edit =>
    refine .arenaHere_bind (ends_liftAnalysisWalk.2 ?_)
    exact ⟨layout, fits.unseen _ (EditLog.size_le_signal _ _ _), trivial⟩

theorem assumeDynamicNames (fits : walk.Fits layout) :
    Succeeds layout (liftM Analysis.assumeDynamicNames) walk fun _ _ _ => True :=
  ends_liftAnalysisWalk.2 ⟨layout, fits.unseen _ (Nat.le_refl _), trivial⟩

theorem editStmt (fits : walk.Fits layout) (id : NodeId) {edit : Stmt → Stmt}
    (blocks : ∀ stmt, (Node.stmt (edit stmt)).isBlock = (Node.stmt stmt).isBlock)
    (admits : ∀ stmt, layout.Admits walk.analysis.vars id (.stmt stmt) →
      layout.Admits walk.analysis.vars id (.stmt (edit stmt))) :
    Succeeds layout (Walk.editStmt id edit) walk fun _ _ _ => True :=
  ends_modify.2 ⟨layout, ⟨.refl fits.sound, fits.laid.mapStmt blocks admits, .refl layout⟩, trivial⟩

theorem editExpr (fits : walk.Fits layout) (id : NodeId) {edit : Expr → Expr}
    (admits : ∀ expr, layout.Admits walk.analysis.vars id (.expr expr) →
      layout.Admits walk.analysis.vars id (.expr (edit expr))) :
    Succeeds layout (Walk.editExpr id edit) walk fun _ _ _ => True :=
  ends_modify.2 ⟨layout, ⟨.refl fits.sound, fits.laid.mapExpr admits, .refl layout⟩, trivial⟩

/-- A node that is added in the place of an old one replaces it. -/
theorem pushLike (fits : walk.Fits layout) {id : NodeId} {node : Node}
    (place : layout.places node.class_ id) (admits : layout.Admits walk.analysis.vars id node)
    (noBlock : ¬ layout.blocks id) :
    Succeeds layout (Walk.pushLike id node) walk fun newer other _ =>
      layout.Replaces newer node.class_ id other := by
  obtain ⟨newer, early, laid, replaces⟩ := fits.laid.push (walk.arena.span id) place admits noBlock
  exact ⟨newer, ⟨.refl fits.sound, laid, early⟩, replaces⟩

theorem located (span : Span) (succeeds : Succeeds layout act walk well) :
    Succeeds layout (Walk.located span act) walk well :=
  ends_located.2 succeeds

/-- The fork in which a part of the walk ended holds recorded versions only. -/
theorem inFork (label : String) (fits : walk.Fits layout)
    (succeeds : Succeeds layout act { walk with scope := walk.scope.fork label } well) :
    Succeeds layout (Walk.inFork label act) walk fun newer answer traces =>
      well newer answer.1 traces ∧ answer.2.Backed traces := by
  refine ends_inFork.2 (Ends.mono succeeds ?_ fun _ _ fell => fell)
  rintro value after ⟨newer, onward, held⟩
  have own : walk.scope.Backed after.analysis.traces :=
    fits.sound.scope.extend onward.site.grows.traces
  exact ⟨newer,
    ⟨⟨⟨onward.site.sound.analysis, own⟩, onward.site.grows, onward.site.opened⟩, onward.laid,
      onward.extends_⟩, held, onward.site.sound.scope⟩

/-- Behind a construct the registries that it caught are as open as they were, and so are the
others. -/
theorem catching (caught : Catch) (fits : walk.Fits layout)
    (succeeds : Succeeds layout act { walk with analysis := walk.analysis.inside caught } well) :
    Succeeds layout (Walk.catching caught act) walk well := by
  refine ends_catching.2 (Ends.mono succeeds ?_ fun _ _ fell => fell)
  rintro value after ⟨newer, onward, held⟩
  have grows := onward.site.grows
  refine ⟨newer,
    ⟨⟨⟨onward.site.sound.analysis.behind fits.sound.analysis grows.traces caught,
          onward.site.sound.scope⟩,
        ⟨grows.traces, grows.uses, grows.vars, grows.options, grows.edits⟩, fun kind opened => ?_⟩,
      onward.laid, onward.extends_⟩, held⟩
  change ((after.analysis.exits.leave caught walk.analysis.exits).get kind).isSome
  rw [Exits.get_leave]
  split
  · exact opened
  · rename_i free
    refine onward.site.opened kind ?_
    change ((walk.analysis.exits.enter caught).get kind).isSome
    rwa [Exits.get_enter, if_neg free]

end Succeeds

end Walk

end ValueFlow
