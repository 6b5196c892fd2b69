import ValueFlow.Proofs.Renewal.Abreast
import ValueFlow.Proofs.Silence.Tells

/-!
# The brackets of two walks abreast

Two walks abreast walk arenas that are the same up to versions, and keep to the statements of the
track (`Track.Mirrors`). Each bracket of a walk leads from a concurrence inside to one outside. A
scope that comes out of a fork or of a registry on both sides is a path on which both tell the same
(`Track.Reach`), which is what the joins behind ask for.
-/

namespace ValueFlow
set_option autoImplicit false

/-- The variable of a tolerant delete. -/
def Stmt.tolerated? : Stmt → Option VarId
  | .delete target tolerant _ => if tolerant then some target else none
  | _ => none

namespace Track

variable (track : Track)

/-- The statements of the track, which may do anything. -/
def region : Region := ⟨track.stmts, fun _ => True, fun _ => True, True⟩

/-- The statements of the track have their children among them, and their tolerant deletes clear its
variables. -/
structure Guards (arena : Arena) : Prop where
  encloses : track.region.Encloses arena
  clears : ∀ id stmt, track.stmts id → arena.stmt? id = some stmt → ∀ var ∈ stmt.tolerated?, track.clears var

/-- The arenas are the same up to versions, and keep to the track. -/
structure Mirrors (left right : Arena) : Prop where
  bare : left.bare = right.bare
  guards : track.Guards left

/-- Two walks side by side. -/
def ofWalk : Pairing Walk := ⟨Walk.toSite, fun left right => track.Mirrors left.arena right.arena⟩

/-- Control reaches a point behind two states over these two paths, which tell the same and no less
than the scopes of the states. -/
structure Reach (left right : Site) (path other : Scope) : Prop where
  backed : path.Backed left.analysis.traces
  backedRight : other.Backed right.analysis.traces
  level : track.Level (path.outline left.analysis.traces) (other.outline right.analysis.traces)
  within : left.sketch.scope.Within (path.outline left.analysis.traces)

variable {track}

namespace Guards

variable {arena : Arena} (guards : track.Guards arena)
include guards

theorem mapStmt {id : NodeId} {edit : Stmt → Stmt}
    (keeps : ∀ stmt, track.region.HasStmt stmt → track.region.HasStmt (edit stmt))
    (same : ∀ stmt, (edit stmt).tolerated? = stmt.tolerated?) :
    track.Guards (arena.mapStmt id edit) where
  encloses := guards.encloses.mapStmt keeps
  clears other stmt mem found var named := by
    rw [Arena.stmt?_mapStmt] at found
    split at found
    · rename_i here
      obtain ⟨old, held, rfl⟩ := Option.map_eq_some_iff.1 found
      rw [same] at named
      exact guards.clears id old (here ▸ mem) held var named
    · exact guards.clears other stmt mem found var named

theorem mapExpr {id : NodeId} {edit : Expr → Expr}
    (keeps : ∀ expr, track.region.HasExpr expr → track.region.HasExpr (edit expr)) :
    track.Guards (arena.mapExpr id edit) where
  encloses := guards.encloses.mapExpr keeps
  clears other stmt mem found := guards.clears other stmt mem (by simpa using found)

/-- A node may be added that has no statements below it. -/
theorem push {node : Node} (span : Span)
    (stmt : ∀ stmt ∈ node.stmt?, stmt.children = [] ∧ stmt.tolerated? = none) :
    track.Guards (arena.push node span) where
  encloses := by
    refine guards.encloses.push span
      (fun held named => ⟨?_, fun _ _ => trivial, fun _ _ => trivial⟩) fun _ _ =>
      ⟨fun _ _ => trivial, fun _ => trivial⟩
    rw [(stmt held named).1]
    exact nofun
  clears other held mem found var named := by
    rw [Arena.stmt?_push] at found
    split at found
    · rw [(stmt held found).2] at named
      cases named
    · exact guards.clears other held mem found var named

end Guards

section Carry

variable {σ : Type} {pairing : Pairing σ} {frame : Frame} {left leftAfter right rightAfter : σ}
  (beside : track.Beside pairing frame left right)
  (onward : track.Onward pairing frame left leftAfter right rightAfter)
  (same : (pairing.site leftAfter).scope = (pairing.site left).scope)
include beside onward same

/-- A scope that the walk has left alone tells what it told. -/
theorem Onward.sketch_scope :
    (pairing.site leftAfter).sketch.scope = (pairing.site left).sketch.scope := by
  change (pairing.site leftAfter).scope.outline _ = _
  rw [same]
  exact beside.soundLeft.scope.outline_eq beside.soundLeft.analysis.traces
    onward.soundLeft.analysis.traces onward.growsLeft.traces

/-- Paths stay what they are while the walk goes on from the same scopes. -/
theorem Reach.carry {path other : Scope}
    (reach : track.Reach (pairing.site left) (pairing.site right) path other) :
    track.Reach (pairing.site leftAfter) (pairing.site rightAfter) path other := by
  have told :=
    reach.backed.outline_eq beside.soundLeft.analysis.traces onward.soundLeft.analysis.traces
      onward.growsLeft.traces
  have toldRight :=
    reach.backedRight.outline_eq beside.soundRight.analysis.traces onward.soundRight.analysis.traces
      onward.growsRight.traces
  refine ⟨reach.backed.extend onward.growsLeft.traces,
    reach.backedRight.extend onward.growsRight.traces, ?_, ?_⟩
  · rw [told, toldRight]
    exact reach.level
  · rw [told, onward.sketch_scope beside same]
    exact reach.within

end Carry

section Brackets

variable {frame : Frame} {α β : Type} {left right : Walk}

/-- Only the arenas have changed. -/
theorem Beside.withArenas (beside : track.Beside track.ofWalk frame left right)
    {arena other : Arena} (mirrors : track.Mirrors arena other) :
    track.Onward track.ofWalk frame left { left with arena } right { right with arena := other } :=
  { beside with
    fits := mirrors
    growsLeft := .refl _
    growsRight := .refl _
    within := .refl _ }

theorem Beside.fork (beside : track.Beside track.ofWalk frame left right) (label : String) :
    track.Beside track.ofWalk frame { left with scope := left.scope.fork label }
      { right with scope := right.scope.fork label } :=
  { beside with
    soundLeft := ⟨beside.soundLeft.analysis, beside.soundLeft.scope.fork label⟩
    soundRight := ⟨beside.soundRight.analysis, beside.soundRight.scope.fork label⟩ }

theorem Beside.inside (beside : track.Beside track.ofWalk frame left right) (caught : Catch) :
    track.Beside track.ofWalk (frame.inside caught left.sketch.scope)
      { left with analysis := left.analysis.inside caught }
      { right with analysis := right.analysis.inside caught } where
  soundLeft := ⟨beside.soundLeft.analysis.inside caught, beside.soundLeft.scope⟩
  soundRight := ⟨beside.soundRight.analysis.inside caught, beside.soundRight.scope⟩
  edits := beside.edits
  matches_ := by
    have matches_ := beside.matches_.inside caught
    rw [← Site.sketch_inside, ← Site.sketch_inside] at matches_
    exact matches_
  fits := beside.fits

theorem Beside.sites (beside : track.Beside track.ofWalk frame left right) :
    track.Beside .ofSite frame left.toSite right.toSite :=
  { beside with fits := trivial }

theorem Onward.ofSites {site other : Site} (beside : track.Beside track.ofWalk frame left right)
    (onward : track.Onward .ofSite frame left.toSite site right.toSite other) :
    track.Onward track.ofWalk frame left { left with toSite := site } right
      { right with toSite := other } :=
  { onward with fits := beside.fits }

/-- The scope at hand is a path to the point at hand. -/
theorem Beside.reach (beside : track.Beside track.ofWalk frame left right) :
    track.Reach left.toSite right.toSite left.scope right.scope :=
  ⟨beside.soundLeft.scope, beside.soundRight.scope, beside.matches_.scope.level, .refl _⟩

/-- Whatever does not depend on versions is the same of both arenas. -/
theorem Beside.ask (beside : track.Beside track.ofWalk frame left right) (ask : Arena → α)
    (bare : ∀ arena, ask arena.bare = ask arena) :
    ask right.arena = ask left.arena :=
  Arena.congr_bare beside.fits.bare ask bare

/-- The variable that is read where an unbound local is named is the same on both sides. -/
theorem Beside.fallback (beside : track.Beside track.ofWalk frame left right) (var : VarId) :
    (right.analysis.vars.get? var).bind (·.storage.fallback?) = (left.analysis.vars.get? var).bind
      (·.storage.fallback?) := by
  have told (vars : Variables) : (vars.slots var).bind (·.storage.fallback?) =
      (vars.get? var).bind (·.storage.fallback?) := by
    unfold Variables.slots
    cases vars.get? var <;> rfl
  have same : left.analysis.vars.slots var = right.analysis.vars.slots var := beside.slots var
  rw [← told, ← told, same]

namespace Concurs

/-- Paths to the point at hand are joined. -/
theorem join_of_reach {paths others : List Scope}
    (beside : track.Beside track.ofWalk frame left right) (some_ : paths ≠ [])
    (reach : List.Forall₂ (track.Reach left.toSite right.toSite) paths others) :
    track.Concurs .ofSite frame (Site.join paths) left.toSite (Site.join others) right.toSite
      fun _ _ _ _ => True := by
  have backed : ∀ path ∈ paths, path.Backed left.analysis.traces :=
    ((List.forall₂_and_left paths others).1 (reach.imp fun _ _ here => ⟨here.backed, here⟩)).1
  have backedRight : ∀ path ∈ others, path.Backed right.analysis.traces :=
    ((List.forall₂_and_left others paths).1
      (.flip (reach.imp fun _ _ here => ⟨here.backedRight, here⟩))).1
  have within : ∀ path ∈ paths, left.sketch.scope.Within (path.outline left.analysis.traces) :=
    ((List.forall₂_and_left paths others).1 (reach.imp fun _ _ here => ⟨here.within, here⟩)).1
  have levels :=
    List.forall₂_map_left_iff.2
      (List.forall₂_map_right_iff.2 (reach.imp fun _ _ here => here.level))
  exact .join beside.sites some_ backed backedRight levels within

theorem lift {act : SiteM α} {other : SiteM β} {given : α → Site → β → Site → Prop}
    (beside : track.Beside track.ofWalk frame left right)
    (concurs : track.Concurs .ofSite frame act left.toSite other right.toSite given) :
    track.Concurs track.ofWalk frame (liftM act : WalkM α) left (liftM other : WalkM β) right
      fun value after answer afterRight =>
      given value after.toSite answer afterRight.toSite := by
  refine ends_liftSite.2 (Ends.mono concurs (fun value after ends => ?_) fun fault after ends => ?_)
  · exact ends_liftSite.2
      (ends.mono (fun answer afterRight told => ⟨told.1.ofSites beside, told.2⟩)
        fun _ _ impossible => impossible)
  · exact ends_liftSite.2
      (ends.mono (fun _ _ impossible => impossible) fun _ _ fell => ⟨fell.1, fell.2.1, beside.fits⟩)

theorem arenaHere_bind {next : Arena → WalkM α} {nextSecond : Arena → WalkM β}
    {given : α → Walk → β → Walk → Prop}
    (rest : track.Concurs track.ofWalk frame (next left.arena) left
      (nextSecond right.arena) right given) :
    track.Concurs track.ofWalk frame (Walk.arenaHere >>= next) left (Walk.arenaHere >>= nextSecond)
      right given := rest

theorem scopeHere_bind {next : Scope → WalkM α} {nextSecond : Scope → WalkM β}
    {given : α → Walk → β → Walk → Prop}
    (rest : track.Concurs track.ofWalk frame (next left.scope) left
      (nextSecond right.scope) right given) :
    track.Concurs track.ofWalk frame (liftM Site.scopeHere >>= next) left
      (liftM Site.scopeHere >>= nextSecond) right given := rest

theorem get_bind {next : Walk → WalkM α} {nextSecond : Walk → WalkM β}
    {given : α → Walk → β → Walk → Prop}
    (rest : track.Concurs track.ofWalk frame (next left) left (nextSecond right) right given) :
    track.Concurs track.ofWalk frame (get >>= next) left (get >>= nextSecond) right given := rest

/-- The arenas are changed to ones that are the same up to versions. -/
theorem edit {change changeRight : Walk → Arena}
    (beside : track.Beside track.ofWalk frame left right)
    (mirrors : track.Mirrors (change left) (changeRight right)) :
    track.Concurs track.ofWalk frame (modify fun walk => { walk with arena := change walk }) left
      (modify fun walk => { walk with arena := changeRight walk }) right fun _ after _ afterRight =>
        after.toSite = left.toSite ∧ afterRight.toSite = right.toSite := by
  unfold Concurs Abreast
  rw [ends_modify, ends_modify]
  exact ⟨beside.withArenas mirrors, rfl, rfl⟩

/-- A statement is edited on both sides, in the same way up to versions. -/
theorem editStmt (id : NodeId) {edit other : Stmt → Stmt} (shape : Stmt → Stmt)
    (beside : track.Beside track.ofWalk frame left right)
    (first : ∀ stmt, (edit stmt).bare = shape stmt.bare)
    (second : ∀ stmt, (other stmt).bare = shape stmt.bare)
    (keeps : ∀ stmt, track.region.HasStmt stmt → track.region.HasStmt (edit stmt))
    (same : ∀ stmt, (edit stmt).tolerated? = stmt.tolerated?) :
    track.Concurs track.ofWalk frame (Walk.editStmt id edit) left (Walk.editStmt id other) right
      fun _ after _ afterRight =>
      after.toSite = left.toSite ∧ afterRight.toSite = right.toSite :=
  .edit beside ⟨Arena.bare_mapStmt_congr beside.fits.bare first second,
    beside.fits.guards.mapStmt keeps same⟩

theorem editExpr (id : NodeId) {edit other : Expr → Expr} (shape : Expr → Expr)
    (beside : track.Beside track.ofWalk frame left right)
    (first : ∀ expr, (edit expr).bare = shape expr.bare)
    (second : ∀ expr, (other expr).bare = shape expr.bare)
    (keeps : ∀ expr, track.region.HasExpr expr → track.region.HasExpr (edit expr)) :
    track.Concurs track.ofWalk frame (Walk.editExpr id edit) left (Walk.editExpr id other) right
      fun _ after _ afterRight =>
      after.toSite = left.toSite ∧ afterRight.toSite = right.toSite :=
  .edit beside ⟨Arena.bare_mapExpr_congr beside.fits.bare first second,
    beside.fits.guards.mapExpr keeps⟩

/-- A node without statements below it is added on both sides. -/
theorem pushLike {old : NodeId} {node : Node} (beside : track.Beside track.ofWalk frame left right)
    (stmt : ∀ stmt ∈ node.stmt?, stmt.children = [] ∧ stmt.tolerated? = none) :
    track.Concurs track.ofWalk frame (Walk.pushLike old node) left (Walk.pushLike old node) right
      (Same track.stmts) := by
  have span := beside.ask (·.span old) (Arena.span_bare · old)
  have size := beside.ask Arena.size Arena.size_bare
  have mirrors : track.Mirrors (left.arena.push node (left.arena.span old))
      (right.arena.push node (right.arena.span old)) := by
    refine ⟨?_, beside.fits.guards.push _ stmt⟩
    rw [Arena.bare_push, Arena.bare_push, beside.fits.bare, span]
  refine .arenaHere_bind
    (.bind (.edit beside mirrors) fun _ _ _ _ onward _ => .pure onward.toBeside ⟨size, ?_⟩)
  exact (beside.fits.guards.encloses.beyond _ (Nat.le_refl _)).1

/-- The same notice is given on both sides. -/
theorem signal (beside : track.Beside track.ofWalk frame left right) (id : NodeId)
    (edit : Option Edit) :
    track.Concurs track.ofWalk frame (Walk.signal id edit) left (Walk.signal id edit) right
      fun _ _ _ _ => True := by
  cases edit with
  | none => exact .pure beside trivial
  | some edit =>
    have span := beside.ask (·.span id) (Arena.span_bare · id)
    refine .arenaHere_bind ?_
    unfold Concurs Abreast Analysis.signal
    rw [ends_liftAnalysisWalk, ends_modify, ends_liftAnalysisWalk, ends_modify, span]
    have noisy := Site.noisy_signal beside.soundLeft edit (left.arena.span id)
    have noisyRight := Site.noisy_signal beside.soundRight edit (left.arena.span id)
    refine ⟨?_, trivial⟩
    exact {
      soundLeft := noisy.sound
      soundRight := noisyRight.sound
      edits := congrArg (EditLog.signal · edit (left.arena.span id)) beside.edits
      matches_ := beside.matches_
      fits := beside.fits
      growsLeft := noisy.grows
      growsRight := noisyRight.grows
      within := .refl _ }

theorem located {act : WalkM α} {other : WalkM β} {given : α → Walk → β → Walk → Prop} (span : Span)
    (concurs : track.Concurs track.ofWalk frame act left other right given) :
    track.Concurs track.ofWalk frame (Walk.located span act) left (Walk.located span other)
      right given := by
  refine ends_located.2 (Ends.mono concurs (fun _ _ ends => ends_located.2 ends) fun fault _ ends =>
    ends_located.2 ?_)
  exact ends.mono (fun _ _ impossible => impossible) fun other _ fell =>
    ⟨congrArg (·.within span) fell.1, fell.2⟩

/-- Behind a fork the scopes are the ones from before, and the scopes of the fork are a path to the
point behind. -/
theorem inFork {act : WalkM α} {other : WalkM β} {given : α → Walk → β → Walk → Prop}
    {label : String} {more : α × Scope → Walk → β × Scope → Walk → Prop}
    (beside : track.Beside track.ofWalk frame left right)
    (inner : track.Concurs track.ofWalk frame act { left with scope := left.scope.fork label } other
      { right with scope := right.scope.fork label } given)
    (behind : ∀ value inside answer insideRight,
      track.Onward track.ofWalk frame left { inside with scope := left.scope } right
      { insideRight with scope := right.scope } → track.Reach ⟨left.scope, inside.analysis⟩
      ⟨right.scope, insideRight.analysis⟩ inside.scope insideRight.scope →
      given value inside answer insideRight →
      more (value, inside.scope) { inside with scope := left.scope } (answer, insideRight.scope)
      { insideRight with scope := right.scope }) :
    track.Concurs track.ofWalk frame (Walk.inFork label act) left (Walk.inFork label other)
      right more := by
  refine ends_inFork.2
    (Ends.mono inner
      (fun value inside ends => ends_inFork.2 (ends.mono ?_ fun _ _ impossible => impossible))
      fun fault inside ends =>
      ends_inFork.2 (ends.mono (fun _ _ impossible => impossible) fun _ _ fell => fell))
  rintro answer insideRight ⟨onward, held⟩
  have sketch := beside.soundLeft.sketch_beside onward.soundLeft onward.growsLeft
  have sketchRight := beside.soundRight.sketch_beside onward.soundRight onward.growsRight
  have matches_ := beside.matches_.beside onward.matches_
  rw [← sketch, ← sketchRight] at matches_
  have outside : track.Onward track.ofWalk frame left { inside with scope := left.scope } right
      { insideRight with scope := right.scope } :=
    { soundLeft :=
        ⟨onward.soundLeft.analysis, beside.soundLeft.scope.extend onward.growsLeft.traces⟩
      soundRight :=
        ⟨onward.soundRight.analysis, beside.soundRight.scope.extend onward.growsRight.traces⟩
      edits := onward.edits
      matches_ := matches_.toMatches
      fits := onward.fits
      growsLeft := onward.growsLeft
      growsRight := onward.growsRight
      within := matches_.within }
  have own : left.scope.outline inside.analysis.traces = left.sketch.scope :=
    outside.sketch_scope beside rfl
  have reach : track.Reach ⟨left.scope, inside.analysis⟩ ⟨right.scope, insideRight.analysis⟩
      inside.scope insideRight.scope := by
    refine ⟨onward.soundLeft.scope, onward.soundRight.scope, onward.matches_.scope.level, ?_⟩
    change (left.scope.outline inside.analysis.traces).Within _
    rw [own]
    exact onward.within
  exact ⟨outside, behind value inside answer insideRight outside reach held⟩

/-- Behind a construct the registries around it are back. -/
theorem catching {act : WalkM α} {other : WalkM β} {given more : α → Walk → β → Walk → Prop}
    {caught : Catch} (beside : track.Beside track.ofWalk frame left right)
    (inner : track.Concurs track.ofWalk (frame.inside caught left.sketch.scope) act
      { left with analysis := left.analysis.inside caught } other
      { right with analysis := right.analysis.inside caught } given)
    (behind : ∀ value inside answer insideRight, given value inside answer insideRight →
      more value (inside.leaveRegistries caught left.analysis.exits) answer
      (insideRight.leaveRegistries caught right.analysis.exits)) :
    track.Concurs track.ofWalk frame (Walk.catching caught act) left (Walk.catching caught other)
      right more := by
  refine ends_catching.2
    (Ends.mono inner
      (fun value inside ends => ends_catching.2 (ends.mono ?_ fun _ _ impossible => impossible))
      fun fault inside ends =>
      ends_catching.2 (ends.mono (fun _ _ impossible => impossible) fun _ _ fell => fell))
  rintro answer insideRight ⟨onward, held⟩
  have left_ := integrity_law.behind caught ⟨beside.soundLeft.analysis, beside.soundLeft.scope⟩
    ⟨onward.soundLeft.analysis, onward.soundLeft.scope⟩ onward.growsLeft
  have right_ := integrity_law.behind caught ⟨beside.soundRight.analysis, beside.soundRight.scope⟩
    ⟨onward.soundRight.analysis, onward.soundRight.scope⟩ onward.growsRight
  have sketch := beside.soundLeft.sketch_leave onward.soundLeft onward.growsLeft
  have sketchRight := beside.soundRight.sketch_leave onward.soundRight onward.growsRight
  have matches_ := beside.matches_.leave onward.within onward.matches_
  rw [← sketch, ← sketchRight] at matches_
  refine ⟨?_, behind value inside answer insideRight held⟩
  exact {
    soundLeft := ⟨left_.1.1, left_.1.2⟩
    soundRight := ⟨right_.1.1, right_.1.2⟩
    edits := onward.edits
    matches_ := matches_.toMatches
    fits := onward.fits
    growsLeft := left_.2
    growsRight := right_.2
    within := matches_.within }

end Concurs

end Brackets

end Track

end ValueFlow
