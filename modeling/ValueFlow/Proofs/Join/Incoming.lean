import ValueFlow.Proofs.Join.Spread
import ValueFlow.Proofs.Loop.View

/-!
# What goes on behind conditionals and loops, exactly

Behind a conditional whose condition is not known, and behind a loop, the scopes in which control
runs past it come together. Whichever way the code joins them, by copying a single one over the
scope at hand, by leaving the scope as it is, or by building it anew, the outcome is the same: a
variable stands at the version of all of them, or else at a new version that may be any of theirs,
and where there is none of them the scope is as before (`Site.GoesOnFrom`). The first way is right
only since scopes spread (`Join/Spread`): the scope at hand has no variable that the copied one does
not have.
-/

namespace ValueFlow
set_option autoImplicit false

namespace Site

/-- Paths meet at a variable. It stands at the version of all of them, and nothing is recorded, or
they differ, and it stands at a new version that may be any of theirs. -/
def Meets (paths : List Scope) (var : VarId) (before after : Site) : Prop :=
  (∃ version, (∀ path ∈ paths, path.versionOf var = version) ∧ after.scope.versionOf var = version ∧
      before.analysis.SameAt var after.analysis) ∨
    ∃ sources, Merges paths var sources before after

/-- The site goes on from where the paths meet, and from the outer scope if there is none. -/
structure GoesOnFrom (paths : List Scope) (outer : Scope) (before after : Site) : Prop where
  meets : paths ≠ [] → ∀ var, Meets paths var before after
  nowhere : paths = [] → after.scope.active = outer.active

variable {paths others : List Scope} {outer : Scope} {var : VarId} {before middle after : Site}

/-- Only which paths there are counts. -/
theorem Meets.congr (meets : Meets paths var before after)
    (same : ∀ path, path ∈ others ↔ path ∈ paths) :
    Meets others var before after := by
  rcases meets with ⟨version, agree, held, state⟩ | ⟨sources, merges⟩
  · exact .inl ⟨version, fun path mem => agree path ((same path).1 mem), held, state⟩
  · refine .inr ⟨sources, fun version => (merges.members version).trans ?_, merges.sorted,
      merges.several, merges.merged⟩
    simp only [same]

/-- Paths that hold what the scope holds meet there. -/
theorem Meets.idle {site : Site} (same : ∀ path ∈ paths, path.active = site.scope.active) :
    Meets paths var site site :=
  .inl ⟨site.scope.versionOf var,
    fun path mem => by rw [Scope.versionOf, same path mem, Scope.versionOf], rfl, .refl _ _⟩

theorem Meets.later (meets : Meets paths var before middle) (same : middle.SameAt var after) :
    Meets paths var before after := by
  rcases meets with ⟨version, agree, held, state⟩ | ⟨sources, merges⟩
  · refine .inl ⟨version, agree, ?_, state.trans same.state⟩
    rw [Scope.versionOf, same.active, ← held, Scope.versionOf]
  · obtain ⟨slot, found, advanced, active, free, traces⟩ := merges.merged
    refine .inr ⟨sources, merges.members, merges.sorted, merges.several, slot, found, ?_, ?_, free,
      fun version => ?_⟩
    · exact same.state.slot.trans advanced
    · exact same.active.trans active
    · exact (same.state.traces version).trans (traces version)

/-- Notices that are given afterwards change nothing. -/
theorem GoesOnFrom.settle (goes : GoesOnFrom paths outer before middle)
    (scope : after.scope = middle.scope)
    (state : ∀ var, middle.analysis.SameAt var after.analysis) :
    GoesOnFrom paths outer before after where
  meets some var := (goes.meets some var).later ⟨by rw [scope], state var⟩
  nowhere none := scope ▸ goes.nowhere none

/-- Behind a join of one path, or of several, the paths meet at every variable, if the variables of
the scope at hand are in them. -/
theorem gives_join_meets (site : Site) (within : ∀ path ∈ paths, site.scope.Within path) :
    Gives (join paths) site fun _ after => ∀ var, Meets paths var site after := by
  match paths with
  | [] => exact .throw
  | [path] =>
    have within := within path (by simp)
    have adopted : Gives (join [path]) site fun _ after => after =
        { site with scope := site.scope.adopt path } := rfl
    refine adopted.mono ?_
    rintro _ _ rfl var
    refine .inl ⟨path.versionOf var, by simp, ?_, .refl _ _⟩
    exact within.versionOf_adopt var
  | first :: second :: rest =>
    refine (gives_join_exactly site (by simp)).mono fun _ after joined var => ?_
    by_cases looked : ∃ path ∈ first :: second :: rest, var ∈ path.active
    · rcases joined.looked var looked with ⟨version, goes⟩ | merges
      · exact .inl ⟨version, goes.agree, Scope.versionOf_of_active goes.active, goes.state⟩
      · exact .inr merges
    · have free : var ∉ after.scope.active := fun active => looked ((joined.active var).1 active)
      refine .inl ⟨.entry, fun path mem => ?_, Scope.versionOf_of_not_mem free,
        joined.unlooked var looked⟩
      exact Scope.versionOf_of_not_mem fun active => looked ⟨path, mem, active⟩

end Site

namespace Walk

variable {visit : NodeId → WalkM (Option NodeId)} {walk : Walk}

/-- Walks an arm of a conditional, and answers with the scopes in which control runs past it: the
scope around the conditional where there is no arm, the scope at the end of the arm, or none if what
is left of the arm is aborting. -/
def armPaths (visit : NodeId → WalkM (Option NodeId)) (label : String) (around : Scope) : Option NodeId → WalkM (List Scope)
  | none => pure [around]
  | some arm => do
    let (node, foot) ← inFork label (visit arm)
    return if node.any (← arenaHere).isAborting then [] else [foot]

/-- The scopes in which control runs past an arm. -/
def Arm.paths (around : Scope) : Arm → List Scope
  | .absent => [around]
  | .aborting => []
  | .reached scope => [scope]

/-- An arm brings to the join the scopes in which control runs past it. -/
theorem gives_armPaths (visit : NodeId → WalkM (Option NodeId)) (label : String) (around : Scope)
    (arm : Option NodeId) (walk : Walk) :
    Gives (walkArm visit label arm) walk fun answer after => armPaths visit label around arm walk =
      .ok (answer.2.paths around) after := by
  cases arm with
  | none => exact .pure rfl
  | some arm =>
    refine Gives.bind (ends_reached (inFork label (visit arm)) walk).gives
      fun answer after walked => ?_
    have paths : armPaths visit label around (some arm) walk =
        .ok (if answer.1.any after.arena.isAborting then [] else [answer.2]) after := by
      unfold armPaths
      simp only [Bind.bind, EStateM.bind, walked]
      rfl
    change Gives (if answer.1.any after.arena.isAborting then _ else _) after _
    rw [paths]
    split
    · exact .pure rfl
    · exact .pure rfl

theorem gives_joinBehind_meets {yes no : Arm}
    (withinYes : ∀ path ∈ yes.scope?, walk.scope.Within path)
    (withinNo : ∀ path ∈ no.scope?, walk.scope.Within path) :
    Gives (joinBehind yes no) walk fun _ after =>
      walk.toSite.GoesOnFrom (yes.paths walk.scope ++ no.paths walk.scope) walk.scope
        after.toSite := by
  have joins (paths : List Scope) {others : List Scope} (some : others ≠ [])
      (same : ∀ path, path ∈ others ↔ path ∈ paths)
      (within : ∀ path ∈ paths, walk.scope.Within path) :
      Gives (liftM (Site.join paths) : WalkM Unit) walk fun _ after =>
        walk.toSite.GoesOnFrom others walk.scope after.toSite :=
    ends_liftSite.2 ((Site.gives_join_meets walk.toSite within).mono fun _ _ meets =>
      ⟨fun _ var => (meets var).congr same, fun none => absurd none some⟩)
  have idle {paths : List Scope} (same : ∀ path ∈ paths, path = walk.scope) :
      Gives (pure () : WalkM Unit) walk fun _ after =>
        walk.toSite.GoesOnFrom paths walk.scope after.toSite :=
    .pure ⟨fun _ _ => .idle fun path mem => by rw [same path mem], fun _ => rfl⟩
  have own := Scope.Within.refl walk.scope
  cases yes with
  | absent =>
    cases no with
    | absent => exact idle (by simp [Arm.paths])
    | aborting => exact idle (by simp [Arm.paths])
    | reached other =>
      exact joins [walk.scope, other] (by simp [Arm.paths]) (by simp [Arm.paths])
        (by simpa using ⟨own, withinNo other rfl⟩)
  | aborting =>
    cases no with
    | absent => exact idle (by simp [Arm.paths])
    | aborting => exact idle (by simp [Arm.paths])
    | reached other =>
      exact joins [other] (by simp [Arm.paths]) (by simp [Arm.paths])
        (by simpa using withinNo other rfl)
  | reached path =>
    cases no with
    | absent =>
      -- The code takes the scope around the arms first.
      exact joins [walk.scope, path] (by simp [Arm.paths]) (by simp [Arm.paths, or_comm])
        (by simpa using ⟨own, withinYes path rfl⟩)
    | aborting =>
      exact joins [path] (by simp [Arm.paths]) (by simp [Arm.paths])
        (by simpa using withinYes path rfl)
    | reached other =>
      exact joins [path, other] (by simp [Arm.paths]) (by simp [Arm.paths])
        (by simpa using ⟨withinYes path rfl, withinNo other rfl⟩)

/-- Behind a conditional whose condition is not known the site goes on from the ends of its arms. -/
def BranchGoesOn (visit : NodeId → WalkM (Option NodeId)) (cond : NodeId) (yes no : Option NodeId) (walk : Walk) (after : Site) : Prop :=
  ∃ left behind, walkExpr cond walk = .ok left behind ∧ (behind.arena.literal? left = none →
    ∃ first middle second last, armPaths visit "branch yes" behind.scope yes behind = .ok first middle ∧
      armPaths visit "branch no" behind.scope no middle = .ok second last ∧
      last.toSite.GoesOnFrom (first ++ second) behind.scope after)

/-- Behind a loop the site goes on from its breaks. -/
def LoopGoesOn (visit : NodeId → WalkM (Option NodeId)) (body : NodeId) (walk : Walk) (after : Site) : Prop :=
  ∃ view last, viewLoop visit body walk = .ok view last ∧ last.toSite.GoesOnFrom view.breaks walk.scope after

theorem gives_branch_goesOn (visits : ∀ id, Spreading Walk.toSite (visit id)) (id cond : NodeId)
    (yes no : Option NodeId) (walk : Walk) :
    Gives (rewriteBranch visit id cond yes no) walk fun _ after =>
      BranchGoesOn visit cond yes no walk after.toSite := by
  rw [rewriteBranch_eq]
  refine Gives.bind (ends_reached (walkExpr cond) walk).gives fun left behind reached => ?_
  unfold behindCond
  rw [gives_arenaHere_bind]
  split
  · rename_i known
    exact ends_well_iff.2 fun _ _ _ =>
      ⟨left, behind, reached, fun unknown => by simp [known] at unknown⟩
  · refine ((gives_arm visits "branch yes" yes behind).and
      (gives_armPaths visit "branch yes" behind.scope yes behind)).bind ?_
    rintro first middle ⟨⟨-, scopeMiddle, withinYes⟩, pathsYes⟩
    refine ((gives_arm visits "branch no" no middle).and
      (gives_armPaths visit "branch no" behind.scope no middle)).bind ?_
    rintro second last ⟨⟨-, scopeLast, withinNo⟩, pathsNo⟩
    have scope : last.scope = behind.scope := scopeLast.trans scopeMiddle
    refine (gives_joinBehind_meets (scope ▸ withinYes) (scopeLast ▸ withinNo)).bind
      fun _ joined goes => ?_
    refine (gives_behindJoin_site joined id left first.1 second.1).mono fun _ after same => ?_
    rw [same]
    exact ⟨left, behind, reached, fun _ => ⟨_, middle, _, last, pathsYes, pathsNo, scope ▸ goes⟩⟩

theorem gives_loop_goesOn (visits : ∀ id, Spreading Walk.toSite (visit id)) (id body : NodeId)
    (walk : Walk) :
    Gives (rewriteLoop visit id (some body)) walk fun _ after =>
      LoopGoesOn visit body walk after.toSite := by
  have spread := gives_loopBody visits body walk
  rw [walkLoopBody_eq] at spread
  rw [rewriteLoop_eq]
  change Gives (if (walk.arena.block? body).isNone = true then _ else _) walk _
  split
  · exact .throw
  · rw [walkLoopBody_eq]
    refine ends_bind.2 (ends_map.2 ?_)
    refine ((ends_reached (viewLoop visit body) walk).gives.and (ends_map.1 spread)).mono
      fun view last told => ?_
    obtain ⟨viewed, -, scope, within⟩ := told
    refine gives_behindBody_site (LoopGoesOn visit body walk) fun edited same => ?_
    have scopeEdited : edited.scope = walk.scope := (congrArg Site.scope same).trans scope
    have goesOn (site : Site) (goes : last.toSite.GoesOnFrom view.breaks walk.scope site) :
        LoopGoesOn visit body walk site := ⟨view, last, viewed, goes⟩
    rw [← same] at goesOn
    unfold joinBreaks
    split
    · rename_i none
      exact .pure (goesOn _ ⟨fun some => absurd none some, fun _ => by rw [scopeEdited]⟩)
    · rename_i breaks some
      refine ends_liftSite.2 ((Site.gives_join_meets edited.toSite ?_).mono fun _ site meets => ?_)
      · exact fun path mem => scopeEdited ▸ within path mem
      · exact goesOn _ ⟨fun _ => meets, fun none => absurd none some⟩

/-- What a rewrite of a statement has done to the scope and the log is what its walk has done. -/
theorem gives_walkStmt_of_rewrite {depth : Nat} {id : NodeId} (well : Site → Prop)
    (settles : ∀ middle after : Site, after.scope = middle.scope →
      (∀ var, middle.analysis.SameAt var after.analysis) → well middle → well after)
    (rewrites : Gives (rewriteStmt (walkStmtWithin depth) id) walk fun _ after =>
      well after.toSite) :
    Gives (walkStmtWithin (depth + 1) id) walk fun _ after => well after.toSite := by
  refine ends_bind.2 (ends_located.2 (rewrites.bind fun answer after told => ?_))
  have signalled : Gives (signal id answer.edit) after fun _ last => well last.toSite := by
    cases answer.edit with
    | none => exact .pure told
    | some edit => exact settles after.toSite _ rfl (fun _ => ⟨rfl, fun _ => rfl⟩) told
  exact signalled.bind fun _ last told => .pure told

theorem loopGoesOn_of_walkStmt {depth : Nat} {id body : NodeId} {left : Option NodeId}
    {after : Walk} (found : walk.arena.stmt? id = some (.loop (some body)))
    (walked : walkStmtWithin (depth + 1) id walk = .ok left after) :
    LoopGoesOn (walkStmtWithin depth) body walk after.toSite := by
  refine Ends.of_ok
    (gives_walkStmt_of_rewrite (LoopGoesOn (walkStmtWithin depth) body walk) ?_ ?_) walked
  · rintro middle after scope state ⟨view, last, viewed, goes⟩
    exact ⟨view, last, viewed, goes.settle scope state⟩
  · unfold rewriteStmt
    rw [gives_arenaHere_bind, found]
    exact gives_loop_goesOn (spreading_walkStmtWithin depth) id body walk

/-- Joins at conditionals and loops are exact. Behind every conditional that was walked, unless its
condition is known, each variable stands where the ends of its arms meet, an absent arm ending where
the condition did and an aborting one nowhere; behind every loop with a body it stands where the
breaks of the loop meet. If there is nothing to meet, the scope is the one behind the condition, or
before the loop. -/
theorem joins_are_exact {depth : Nat} {id : NodeId} {left : Option NodeId} {after : Walk}
    (walked : walkStmtWithin (depth + 1) id walk = .ok left after) :
    (∀ cond yes no, walk.arena.stmt? id = some (.branch cond yes no) →
      BranchGoesOn (walkStmtWithin depth) cond yes no walk after.toSite) ∧
    (∀ body, walk.arena.stmt? id = some (.loop (some body)) → LoopGoesOn (walkStmtWithin depth) body walk after.toSite) := by
  refine ⟨fun cond yes no found => ?_, fun body found => loopGoesOn_of_walkStmt found walked⟩
  refine Ends.of_ok (gives_walkStmt_of_rewrite (BranchGoesOn (walkStmtWithin depth) cond yes no walk) ?_ ?_) walked
  · rintro middle after scope state ⟨left, behind, reached, goes⟩
    refine ⟨left, behind, reached, fun unknown => ?_⟩
    obtain ⟨first, middle, second, last, pathsYes, pathsNo, goes⟩ := goes unknown
    exact ⟨first, middle, second, last, pathsYes, pathsNo, goes.settle scope state⟩
  · unfold rewriteStmt
    rw [gives_arenaHere_bind, found]
    exact gives_branch_goesOn (spreading_walkStmtWithin depth) id cond yes no walk

/-- A conditional that assigns a local in its only arm, and a loop with two breaks, behind different
assignments. -/
def crossing : Arena :=
  ⟨#[⟨.expr (.read 1 none), ⟨0, 1⟩⟩, ⟨.expr (.literal (.int 1)), ⟨1, 2⟩⟩, ⟨.stmt (.assign 0 1 none), ⟨2, 3⟩⟩, ⟨.stmt .brk, ⟨3, 4⟩⟩,
    ⟨.stmt (.block [2, 3]), ⟨4, 5⟩⟩, ⟨.stmt (.branch 0 (some 4) none), ⟨5, 6⟩⟩, ⟨.expr (.literal (.int 2)), ⟨6, 7⟩⟩,
    ⟨.stmt (.assign 0 6 none), ⟨7, 8⟩⟩, ⟨.stmt .brk, ⟨8, 9⟩⟩, ⟨.stmt (.block [5, 7, 8]), ⟨9, 10⟩⟩, ⟨.stmt (.loop (some 9)), ⟨10, 11⟩⟩,
    ⟨.stmt (.block [2]), ⟨11, 12⟩⟩, ⟨.stmt (.branch 0 (some 11) none), ⟨12, 13⟩⟩]⟩

/-- The start of a walk over them. -/
def atCrossing : Walk :=
  ⟨⟨.fresh "function body", .fresh ⟨#[⟨"x", .localSlot, false, 0⟩, ⟨"c", .parameter, false, 0⟩]⟩ {}⟩, crossing⟩

theorem crossing_joined :
    (∃ left after, walkStmtWithin 14 12 atCrossing = .ok left after ∧ crossing.stmt? 12 = some (.branch 0 (some 11) none) ∧
      BranchGoesOn (walkStmtWithin 13) 0 (some 11) none atCrossing after.toSite) ∧
    (∃ left after, walkStmtWithin 14 10 atCrossing = .ok left after ∧ crossing.stmt? 10 = some (.loop (some 9)) ∧
      LoopGoesOn (walkStmtWithin 13) 9 atCrossing after.toSite) := by
  have branch : endsWith (walkStmtWithin 14 12) atCrossing (fun left _ => left == some 12) = true := by decide +kernel
  have loop : endsWith (walkStmtWithin 14 10) atCrossing (fun left _ => left == some 10) = true := by decide +kernel
  obtain ⟨left, after, walked, -⟩ := exists_of_endsWith branch
  obtain ⟨leftLoop, afterLoop, walkedLoop, -⟩ := exists_of_endsWith loop
  exact ⟨⟨left, after, walked, rfl, (joins_are_exact walked).1 0 (some 11) none rfl⟩,
    ⟨leftLoop, afterLoop, walkedLoop, rfl, (joins_are_exact walkedLoop).2 9 rfl⟩⟩

end Walk

end ValueFlow
