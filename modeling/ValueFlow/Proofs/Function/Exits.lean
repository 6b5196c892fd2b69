import ValueFlow.Proofs.Account.Closing

/-!
# What stands behind a function

The top scope behind a function is made of its exits: the snapshots taken at its returns and, unless
control never runs past the body, the scope at its foot (`Walk.exitPaths`). A variable ought to
stand at the version that all of them hold, or else at a new join of their versions
(`Traces.JoinsAll`).

`function_exits_joined_iff` says when it does. The join of several exits starts from an empty scope,
so nothing is left of the walk that led past them. The join of a single one only adds to the scope
at the foot: a variable which that exit has not looked at stays at the version at which the foot has
it, and that version need not be its entry version (`lateBody_keeps_write`).
-/

namespace ValueFlow
set_option autoImplicit false

/-- The version is that of all paths, if they agree, or else a join of exactly their versions that
the older table has not recorded. -/
structure Traces.JoinsAll (older newer : Traces) (paths : List Scope) (var : VarId) (version : Version) : Prop where
  agree : ∀ only, Scope.versionsOf paths var = [only] → version = only
  differ : (∀ only, Scope.versionsOf paths var ≠ [only]) →
    newer.origin? ⟨var, version⟩ = some (.joined (Scope.versionsOf paths var)) ∧ (⟨var, version⟩ : TraceKey) ∉ older

namespace Site

variable {before after : Site} {paths : List Scope}

/-- Behind the join of several paths every variable stands where it ought to. -/
theorem Joined.joinsAll (joined : before.Joined paths [] after) (nonempty : paths ≠ [])
    (var : VarId) :
    before.analysis.traces.JoinsAll after.analysis.traces paths var
      (after.scope.versionOf var) := by
  refine ⟨fun only single => ?_, fun several => ?_⟩
  · exact joined.versionOf_eq nonempty ((Scope.versionsOf_eq_singleton nonempty).1 single)
  · have differs : ¬ ∀ path ∈ paths, path.versionOf var = after.scope.versionOf var :=
      fun same => several _ ((Scope.versionsOf_eq_singleton nonempty).2 same)
    refine ⟨(joined.joins var).resolve_left differs, ?_⟩
    simp only [not_forall] at differs
    obtain ⟨path, mem, differs⟩ := differs
    exact joined.new_of_ne mem differs

end Site

namespace Walk

variable {walk : Walk} {body : NodeId}

/-- The state of a walk inside a construct that catches some kinds of exits. -/
def enter (walk : Walk) (caught : Catch) : Walk := { walk with analysis := walk.analysis.inside caught }

/-- The exits of a function, when this is left of its body and the walk has come to its foot: the
snapshots at the returns, then the scope at the foot if control may run past the body. -/
def exitPaths (left : Option NodeId) (foot : Walk) : List Scope :=
  (foot.analysis.exits.get .ret).getD [] ++ if left.any foot.arena.isAborting then [] else [foot.scope.fork "fall through"]

/-- The walk of a body has come to its foot, and this stands behind the guard that collects
returns. -/
structure AtFoot (body : NodeId) (before : Walk) (left : Option NodeId) (returns : List Scope) (foot after : Walk) : Prop where
  walked : walkStmt body (before.enter .byFunction) = .ok left foot
  collected : returns = (foot.analysis.exits.get .ret).getD []
  scope : after.scope = foot.scope
  arena : after.arena = foot.arena
  traces : after.analysis.traces = foot.analysis.traces
  sound : after.toSite.Sound
  backed : ∀ path ∈ returns, path.Backed after.analysis.traces

/-- The walk of a body collects the returns below it. -/
theorem gives_atFoot (sound : walk.toSite.Sound) :
    Gives (catching .byFunction do
      let node ← walkStmt body
      pure (node, ← Analysis.takeExits .byFunction .ret)) walk fun answer after =>
        ∃ foot, walk.AtFoot body answer.1 answer.2 foot after := by
  have soundInside : Site.Sound (walk.enter .byFunction).toSite :=
    ⟨sound.analysis.inside .byFunction, sound.scope⟩
  have ready : integrity.Ready integrity.ofWalk (walk.enter .byFunction) :=
    ⟨⟨soundInside.analysis, soundInside.scope⟩, Region.everything_encloses _⟩
  have walks : integrity.Holds integrity.ofWalk (walkStmt body) (walk.enter .byFunction) _ :=
    Discipline.yields_walkStmt integrity_law trivial _ ready
  refine ends_catching.2 (Gives.bind ((Ends.gives walks).and (Ends.gives (ends_reached _ _))) ?_)
  rintro node foot ⟨⟨kept, -⟩, walked⟩
  refine Gives.bind (gives_takeExits rfl) ?_
  rintro returns taken ⟨rfl, scope, arena, behind⟩
  have outside := behind walk.analysis.exits
  have traces : taken.analysis.traces = foot.analysis.traces :=
    show (Analysis.behind _ _ _).traces = _ by rw [outside]; rfl
  have soundFoot : Site.Sound foot.toSite := ⟨kept.good.1, kept.good.2⟩
  have soundBehind : Analysis.Sound (taken.analysis.behind .byFunction walk.analysis.exits) := by
    rw [outside]
    exact soundFoot.analysis.behind sound.analysis kept.grows.traces .byFunction
  refine .pure ⟨foot, walked, rfl, scope, arena, traces, ⟨soundBehind, ?_⟩, fun path mem => ?_⟩
  · change taken.scope.Backed taken.analysis.traces
    rw [traces, scope]
    exact soundFoot.scope
  · change path.Backed taken.analysis.traces
    rw [traces]
    cases opened : foot.analysis.exits.get .ret with
    | none => simp [opened] at mem
    | some snapshots =>
      rw [opened] at mem
      exact soundFoot.analysis.parked .ret snapshots opened path mem

/-- The exits of a function are those that are joined behind it. -/
theorem AtFoot.gives_functionExits {before after foot : Walk} {left : Option NodeId}
    {returns : List Scope} (atFoot : before.AtFoot body left returns foot after) :
    Gives (functionExits left returns) after fun exits last => last = after ∧
      exits = exitPaths left foot := by
  unfold functionExits exitPaths
  rw [gives_arenaHere_bind, atFoot.arena, atFoot.collected]
  split
  · exact .pure ⟨rfl, by simp⟩
  · rw [gives_scopeHere_bind, atFoot.scope]
    exact .pure ⟨rfl, rfl⟩

theorem AtFoot.backed_exitPaths {before after foot : Walk} {left : Option NodeId}
    {returns : List Scope} (atFoot : before.AtFoot body left returns foot after) :
    ∀ path ∈ exitPaths left foot, path.Backed after.analysis.traces := by
  intro path mem
  unfold exitPaths at mem
  rw [← atFoot.collected] at mem
  rcases List.mem_append.1 mem with snapshot | last
  · exact atFoot.backed path snapshot
  · split at last
    · cases last
    · rw [List.mem_singleton.1 last, ← atFoot.scope]
      exact atFoot.sound.scope.fork _

/-- What becomes of the top scope behind the exits of a function. -/
structure FunctionLeft (exits : List Scope) (foot after : Walk) : Prop where
  nowhere : exits = [] → after.scope = foot.scope
  single : ∀ path, exits = [path] → after.scope = foot.scope.adopt path
  several : 2 ≤ exits.length → ∀ var,
    foot.analysis.traces.JoinsAll after.analysis.traces exits var (after.scope.versionOf var)

theorem gives_functionLeft (sound : walk.toSite.Sound) :
    Gives (walkFunction body) walk fun left after =>
      ∃ foot, walkStmt body (walk.enter .byFunction) = .ok left foot ∧
        FunctionLeft (exitPaths left foot) foot after := by
  refine .bind (gives_atFoot sound) ?_
  rintro ⟨left, returns⟩ middle ⟨foot, atFoot⟩
  refine .bind atFoot.gives_functionExits ?_
  rintro exits last ⟨same, told⟩
  subst same
  cases exits with
  | nil =>
    refine .pure ⟨foot, atFoot.walked, told ▸ ?_⟩
    exact ⟨fun _ => atFoot.scope, nofun, nofun⟩
  | cons path paths =>
    have backed := atFoot.backed_exitPaths
    rw [← told] at backed
    refine .bind (gives_lift (Site.ends_join atFoot.sound (by simp) backed).gives) ?_
    rintro _ after ⟨ended, -⟩
    refine .pure ⟨foot, atFoot.walked, told ▸ ?_⟩
    rcases ended with ⟨only, single, whole⟩ | ⟨several, joined⟩
    · have scope : after.scope = foot.scope.adopt only := by
        rw [← atFoot.scope]
        exact congrArg Site.scope whole
      rw [single]
      exact ⟨nofun, fun path same => List.singleton_inj.1 same ▸ scope,
        fun several => absurd several (by simp)⟩
    · refine ⟨nofun, fun only single => absurd several (by simp [single]), fun _ var => ?_⟩
      rw [← atFoot.traces]
      exact joined.joinsAll (by simp) var

/-- Behind a function that is left at all, a variable stands where its exits have it, unless there
is one exit only, which has not looked at the variable, and the foot has it at another version than
on entry. Then it stays at that version. -/
theorem function_exits_joined_iff {arena : Arena} {left : Option NodeId} {after : Walk} (vars : Variables) (options : Options)
    (walked : walkBody .functionBody body ⟨.forBody .functionBody vars options, arena⟩ = .ok left after) :
    ∃ foot, walkStmt body (enter ⟨.forBody .functionBody vars options, arena⟩ .byFunction) = .ok left foot ∧
      (exitPaths left foot ≠ [] → ∀ var,
        foot.analysis.traces.JoinsAll after.analysis.traces (exitPaths left foot) var (after.scope.versionOf var) ↔
          ¬ ∃ path, exitPaths left foot = [path] ∧ var ∉ path.active ∧ foot.scope.versionOf var ≠ .entry) ∧
      ∀ path, exitPaths left foot = [path] → ∀ var, var ∉ path.active → after.scope.versionOf var = foot.scope.versionOf var := by
  obtain ⟨foot, reached, behind⟩ := (gives_functionLeft (Site.sound_forBody _ vars options)).of_ok walked
  have adopted {path : Scope} (single : exitPaths left foot = [path]) (var : VarId) :
      after.scope.active[var]? = (path.active[var]?).or foot.scope.active[var]? := by
    rw [behind.single path single, Scope.getElem?_adopt]
  have kept {path : Scope} (single : exitPaths left foot = [path]) {var : VarId} (free : var ∉ path.active) :
      after.scope.versionOf var = foot.scope.versionOf var := by
    simp [Scope.versionOf, adopted single, Std.ExtTreeMap.getElem?_eq_none free]
  refine ⟨foot, reached, fun some var => ⟨?_, fun regular => ?_⟩, fun path single var => kept single⟩
  · rintro joins ⟨path, single, free, moved⟩
    have held : Scope.versionsOf [path] var = [.entry] :=
      (Scope.versionsOf_eq_singleton (by simp)).2 (by simpa using Scope.versionOf_of_not_mem free)
    rw [single] at joins
    exact moved ((kept single free).symm.trans (joins.agree _ held))
  · by_cases several : 2 ≤ (exitPaths left foot).length
    · exact behind.several several var
    · have onlyOne : (exitPaths left foot).length = 1 := by
        have := List.length_pos_iff.2 some
        omega
      obtain ⟨path, single⟩ := List.length_eq_one_iff.1 onlyOne
      have held : Scope.versionsOf [path] var = [path.versionOf var] := (Scope.versionsOf_eq_singleton (by simp)).2 (by simp)
      have stands : after.scope.versionOf var = path.versionOf var := by
        by_cases looked : var ∈ path.active
        · obtain ⟨version, active⟩ := Option.isSome_iff_exists.1 (Std.ExtTreeMap.mem_iff_isSome_getElem?.1 looked)
          simp [Scope.versionOf, adopted single, active]
        · rw [kept single looked, Scope.versionOf_of_not_mem looked]
          exact Classical.byContradiction fun moved => regular ⟨path, single, looked, moved⟩
      rw [single]
      exact ⟨fun only same => by rw [stands]; exact List.singleton_inj.1 (held.symm.trans same),
        fun differ => absurd held (differ _)⟩

/-- The parameter and the local of the functions below. -/
def exitVars : Variables := ⟨#[⟨"c", .parameter, false, .entry⟩, ⟨"x", .localSlot, false, .entry⟩]⟩

/-- A function with two exits: `if c { x = 1; return }`. -/
def earlyBody : Arena :=
  ⟨#[⟨.expr (.read 0 none), ⟨0, 1⟩⟩, ⟨.expr (.literal (.int 1)), ⟨1, 2⟩⟩, ⟨.stmt (.assign 1 1 none), ⟨2, 3⟩⟩,
    ⟨.stmt (.ret none), ⟨3, 4⟩⟩, ⟨.stmt (.block [2, 3]), ⟨4, 5⟩⟩, ⟨.stmt (.branch 0 (some 4) none), ⟨5, 6⟩⟩]⟩

/-- Its local stands at a join of the entry version and the one that was assigned. -/
theorem earlyBody_joined : ∃ left after, walkBody .functionBody 5 ⟨.forBody .functionBody exitVars {}, earlyBody⟩ = .ok left after ∧
    after.analysis.traces.origin? ⟨1, after.scope.versionOf 1⟩ = some (.joined [0, 1]) ∧
    ∃ foot, walkStmt 5 (enter ⟨.forBody .functionBody exitVars {}, earlyBody⟩ .byFunction) = .ok left foot ∧
      (exitPaths left foot ≠ [] → ∀ var,
        foot.analysis.traces.JoinsAll after.analysis.traces (exitPaths left foot) var (after.scope.versionOf var) ↔
          ¬ ∃ path, exitPaths left foot = [path] ∧ var ∉ path.active ∧ foot.scope.versionOf var ≠ .entry) ∧
      ∀ path, exitPaths left foot = [path] → ∀ var, var ∉ path.active → after.scope.versionOf var = foot.scope.versionOf var := by
  have ends : endsWith (walkBody .functionBody 5) ⟨.forBody .functionBody exitVars {}, earlyBody⟩ (fun _ after =>
      after.analysis.traces.origin? ⟨1, after.scope.versionOf 1⟩ == some (.joined [0, 1])) = true := by
    decide +kernel
  obtain ⟨left, after, walked, told⟩ := exists_of_endsWith ends
  exact ⟨left, after, walked, by simpa using told, function_exits_joined_iff exitVars {} walked⟩

/-- A function that returns or never ends: `if c { return }; x = 1; loop {}`. -/
def lateBody : Arena :=
  ⟨#[⟨.expr (.read 0 none), ⟨0, 1⟩⟩, ⟨.stmt (.ret none), ⟨1, 2⟩⟩, ⟨.stmt (.branch 0 (some 1) none), ⟨2, 3⟩⟩,
    ⟨.expr (.literal (.int 1)), ⟨3, 4⟩⟩, ⟨.stmt (.assign 1 3 none), ⟨4, 5⟩⟩, ⟨.stmt (.loop none), ⟨5, 6⟩⟩,
    ⟨.stmt (.block [2, 4, 5]), ⟨6, 7⟩⟩]⟩

/-- The tree of the function. -/
def lateCode : Code :=
  .block 6 (.cons (.branch 2 (.read 0 0 none) (.ret 1 .nil) .nil)
    (.cons (.assign 4 1 (.literal 3 (.int 1)) none) (.cons (.loop 5 .nil) .nil)))

/-- The only exit leaves the local at its entry version, and the top scope behind the function has
it at the version of the assignment. -/
theorem lateBody_keeps_write : lateBody.IsTree 6 lateCode ∧
    ∃ left foot after, walkStmt 6 (enter ⟨.forBody .functionBody exitVars {}, lateBody⟩ .byFunction) = .ok left foot ∧
      walkBody .functionBody 6 ⟨.forBody .functionBody exitVars {}, lateBody⟩ = .ok left after ∧
      (exitPaths left foot).map (·.versionOf 1) = [.entry] ∧ after.scope.versionOf 1 = 1 := by
  have isTree : lateBody.IsTree 6 lateCode := {
    shows_ := .block rfl (.cons (.branch rfl (.read rfl) (.present (.ret rfl .absent)) .absent)
      (.cons (.assign rfl (.literal rfl)) (.cons (.loop rfl .absent) .nil)))
    nodup := by decide }
  have inner : endsWith (walkStmt 6) (enter ⟨.forBody .functionBody exitVars {}, lateBody⟩ .byFunction) (fun left foot =>
      left == some 6 && (exitPaths left foot).map (·.versionOf 1) == [.entry]) = true := by
    decide +kernel
  have outer : endsWith (walkBody .functionBody 6) ⟨.forBody .functionBody exitVars {}, lateBody⟩ (fun left after =>
      left == some 6 && after.scope.versionOf 1 == 1) = true := by
    decide +kernel
  obtain ⟨left, foot, reached, paths⟩ := exists_of_endsWith inner
  obtain ⟨_, after, walked, stands⟩ := exists_of_endsWith outer
  simp only [Bool.and_eq_true, beq_iff_eq] at paths stands
  obtain ⟨rfl, paths⟩ := paths
  obtain ⟨rfl, stands⟩ := stands
  exact ⟨isTree, some 6, foot, after, reached, walked, paths, stands⟩

end Walk

end ValueFlow
