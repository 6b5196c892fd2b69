import ValueFlow.Proofs.Rework.Original

/-!
# Parts of a walk that may fail

`Original.Attempts` says of a part of a walk what holds whether it fails or not, that it leaves a
sound site over an arena to which a walk from the root may have come (`Original.Goes`), and beside
that what is known of its value and of its fault. It goes along with the sequence of operations and
into the brackets of a walk. What is known of a value may depend on the arena and on the log, and
what is known of a fault on the arena that is left, for brackets change neither on the way out.

An operation on the site fails only over a variable that is not registered (`Original.Misses`), or
where a loop is left that is not open.
-/

namespace ValueFlow
set_option autoImplicit false

namespace Original

/-- The walk stands at a sound site, over an arena to which a walk from the root may have come. -/
structure Stands (o : Original) (walk : Walk) : Prop where
  sound : walk.toSite.Sound
  vars : o.vars.Advances walk.analysis.vars
  arena : o.Reworked walk.arena

/-- The walk has gone on from one point to another, and has kept what every later arena keeps. -/
structure Goes (o : Original) (before after : Walk) : Prop where
  stands : o.Stands after
  grows : before.analysis.Grows after.analysis
  becomes : Arena.Becomes o.vars.Knows before.arena after.arena

/-- The part of the walk goes on, and its value or its fault is as described. -/
def Attempts {α : Type} (o : Original) (act : WalkM α) (walk : Walk) (well : α → Arena → Traces → Prop) (ill : Fault → Arena → Prop) : Prop :=
  Ends act walk (fun value after => o.Goes walk after ∧ well value after.arena after.analysis.traces)
    fun fault after => o.Goes walk after ∧ ill fault after.arena

/-- One of the variables is not registered, and that is the fault. -/
def Misses (o : Original) (vars : List VarId) (fault : Fault) : Prop := ∃ var ∈ vars, fault = .unregistered var ∧ o.vars.get? var = none

variable {o : Original} {walk middle after : Walk} {α β : Type} {act : WalkM α}
  {well well' : α → Arena → Traces → Prop} {last : β → Arena → Traces → Prop}
  {ill ill' : Fault → Arena → Prop} {var : VarId} {id : NodeId}

namespace Stands

/-- A variable that is not registered never was. -/
theorem absent (stands : o.Stands walk) (absent : walk.analysis.vars.get? var = none) :
    o.vars.get? var = none := by
  by_contra registered
  have still := stands.vars.isSome (Option.isSome_iff_ne_none.2 registered)
  rw [absent] at still
  cases still

/-- A walk inside a construct stands as the one around it does. -/
theorem inside (stands : o.Stands walk) (caught : Catch) :
    o.Stands { walk with analysis := walk.analysis.inside caught } :=
  ⟨⟨stands.sound.analysis.inside caught, stands.sound.scope⟩, stands.vars, stands.arena⟩

theorem fork (stands : o.Stands walk) (label : String) :
    o.Stands { walk with scope := walk.scope.fork label } :=
  ⟨⟨stands.sound.analysis, stands.sound.scope.fork label⟩, stands.vars, stands.arena⟩

/-- The walk stands at another site, over the same arena. -/
theorem at_site (stands : o.Stands walk) {site : Site} (onward : walk.toSite.Onward site) :
    o.Goes walk { walk with toSite := site } :=
  ⟨⟨onward.sound, stands.vars.trans onward.grows.vars, stands.arena⟩, onward.grows, .refl _⟩

/-- Other notices and dynamic names are no concern of an arena. -/
theorem unseen (stands : o.Stands walk) {edits : EditLog} (dynamicNames : Bool)
    (more : walk.analysis.edits.size ≤ edits.size) :
    o.Goes walk { walk with analysis := { walk.analysis with edits, dynamicNames } } :=
  ⟨⟨⟨stands.sound.analysis.unseen edits dynamicNames, stands.sound.scope⟩, stands.vars,
    stands.arena⟩, ⟨.refl _, .refl _, .refl _, rfl, more⟩, .refl _⟩

end Stands

namespace Goes

theorem refl (stands : o.Stands walk) : o.Goes walk walk := ⟨stands, .refl _, .refl _⟩

theorem trans (early : o.Goes walk middle) (late : o.Goes middle after) : o.Goes walk after :=
  ⟨late.stands, early.grows.trans late.grows, early.becomes.trans late.becomes⟩

end Goes

namespace Attempts

theorem pure (stands : o.Stands walk) {value : α}
    (given : well value walk.arena walk.analysis.traces) :
    o.Attempts (Pure.pure value) walk well ill :=
  ends_pure.2 ⟨.refl stands, given⟩

theorem throw (stands : o.Stands walk) {fault : Fault} (given : ill fault walk.arena) :
    o.Attempts (MonadExcept.throw fault : WalkM α) walk well ill :=
  ends_throw.2 ⟨.refl stands, given⟩

theorem bind {next : α → WalkM β} (first : o.Attempts act walk well ill)
    (rest : ∀ value after, o.Goes walk after → well value after.arena after.analysis.traces →
      o.Attempts (next value) after last ill) :
    o.Attempts (act >>= next) walk last ill := by
  refine ends_bind.2 (Ends.mono first ?_ fun _ _ fell => fell)
  rintro value middle ⟨early, held⟩
  refine Ends.mono (rest value middle early held) ?_ ?_
  · exact fun _ _ told => ⟨early.trans told.1, told.2⟩
  · exact fun _ _ fell => ⟨early.trans fell.1, fell.2⟩

theorem mono (first : o.Attempts act walk well ill)
    (given : ∀ value after, o.Goes walk after → well value after.arena after.analysis.traces →
      well' value after.arena after.analysis.traces)
    (blamed : ∀ fault after, o.Goes walk after → ill fault after.arena → ill' fault after.arena) :
    o.Attempts act walk well' ill' :=
  Ends.mono first (fun value after told => ⟨told.1, given value after told.1 told.2⟩)
    fun fault after fell => ⟨fell.1, blamed fault after fell.1 fell.2⟩

/-- What is told of a fault may be less. -/
theorem blame (first : o.Attempts act walk well ill)
    (blamed : ∀ fault arena, ill fault arena → ill' fault arena) : o.Attempts act walk well ill' :=
  first.mono (fun _ _ _ held => held) fun fault after _ => blamed fault after.arena

theorem arenaHere_bind {next : Arena → WalkM β}
    (rest : o.Attempts (next walk.arena) walk last ill) :
    o.Attempts (Walk.arenaHere >>= next) walk last ill := rest

theorem scopeHere_bind {next : Scope → WalkM β}
    (rest : o.Attempts (next walk.scope) walk last ill) :
    o.Attempts (liftM Site.scopeHere >>= next) walk last ill := rest

theorem fallback_bind {next : Option VarId → WalkM β}
    (rest : o.Attempts (next ((walk.analysis.vars.get? var).bind (·.storage.fallback?)))
      walk last ill) :
    o.Attempts (Walk.fallback? var >>= next) walk last ill := rest

theorem get_bind {next : Walk → WalkM β} (rest : o.Attempts (next walk) walk last ill) :
    o.Attempts (get >>= next) walk last ill :=
  rest

section Site

variable {site : SiteM α} (stands : o.Stands walk)

include stands

/-- An operation on the site leaves the arena alone. -/
theorem lift (known : α → Traces → Prop) (fails : Fault → Prop)
    (ends : Ends site walk.toSite
      (fun value after => walk.toSite.Onward after ∧ known value after.analysis.traces)
      fun fault after => walk.toSite.Onward after ∧ fails fault) :
    o.Attempts (liftM site) walk (fun value arena traces => arena = walk.arena ∧ known value traces)
      fun fault _ => fails fault :=
  ends_liftSite.2 (ends.mono (fun _ _ told => ⟨stands.at_site told.1, rfl, told.2⟩) fun _ _ fell =>
    ⟨stands.at_site fell.1, fell.2⟩)

/-- One that cannot fail does not. -/
theorem lift_succeeds {known : α → Traces → Prop}
    (succeeds : Site.Succeeds site walk.toSite known) :
    o.Attempts (liftM site) walk
      (fun value arena traces => arena = walk.arena ∧ known value traces) ill :=
  (lift stands known (fun _ => False) (Ends.mono succeeds (fun _ _ told => told) fun _ _ fell =>
    fell.elim)).blame fun _ _ impossible => impossible.elim

/-- One that asks for a registered variable fails if it is not. -/
theorem lift_refuses (known : α → Traces → Prop)
    (ends : Ends site walk.toSite
      (fun value after => walk.toSite.Onward after ∧ known value after.analysis.traces)
      (walk.toSite.Refuses var)) :
    o.Attempts (liftM site) walk (fun value arena traces => arena = walk.arena ∧ known value traces)
      fun fault _ => o.Misses [var] fault := by
  refine lift stands known _ (ends.mono (fun _ _ told => told) ?_)
  rintro _ _ ⟨rfl, rfl, absent⟩
  exact ⟨.refl stands.sound, var, List.mem_singleton_self var, rfl, stands.absent absent⟩

/-- Behind a look the variable is known to be registered. -/
theorem lift_looks
    (ends : Ends site walk.toSite (fun _ after => walk.toSite.Looked var after)
      (walk.toSite.Refuses var)) :
    o.Attempts (liftM site) walk (fun _ arena _ => arena = walk.arena ∧ (o.vars.get? var).isSome)
      fun fault _ => o.Misses [var] fault := by
  refine lift_refuses stands (fun _ _ => _)
    (ends.mono (fun _ _ looked => ⟨looked.onward, ?_⟩) fun _ _ refuses => refuses)
  obtain ⟨slot, found, -⟩ := looked.sound.analysis.traces.entry _ looked.recorded
  obtain ⟨former, before, -⟩ := (stands.vars.trans looked.grows.vars).slot_back found
  exact Option.isSome_iff_exists.2 ⟨former, before⟩

theorem signal (id : NodeId) (edit : Option Edit) :
    o.Attempts (Walk.signal id edit) walk (fun _ arena _ => arena = walk.arena) ill := by
  cases edit with
  | none => exact .pure stands rfl
  | some edit =>
    exact .arenaHere_bind
      (ends_liftAnalysisWalk.2 ⟨stands.unseen _ (EditLog.size_le_signal _ _ _), rfl⟩)

theorem assumeDynamicNames :
    o.Attempts (liftM Analysis.assumeDynamicNames) walk (fun _ arena _ => arena = walk.arena) ill :=
  ends_liftAnalysisWalk.2 ⟨stands.unseen _ (Nat.le_refl _), rfl⟩

end Site

section Edits

variable (stands : o.Stands walk)

include stands

/-- The arena may change to another one to which a walk may have come. -/
theorem rearrange {arena : Arena} (reworked : o.Reworked arena)
    (becomes : Arena.Becomes o.vars.Knows walk.arena arena) :
    o.Goes walk { walk with arena } :=
  ⟨⟨stands.sound, stands.vars, reworked⟩, .refl _, becomes⟩

theorem editStmt (inside : o.Inside id) {edit : Stmt → Stmt}
    (effects : ∀ expr, ∃ other, edit (.effect expr) = .effect other)
    (recasts : ∀ former now, o.arena.stmt? id = some former → o.Recasts walk.arena former now →
      o.Recasts walk.arena former (edit now))
    (adds : ∀ now, o.arena.size ≤ id → walk.arena.stmt? id = some now →
      o.Adds walk.arena (.stmt (edit now))) :
    o.Attempts (Walk.editStmt id edit) walk
      (fun _ arena _ => arena = walk.arena.mapStmt id edit) ill :=
  ends_modify.2
    ⟨rearrange stands
      (stands.arena.mapStmt inside effects (fun former now before _ => recasts former now before)
        adds) (.mapStmt _ _ effects), rfl⟩

/-- An old statement may be edited if it is still the former one recast. -/
theorem editOld (inside : o.Inside id) {former : Stmt} (before : o.arena.stmt? id = some former)
    {edit : Stmt → Stmt} (effects : ∀ expr, ∃ other, edit (.effect expr) = .effect other)
    (recasts : ∀ now, o.Recasts walk.arena former now → o.Recasts walk.arena former (edit now)) :
    o.Attempts (Walk.editStmt id edit) walk
      (fun _ arena _ => arena = walk.arena.mapStmt id edit) ill := by
  refine editStmt stands inside effects (fun same now again => ?_) fun _ beyond =>
    absurd beyond (Arena.not_beyond_of_stmt? before)
  obtain rfl := Option.some.inj (before.symm.trans again)
  exact recasts now

/-- An expression may be given settled operands that may stand for the former ones. -/
theorem editExpr (inside : o.Inside id) {edit : Expr → Expr}
    (forms : ∀ expr, (edit expr).form = expr.form)
    (operands : ∀ former now, o.arena.expr? id = some former → walk.arena.expr? id = some now →
      ∀ operand ∈ (edit now).operands, o.ExprForOne walk.arena former.operands operand ∧
      walk.arena.Settled o.vars.Knows operand) :
    o.Attempts (Walk.editExpr id edit) walk
      (fun _ arena _ => arena = walk.arena.mapExpr id edit) ill := by
  have literals (value : Literal) : edit (.literal value) = .literal value :=
    Expr.eq_literal (forms _)
  have settled (now : Expr) (found : walk.arena.expr? id = some now) :
      ∀ operand ∈ (edit now).operands, walk.arena.Settled o.vars.Knows operand := by
    obtain ⟨former, before, -⟩ | ⟨value, rfl, -⟩ := stands.arena.expr_cases found
    · exact fun operand mem => (operands former now before found operand mem).2
    · rw [literals]
      nofun
  have becomes := Arena.Becomes.mapExpr walk.arena id literals
    (fun expr => Expr.named_of_form (forms expr)) settled
  refine ends_modify.2
    ⟨rearrange stands
      (stands.arena.mapExpr inside literals becomes fun former now before found recasts =>
        ?_) becomes, rfl⟩
  exact ⟨(forms now).trans recasts.form,
    fun operand mem => (operands former now before found operand mem).1⟩

/-- The node that is added has the next id. -/
theorem pushLike {node : Node} (adds : o.Adds walk.arena node) :
    o.Attempts (Walk.pushLike id node) walk
      (fun other arena _ => other = walk.arena.size ∧ arena.node? other = some node) ill := by
  refine ⟨rearrange stands (stands.arena.push adds _) (.push _ _ _), rfl, ?_⟩
  rw [Arena.node?_push, if_pos rfl]

end Edits

theorem located {span : Span}
    (attempts : o.Attempts act walk well fun fault => ill (fault.within span)) :
    o.Attempts (Walk.located span act) walk well ill :=
  ends_located.2 attempts

/-- The fork in which a part of the walk ended well holds recorded versions only. -/
theorem inFork (label : String) (stands : o.Stands walk)
    (attempts : o.Attempts act { walk with scope := walk.scope.fork label } well ill) :
    o.Attempts (Walk.inFork label act) walk
      (fun answer arena traces => well answer.1 arena traces ∧ answer.2.Backed traces) ill := by
  have own {after : Walk} (goes : o.Goes { walk with scope := walk.scope.fork label } after) :
      o.Goes walk { after with scope := walk.scope } :=
    ⟨⟨⟨goes.stands.sound.analysis, stands.sound.scope.extend goes.grows.traces⟩, goes.stands.vars,
      goes.stands.arena⟩, goes.grows, goes.becomes⟩
  refine ends_inFork.2 (Ends.mono attempts ?_ ?_)
  · exact fun _ _ told => ⟨own told.1, told.2, told.1.stands.sound.scope⟩
  · exact fun _ _ fell => ⟨own fell.1, fell.2⟩

theorem catching (caught : Catch) (stands : o.Stands walk)
    (attempts : o.Attempts act { walk with analysis := walk.analysis.inside caught } well ill) :
    o.Attempts (Walk.catching caught act) walk well ill := by
  have behind {after : Walk}
      (goes : o.Goes { walk with analysis := walk.analysis.inside caught } after) :
      o.Goes walk (after.leaveRegistries caught walk.analysis.exits) :=
    ⟨⟨⟨goes.stands.sound.analysis.behind stands.sound.analysis goes.grows.traces caught,
      goes.stands.sound.scope⟩, goes.stands.vars, goes.stands.arena⟩,
      ⟨goes.grows.traces, goes.grows.uses, goes.grows.vars, goes.grows.options, goes.grows.edits⟩,
      goes.becomes⟩
  refine ends_catching.2 (Ends.mono attempts ?_ ?_)
  · exact fun _ _ told => ⟨behind told.1, told.2⟩
  · exact fun _ _ fell => ⟨behind fell.1, fell.2⟩

end Attempts

end Original

end ValueFlow
