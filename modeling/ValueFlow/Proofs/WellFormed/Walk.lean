import ValueFlow.Proofs.WellFormed.Succeeds

/-!
# Walks of what is laid out

The walk of an expression, of a statement and of a body at a position of a layout does not fail, and
what it answers with replaces the node at the position (`VisitsExpr`, `VisitsStmt`). The induction
is on the number of levels that a walk may go down: a position has a rank, the ranks fall from a
node to those below it, and no rank is above the size of the arena, so the levels never run out.

A break or a continue finds its registry open, because a statement that is not reached outside of
loops is walked inside of one (`Walk.Opened`).
-/

namespace ValueFlow
set_option autoImplicit false

namespace Walk

variable {layout newer : Layout} {walk after : Walk} {id inner : NodeId} {depth : Nat}
  {class_ above : NodeClass}

/-- The answer of a rewrite replaces the node, if it names one. -/
abbrev Answers (layout : Layout) (id : NodeId) (newer : Layout) (answer : StmtAnswer) (_ : Traces) : Prop :=
  ∀ node ∈ answer.node, layout.Replaces newer .stmt id node

section Expressions

/-- Expressions at positions of low rank are walked without fault. -/
def VisitsExpr (depth : Nat) (visit : NodeId → WalkM NodeId) : Prop :=
  ∀ layout walk id, walk.Fits layout → layout.places .expr id → layout.rank id < depth →
    Succeeds layout (visit id) walk fun newer other _ => layout.Replaces newer .expr id other

theorem Fits.noBlock_of_expr (fits : walk.Fits layout) {expr : Expr}
    (found : walk.arena.expr? id = some expr) : ¬ layout.blocks id := by
  intro held
  have block := fits.laid.blocks id held
  rw [Arena.block?, Arena.stmt?_of_expr? found] at block
  cases block

theorem succeeds_countRead (fits : walk.Fits layout) (place : layout.places .expr id) :
    Succeeds layout (countRead id) walk fun _ _ _ => True := by
  obtain ⟨expr, found, admits⟩ := fits.laid.expr place
  refine .arenaHere_bind ?_
  rw [found]
  cases expr with
  | read var note =>
    obtain ⟨slot, registered, fallback⟩ := admits.registered var rfl
    refine .bind
      (.lift fits (Site.succeeds_read fits.sound (Option.isSome_iff_exists.2 ⟨slot, registered⟩)))
      fun _ _ after onward _ => ?_
    obtain ⟨last, -, again⟩ := onward.site.grows.vars.slot var slot registered
    refine .fallback_bind ?_
    rw [again, Option.bind_some]
    cases named : slot.storage.fallback? with
    | none => exact .pure onward.fits trivial
    | some other =>
      exact .lift onward.fits
        (Site.succeeds_read onward.site.sound
          (onward.site.grows.vars.isSome (fallback other named)))
  | literal => exact .pure fits trivial
  | builtin => exact .pure fits trivial
  | call => exact .pure fits trivial
  | eval => exact .pure fits trivial

theorem succeeds_rewriteBuiltin (fits : walk.Fits layout) (place : layout.places .expr id)
    (name : String) (noBlock : ¬ layout.blocks id) :
    Succeeds layout (rewriteBuiltin id name) walk fun newer answer _ =>
      layout.Replaces newer .expr id answer.node := by
  refine .get_bind ?_
  cases builtinValue? walk.analysis.options name with
  | none => exact .pure fits (.refl place)
  | some value =>
    exact .bind (.pushLike fits place (.ofExpr nofun nofun) noBlock) fun _ _ _ onward replaces =>
      .pure onward.fits replaces

variable {visit : NodeId → WalkM NodeId} (visits : VisitsExpr depth visit)

include visits

/-- The walk of an operand answers with an operand. -/
theorem VisitsExpr.child (fits : walk.Fits layout) (place : layout.places above id)
    (low : layout.rank id ≤ depth) (under : layout.Child id .expr inner) :
    Succeeds layout (visit inner) walk fun newer other _ => newer.Child id .expr other :=
  (visits layout walk inner fits under.place (Nat.lt_of_lt_of_le under.lower low)).mono
    fun _ _ _ onward replaces => under.replace place onward.extends_ replaces

theorem VisitsExpr.children (fits : walk.Fits layout) (place : layout.places above id)
    (low : layout.rank id ≤ depth) {operands : List NodeId}
    (under : ∀ operand ∈ operands, layout.Child id .expr operand) :
    Succeeds layout (operands.mapM visit) walk fun newer others _ => ∀ other ∈ others,
      newer.Child id .expr other := by
  induction operands generalizing layout walk with
  | nil => exact .pure fits nofun
  | cons head tail ih =>
    rw [List.mapM_cons]
    refine .bind (visits.child fits place low (under head (by simp)))
      fun middle other _ onward first => ?_
    refine .bind
      (ih onward.fits (onward.extends_.places place) (by rwa [onward.extends_.rank place])
        fun operand mem => (under operand (by simp [mem])).extend place onward.extends_)
      fun last others _ late rest => .pure late.fits ?_
    have extended := first.extend (onward.extends_.places place) late.extends_
    simpa using ⟨extended, rest⟩

theorem succeeds_rewriteExpr (fits : walk.Fits layout) (place : layout.places .expr id)
    (low : layout.rank id ≤ depth) :
    Succeeds layout (rewriteExpr visit id) walk fun newer answer _ =>
      layout.Replaces newer .expr id answer.node := by
  obtain ⟨expr, found, admits⟩ := fits.laid.expr place
  have stays {newer : Layout} (early : layout.Extends newer) : layout.Replaces newer .expr id id :=
    (Layout.Replaces.refl place).extend early
  refine .arenaHere_bind ?_
  rw [found]
  cases expr with
  | literal value => exact .pure fits (.refl place)
  | read var note =>
    have registered := (admits.registered var rfl).isSome
    refine .bind (.lift fits (Site.succeeds_currentVersion fits.sound registered))
      fun _ version _ looked _ => ?_
    refine .bind (.editExpr looked.fits id fun _ held => held.withSeen version)
      fun _ _ _ edited _ => ?_
    exact .pure edited.fits (stays (looked.trans edited).extends_)
  | builtin name => exact succeeds_rewriteBuiltin fits place name (fits.noBlock_of_expr found)
  | call callee args =>
    have under :=
      fun operand mem =>
        admits.isChild rfl (List.mem_map_of_mem (f := (NodeClass.expr, ·)) (a := operand) mem)
    refine .bind (visits.child fits place low (under callee (by simp [Expr.operands])))
      fun _ newCallee _ first left => ?_
    refine .bind
      (visits.children first.fits (first.extends_.places place) (by rwa [first.extends_.rank place])
        fun arg mem => (under arg (by simp [Expr.operands, mem])).extend place first.extends_)
      fun _ newArgs _ second right => ?_
    have reached := first.trans second
    have left := left.extend (first.extends_.places place) second.extends_
    refine .bind (.editExpr reached.fits id fun _ held => held.withCall left right)
      fun _ _ _ third _ => ?_
    refine .bind (.lift third.fits (Site.succeeds_escapeAll third.site.sound))
      fun _ _ _ fourth _ => ?_
    exact .pure fourth.fits (stays (reached.trans (third.trans fourth)).extends_)
  | eval source =>
    have under : layout.Child id .expr source :=
      admits.isChild rfl (List.mem_singleton_self (NodeClass.expr, source))
    refine .bind (visits.child fits place low under) fun _ newSource _ first left => ?_
    refine .bind (.editExpr first.fits id fun _ held => held.withSource left)
      fun _ _ _ second _ => ?_
    refine .bind (.assumeDynamicNames second.fits) fun _ _ _ third _ => ?_
    refine .bind (.lift third.fits (Site.succeeds_escapeAll third.site.sound))
      fun _ _ _ fourth _ => ?_
    exact .pure fourth.fits (stays (first.trans (second.trans (third.trans fourth))).extends_)

end Expressions

theorem visitsExpr_walkExprWithin (depth : Nat) : VisitsExpr depth (walkExprWithin depth) := by
  induction depth with
  | zero => exact fun _ _ _ _ _ low => absurd low (Nat.not_lt_zero _)
  | succ depth ih =>
    intro layout walk id fits place low
    refine .bind (succeeds_rewriteExpr ih fits place (Nat.le_of_lt_succ low))
      fun _ answer _ first replaces => ?_
    refine .bind (.signal first.fits id answer.edit) fun _ _ _ second _ => ?_
    have here := replaces.extend second.extends_
    refine .bind (succeeds_countRead second.fits here.place) fun _ _ _ third _ => ?_
    exact .pure third.fits (here.extend third.extends_)

/-- The walk of an operand of a statement answers with an operand of it. -/
theorem succeeds_walkExpr (fits : walk.Fits layout) (place : layout.places above id)
    (under : layout.Child id .expr inner) :
    Succeeds layout (walkExpr inner) walk fun newer other _ => newer.Child id .expr other :=
  .arenaHere_bind ((visitsExpr_walkExprWithin _).child fits place
    (Nat.le_succ_of_le (fits.laid.room _ _ place)) under)

section Simple

/-- A statement that stays replaces itself. -/
theorem answers_stay (place : layout.places .stmt id) (early : layout.Extends newer)
    (traces : Traces) :
    Answers layout id newer (stay id) traces := by
  rintro node ⟨⟩
  exact (Layout.Replaces.refl place).extend early

theorem answers_removed (message : String) (traces : Traces) :
    Answers layout id newer (removed message) traces :=
  nofun

/-- What is answered later replaces the node that stood there before. -/
theorem Succeeds.since {act : WalkM StmtAnswer} (place : layout.places .stmt id)
    (early : layout.Extends newer) (succeeds : Succeeds newer act walk (Answers newer id)) :
    Succeeds newer act walk (Answers layout id) :=
  succeeds.mono fun _ _ _ _ replaces node mem => .ofExtends early place (replaces node mem)

variable (fits : walk.Fits layout) (place : layout.places .stmt id)

include fits place

theorem succeeds_rewriteAssign {target : VarId} {value : NodeId}
    (under : layout.Child id .expr value) (registered : (walk.analysis.vars.get? target).isSome) :
    Succeeds layout (rewriteAssign id target value) walk (Answers layout id) := by
  refine .bind (succeeds_walkExpr fits place under) fun _ value _ first held => ?_
  refine .bind
    (.lift first.fits
      (Site.succeeds_assign first.site.sound (first.site.grows.vars.isSome registered) id))
    fun _ version _ second _ => ?_
  have held := held.extend (first.extends_.places place) second.extends_
  refine .bind (.editStmt second.fits id (fun stmt => by cases stmt <;> rfl) fun _ admits =>
    admits.withBound held version) fun _ _ _ third _ => ?_
  exact .pure third.fits (answers_stay place (first.trans (second.trans third)).extends_ _)

omit place in
/-- Whether a delete found its variable unbound can be told. -/
theorem succeeds_isIdleDelete (tolerant : Bool) {prior : TraceKey}
    (told : ∃ answer, walk.analysis.traces.isSurelyUnbound prior = .ok answer) :
    Succeeds layout (isIdleDelete tolerant prior) walk fun _ _ _ => True := by
  unfold isIdleDelete
  cases tolerant with
  | false => exact .pure fits trivial
  | true =>
    obtain ⟨answer, told⟩ := told
    rw [if_pos rfl]
    refine .get_bind ?_
    rw [told]
    exact .pure fits trivial

theorem succeeds_rewriteDelete {target : VarId} (tolerant : Bool)
    (registered : (walk.analysis.vars.get? target).isSome) :
    Succeeds layout (rewriteDelete id target tolerant) walk (Answers layout id) := by
  refine .bind (.lift fits (Site.succeeds_delete fits.sound registered))
    fun _ prior _ first told => ?_
  refine .bind (succeeds_isIdleDelete first.fits tolerant told) fun _ idle _ second _ => ?_
  cases idle with
  | true => exact .pure second.fits (answers_removed _ _)
  | false =>
    refine .scopeHere_bind
      (.bind (.editStmt second.fits id (fun stmt => by cases stmt <;> rfl) fun _ admits =>
          admits.withDeleted _) fun _ _ _ third _ => ?_)
    exact .pure third.fits (answers_stay place (first.trans (second.trans third)).extends_ _)

theorem succeeds_rewriteRelease {target : VarId}
    (registered : (walk.analysis.vars.get? target).isSome) :
    Succeeds layout (rewriteRelease id target) walk (Answers layout id) := by
  have noted : Succeeds layout (discard <| liftM (Site.release target)) walk fun _ _ _ => True :=
    ends_discard.2 (Succeeds.lift fits (Site.succeeds_release fits.sound registered))
  exact .bind noted fun _ _ _ onward _ => .pure onward.fits (answers_stay place onward.extends_ _)

theorem succeeds_rewriteEffect {expr : NodeId} (under : layout.Child id .expr expr) :
    Succeeds layout (rewriteEffect id expr) walk (Answers layout id) := by
  refine .bind (succeeds_walkExpr fits place under) fun _ expr _ first held => .arenaHere_bind ?_
  split
  · exact .pure first.fits (answers_removed _ _)
  · refine .bind (.editStmt first.fits id (fun stmt => by cases stmt <;> rfl) fun _ admits =>
      admits.withEffect held) fun _ _ _ second _ => ?_
    exact .pure second.fits (answers_stay place (first.trans second).extends_ _)

theorem succeeds_rewriteExit {kind : ExitKind}
    (opened : kind = .ret ∨ (walk.analysis.exits.get kind).isSome) :
    Succeeds layout (rewriteExit id kind) walk (Answers layout id) := by
  have taken := Succeeds.lift fits (Site.succeeds_recordExit fits.sound opened)
  have rest : Succeeds layout _ walk (Answers layout id) :=
    taken.bind fun _ _ _ onward _ => .pure onward.fits (answers_stay place onward.extends_ _)
  exact rest

theorem succeeds_rewriteResult {value : Option NodeId}
    (under : ∀ node ∈ value, layout.Child id .expr node) :
    Succeeds layout (rewriteResult id value) walk fun _ _ _ => True := by
  cases value with
  | none => exact .pure fits trivial
  | some value =>
    refine .bind (succeeds_walkExpr fits place (under value rfl)) fun _ value _ first held => ?_
    exact .editStmt first.fits id (fun stmt => by cases stmt <;> rfl) fun _ admits =>
      admits.withResult held

end Simple

/-- Where a statement is not reached outside of loops, the registries of a loop are open. -/
def Opened (layout : Layout) (id : NodeId) (walk : Walk) : Prop :=
  ¬ layout.outside id → ∀ kind, kind ≠ .ret → (walk.analysis.exits.get kind).isSome

/-- Statements at positions of low rank are walked without fault. -/
def VisitsStmt (depth : Nat) (visit : NodeId → WalkM (Option NodeId)) : Prop :=
  ∀ layout walk id, walk.Fits layout → layout.places .stmt id → layout.rank id < depth → walk.Opened layout id →
    Succeeds layout (visit id) walk fun newer answer _ => ∀ node ∈ answer, layout.Replaces newer .stmt id node

theorem Opened.onward (opened : walk.Opened layout id) (place : layout.places class_ id)
    (onward : Onward layout walk newer after) :
    after.Opened newer id :=
  fun inside kind early => onward.site.opened kind
    (opened (fun out => inside ((onward.extends_.outside place).2 out)) kind early)

theorem Opened.child (opened : walk.Opened layout id) (under : layout.Child id class_ inner) :
    walk.Opened layout inner :=
  fun inside => opened fun out => inside (under.onward out)

/-- Inside a loop its registries are open. -/
theorem Opened.insideLoop (id : NodeId) (walk : Walk) :
    Opened layout id { walk with analysis := walk.analysis.inside .byLoop } := by
  intro _ kind early
  cases kind with
  | brk => rfl
  | cont => rfl
  | ret => exact absurd rfl early

/-- The join behind a conditional is done at the scope, and cannot fail. -/
theorem joinBehind_eq_lift (sound : walk.toSite.Sound) {yes no : Arm}
    (backedYes : ∀ path ∈ yes.scope?, path.Backed walk.analysis.traces)
    (backedNo : ∀ path ∈ no.scope?, path.Backed walk.analysis.traces) :
    ∃ join : SiteM Unit, joinBehind yes no = liftM join ∧ Site.Succeeds join walk.toSite
      fun _ _ => True := by
  have nothing : Site.Succeeds (pure ⟨⟩ : SiteM Unit) walk.toSite fun _ _ => True :=
    ends_pure.2 ⟨.refl sound, trivial⟩
  have single {path : Scope} (backed : path.Backed walk.analysis.traces) : Site.Succeeds
      (Site.join [path]) walk.toSite fun _ _ => True :=
    Site.succeeds_join sound (List.cons_ne_nil path []) (by simpa using backed)
  have both : Site.Succeeds (Site.joinArms yes.scope? no.scope?) walk.toSite fun _ _ => True :=
    Site.succeeds_joinArms sound backedYes backedNo
  cases yes with
  | absent =>
    cases no with
    | aborting => exact ⟨_, rfl, nothing⟩
    | absent => exact ⟨_, rfl, both⟩
    | reached path => exact ⟨_, rfl, both⟩
  | aborting =>
    cases no with
    | reached path => exact ⟨_, rfl, single (backedNo path rfl)⟩
    | absent => exact ⟨_, rfl, nothing⟩
    | aborting => exact ⟨_, rfl, nothing⟩
  | reached path =>
    cases no with
    | aborting => exact ⟨_, rfl, single (backedYes path rfl)⟩
    | absent => exact ⟨_, rfl, both⟩
    | reached other => exact ⟨_, rfl, both⟩

section Statements

variable {visit : NodeId → WalkM (Option NodeId)} (visits : VisitsStmt depth visit)
  (fits : walk.Fits layout) (place : layout.places .stmt id) (low : layout.rank id ≤ depth)
  (opened : walk.Opened layout id)

include visits fits place low opened

/-- The walk of a statement below answers with a statement below. -/
theorem VisitsStmt.child (under : layout.Child id .stmt inner) :
    Succeeds layout (visit inner) walk fun newer answer _ => ∀ node ∈ answer,
      newer.Child id .stmt node :=
  (visits layout walk inner fits under.place (Nat.lt_of_lt_of_le under.lower low)
    (opened.child under)).mono fun _ _ _ onward replaces node mem =>
    under.replace place onward.extends_ (replaces node mem)

theorem succeeds_rewriteStmts {stmts : List NodeId}
    (under : ∀ stmt ∈ stmts, layout.Child id .stmt stmt) :
    Succeeds layout (rewriteStmts visit stmts) walk fun newer kept _ => ∀ stmt ∈ kept,
      newer.Child id .stmt stmt := by
  induction stmts generalizing layout walk with
  | nil => exact .pure fits nofun
  | cons stmt rest ih =>
    refine .bind (visits.child fits place low opened (under stmt (by simp)))
      fun newer left middle first held => ?_
    have remaining :=
      ih first.fits (first.extends_.places place) (by rwa [first.extends_.rank place])
        (opened.onward place first) fun stmt mem =>
        (under stmt (by simp [mem])).extend place first.extends_
    cases left with
    | none => exact remaining
    | some node =>
      have below := held node rfl
      refine .arenaHere_bind ?_
      have own : ∀ stmt ∈ (middle.arena.block? node).getD [node], newer.Child id .stmt stmt := by
        cases found : middle.arena.block? node with
        | none => simpa using below
        | some stmts =>
          have admits :=
            (first.laid.admits below.place (Arena.stmt?_eq_some.1 (Arena.block?_eq_some.1 found))).2
          exact fun stmt mem =>
            below.trans (admits.isChild rfl (List.mem_append_left _ (List.mem_map_of_mem mem)))
      dsimp only
      split
      · have noticed : Succeeds newer (signalDead rest) middle fun _ _ _ => True := by
          cases rest with
          | nil => exact .pure first.fits trivial
          | cons dead rest => exact .signal first.fits dead (some _)
        exact .bind noticed fun _ _ _ second _ => .pure second.fits fun stmt mem =>
          (own stmt mem).extend (first.extends_.places place) second.extends_
      · refine .bind remaining fun _ kept _ second rest => .pure second.fits fun stmt mem => ?_
        exact (List.mem_append.1 mem).elim
          (fun mem => (own stmt mem).extend (first.extends_.places place) second.extends_)
          (rest stmt)

theorem succeeds_rewriteBlock {stmts : List NodeId}
    (under : ∀ stmt ∈ stmts, layout.Child id .stmt stmt) :
    Succeeds layout (rewriteBlock visit id stmts) walk (Answers layout id) := by
  refine .bind (succeeds_rewriteStmts visits fits place low opened under)
    fun _ kept _ first held => ?_
  split
  · exact .pure first.fits (answers_removed _ _)
  · refine .bind (.editStmt first.fits id (fun stmt => by cases stmt <;> rfl) fun _ admits =>
      admits.withStmts held) fun _ _ _ second _ => ?_
    exact .pure second.fits (answers_stay place (first.trans second).extends_ _)

/-- The scope that an arm brings to the join holds recorded versions only. -/
theorem succeeds_walkArm (label : String) {arm : Option NodeId}
    (under : ∀ node ∈ arm, layout.Child id .stmt node) :
    Succeeds layout (walkArm visit label arm) walk fun newer answer traces =>
      (∀ node ∈ answer.1, newer.Child id .stmt node) ∧ ∀ path ∈ answer.2.scope?,
        path.Backed traces := by
  cases arm with
  | none => exact .pure fits ⟨nofun, nofun⟩
  | some arm =>
    refine .bind
      (.inFork label fits (visits.child (fits.fork label) place low opened (under arm rfl)))
      fun _ answer _ onward told => .arenaHere_bind ?_
    split
    · exact .pure onward.fits ⟨told.1, nofun⟩
    · refine .pure onward.fits ⟨told.1, ?_⟩
      rintro path ⟨⟩
      exact told.2

omit place in
/-- The arm that a known condition takes replaces the conditional, which need not be a block. -/
theorem succeeds_takeArm (noBlock : ¬ layout.blocks id) (truth : Bool) {yes no : Option NodeId}
    (underYes : ∀ node ∈ yes, layout.Child id .stmt node)
    (underNo : ∀ node ∈ no, layout.Child id .stmt node) :
    Succeeds layout (takeArm visit truth yes no) walk (Answers layout id) := by
  have under : ∀ node ∈ (if truth then yes else no), layout.Child id .stmt node := by
    cases truth with
    | true => exact underYes
    | false => exact underNo
  unfold takeArm
  dsimp only
  split
  · rename_i arm taken
    have child := under arm taken
    refine .bind
      (visits layout walk arm fits child.place (Nat.lt_of_lt_of_le child.lower low)
        (opened.child child)) fun _ node _ onward replaces => .pure onward.fits fun other mem => ?_
    exact .ofChild child noBlock (replaces other mem)
  · have absent : Succeeds layout (Pure.pure none) walk fun _ (node : Option NodeId) _ => node =
        none := .pure fits rfl
    refine .bind absent fun _ node _ onward none => .pure onward.fits ?_
    rintro other held
    cases none.symm.trans held

omit visits low opened place in
theorem succeeds_joinBehind {yes no : Arm}
    (backedYes : ∀ path ∈ yes.scope?, path.Backed walk.analysis.traces)
    (backedNo : ∀ path ∈ no.scope?, path.Backed walk.analysis.traces) :
    Succeeds layout (joinBehind yes no) walk fun _ _ _ => True := by
  obtain ⟨join, same, succeeds⟩ := joinBehind_eq_lift fits.sound backedYes backedNo
  rw [same]
  exact .lift fits succeeds

theorem succeeds_rewriteBranch (noBlock : ¬ layout.blocks id) {cond : NodeId}
    {yes no : Option NodeId} (underCond : layout.Child id .expr cond)
    (underYes : ∀ node ∈ yes, layout.Child id .stmt node)
    (underNo : ∀ node ∈ no, layout.Child id .stmt node) :
    Succeeds layout (rewriteBranch visit id cond yes no) walk (Answers layout id) := by
  refine .bind (succeeds_walkExpr fits place underCond) fun newer cond _ first heldCond =>
    .arenaHere_bind ?_
  have early := first.extends_
  have placed := early.places place
  have lowNow : newer.rank id ≤ depth := by rwa [early.rank place]
  have openedNow := opened.onward place first
  have noBlockNow : ¬ newer.blocks id := fun held => noBlock ((early.blocks place).1 held)
  have underYes := fun node mem => (underYes node mem).extend place early
  have underNo := fun node mem => (underNo node mem).extend place early
  split
  · exact .since place early
      (succeeds_takeArm visits first.fits lowNow openedNow noBlockNow _ underYes underNo)
  · refine .bind (succeeds_walkArm visits first.fits placed lowNow openedNow _ underYes)
      fun _ yesAnswer _ second yesHeld => ?_
    refine .bind
      (succeeds_walkArm visits second.fits (second.extends_.places placed)
        (by rwa [second.extends_.rank placed]) (openedNow.onward placed second) _ fun node mem =>
        (underNo node mem).extend placed second.extends_) fun _ noAnswer _ third noHeld => ?_
    refine .bind
      (succeeds_joinBehind third.fits
        (fun path mem => (yesHeld.2 path mem).extend third.site.grows.traces) noHeld.2)
      fun last _ joined fourth _ => ?_
    have reached := second.trans (third.trans fourth)
    have placedLast := reached.extends_.places placed
    have heldCond := heldCond.extend placed reached.extends_
    have heldYes := fun node mem => (yesHeld.1 node mem).extend (second.extends_.places placed)
      (third.trans fourth).extends_
    have heldNo := fun node mem => (noHeld.1 node mem).extend
      ((second.trans third).extends_.places placed) fourth.extends_
    refine .since place (early.trans reached.extends_) ?_
    split
    · have admits : last.Admits joined.analysis.vars id (.stmt (.effect cond)) :=
        .ofStmt nofun (by simpa [Stmt.operands] using heldCond) nofun rfl rfl
      refine .bind
        (.pushLike fourth.fits placedLast admits fun held =>
          noBlockNow ((reached.extends_.blocks placed).1 held)) fun _ effect _ fifth replaces =>
        .pure fifth.fits ?_
      rintro node ⟨⟩
      exact replaces
    · refine .bind (.editStmt fourth.fits id (fun stmt => by cases stmt <;> rfl) fun _ admits =>
        admits.withArms heldCond heldYes heldNo) fun _ _ _ fifth _ => ?_
      exact .pure fifth.fits (answers_stay placedLast fifth.extends_ _)

omit place opened in
/-- The scopes at the breaks of a loop hold recorded versions only. -/
theorem succeeds_walkLoopBody {body : NodeId} (under : layout.Under id .stmt body) :
    Succeeds layout (walkLoopBody visit body) walk fun newer answer traces =>
      (∀ node ∈ answer.1, layout.Replaces newer .stmt body node) ∧ ∀ path ∈ answer.2,
        path.Backed traces := by
  have inner : Fits layout
      { walk with scope := walk.scope.fork "loop", analysis := walk.analysis.inside .byLoop } :=
    (fits.fork "loop").inside .byLoop
  have registered := fun var mem => (fits.laid.knows_of_written under.place var mem).isSome
  have walked : Succeeds layout (do
      Site.forgetAll (walk.arena.variablesWritten body)
      let node ← visit body
      return (node, ← Analysis.takeExits .byLoop .brk))
      { walk with scope := walk.scope.fork "loop", analysis := walk.analysis.inside .byLoop }
        fun newer answer traces =>
        (∀ node ∈ answer.1, layout.Replaces newer .stmt body node) ∧ ∀ path ∈ answer.2,
          path.Backed traces := by
    refine .bind (.lift inner (Site.succeeds_forgetAll inner.sound registered))
      fun _ _ _ first _ => ?_
    refine .bind
      (visits _ _ body first.fits (first.extends_.places under.place)
        (by rw [first.extends_.rank under.place]; exact Nat.lt_of_lt_of_le under.lower low)
        ((Opened.insideLoop body { walk with scope := walk.scope.fork "loop" }).onward under.place
          first)) fun _ node _ second held => ?_
    refine .bind (.lift second.fits (Site.succeeds_takeExits second.site.sound .byLoop .brk))
      fun _ breaks _ third backed => ?_
    exact .pure third.fits
      ⟨fun other mem => ((held other mem).extend third.extends_).ofExtends first.extends_
        under.place, backed⟩
  refine .arenaHere_bind
    (.bind (.inFork "loop" fits (.catching .byLoop (fits.fork "loop") walked))
      fun _ answer _ onward told => ?_)
  exact .pure onward.fits told.1

omit visits low opened in
/-- A continue at the end of a body is removed, and what is left of the body is a block if the body
was one. -/
theorem succeeds_trimBody {body : Option NodeId}
    (under : ∀ node ∈ body, layout.Under id .stmt node ∧ layout.blocks node) :
    Succeeds layout (trimBody body) walk fun newer answer _ => ∀ node ∈ answer.node,
      newer.Under id .stmt node ∧ newer.blocks node := by
  cases body with
  | none => exact .pure fits under
  | some body =>
    have held := under body rfl
    refine .arenaHere_bind ?_
    have below : ∀ stmt ∈ (walk.arena.block? body).getD [], layout.Child body .stmt stmt := by
      cases found : walk.arena.block? body with
      | none => nofun
      | some stmts =>
        have admits :=
          (fits.laid.admits held.1.place (Arena.stmt?_eq_some.1 (Arena.block?_eq_some.1 found))).2
        exact fun stmt mem => admits.isChild rfl (List.mem_append_left _ (List.mem_map_of_mem mem))
    dsimp only
    split
    · split
      · exact .pure fits nofun
      · refine .bind
          (.editStmt fits body (fun stmt => by cases stmt <;> rfl) fun _ admits => admits.withStmts
            fun stmt mem => below stmt (List.dropLast_subset _ mem)) fun _ _ _ onward _ =>
          .pure onward.fits ?_
        rintro node ⟨⟩
        exact ⟨held.1.extend place onward.extends_, (onward.extends_.blocks held.1.place).2 held.2⟩
    · exact .pure fits under

omit visits place low opened in
theorem succeeds_joinBreaks {breaks : List Scope}
    (backed : ∀ path ∈ breaks, path.Backed walk.analysis.traces) :
    Succeeds layout (joinBreaks breaks) walk fun _ _ _ => True := by
  cases breaks with
  | nil => exact .pure fits trivial
  | cons path paths =>
    exact .lift fits (Site.succeeds_join fits.sound (List.cons_ne_nil path paths) backed)

omit opened in
theorem succeeds_rewriteLoop {body : Option NodeId}
    (under : ∀ node ∈ body, layout.Under id .stmt node ∧ layout.blocks node) :
    Succeeds layout (rewriteLoop visit id body) walk (Answers layout id) := by
  cases body with
  | none => exact .pure fits (answers_stay place (.refl layout) _)
  | some body =>
    obtain ⟨below, isBlock⟩ := under body rfl
    refine .arenaHere_bind ?_
    rw [if_neg (by simpa using Option.isSome_iff_ne_none.1 (fits.laid.blocks body isBlock))]
    refine .bind (succeeds_walkLoopBody visits fits low below) fun newer answer _ first told => ?_
    have left : ∀ node ∈ answer.1, newer.Under id .stmt node ∧ newer.blocks node := by
      intro node mem
      have replaces := told.1 node mem
      refine ⟨⟨replaces.place, ?_⟩, replaces.blocks isBlock⟩
      rw [first.extends_.rank place]
      exact Nat.lt_of_le_of_lt replaces.rank below.lower
    refine .bind (succeeds_trimBody first.fits (first.extends_.places place) left)
      fun _ left _ second held => ?_
    refine .bind (.editStmt second.fits id (fun stmt => by cases stmt <;> rfl) fun _ admits =>
      admits.withBody held) fun _ _ _ third _ => ?_
    refine .bind
      (succeeds_joinBreaks third.fits fun path mem =>
        (told.2 path mem).extend (second.trans third).site.grows.traces) fun _ _ joined fourth _ =>
      .arenaHere_bind ?_
    split
    · exact .pure fourth.fits (answers_removed _ _)
    · exact .pure fourth.fits
        (answers_stay place (first.trans (second.trans (third.trans fourth))).extends_
          joined.analysis.traces)

theorem succeeds_rewriteStmt : Succeeds layout (rewriteStmt visit id) walk (Answers layout id) := by
  obtain ⟨stmt, found, admits⟩ := fits.laid.stmt place
  have noBlock (other : ∀ stmts, stmt ≠ .block stmts) : ¬ layout.blocks id := by
    intro held
    obtain ⟨stmts, block⟩ := Option.isSome_iff_exists.1 (fits.laid.blocks id held)
    exact other stmts (Option.some.inj (found.symm.trans (Arena.block?_eq_some.1 block)))
  have children (flat : (Node.stmt stmt).isLoop = false) : ∀ other ∈ stmt.children,
      layout.Child id .stmt other :=
    fun other mem => admits.isChild flat (List.mem_append_left _ (List.mem_map_of_mem mem))
  have operands (flat : (Node.stmt stmt).isLoop = false) : ∀ other ∈ stmt.operands,
      layout.Child id .expr other :=
    fun other mem => admits.isChild flat (List.mem_append_right _ (List.mem_map_of_mem mem))
  have registered : ∀ var ∈ (Node.stmt stmt).named, (walk.analysis.vars.get? var).isSome :=
    fun var mem => (admits.registered var mem).isSome
  have early (leaves : (Node.stmt stmt).leavesRound = true) (kind : ExitKind)
      (notReturn : kind ≠ .ret) : (walk.analysis.exits.get kind).isSome :=
    opened (fun out => Bool.noConfusion ((admits.exits out).symm.trans leaves)) kind notReturn
  refine .arenaHere_bind ?_
  rw [found]
  cases stmt with
  | block stmts => exact succeeds_rewriteBlock visits fits place low opened (children rfl)
  | assign target value note =>
    exact succeeds_rewriteAssign fits place (operands rfl value (by simp [Stmt.operands]))
      (registered target rfl)
  | delete target tolerant note =>
    exact succeeds_rewriteDelete fits place tolerant (registered target rfl)
  | release target => exact succeeds_rewriteRelease fits place (registered target rfl)
  | effect expr =>
    exact succeeds_rewriteEffect fits place (operands rfl expr (by simp [Stmt.operands]))
  | branch cond yes no =>
    exact succeeds_rewriteBranch visits fits place low opened (noBlock (by simp))
      (operands rfl cond (by simp [Stmt.operands]))
      (fun node arm => children rfl node (List.mem_append_left _ (Option.mem_toList.2 arm)))
      (fun node arm => children rfl node (List.mem_append_right _ (Option.mem_toList.2 arm)))
  | loop body =>
    exact succeeds_rewriteLoop visits fits place low fun node mem =>
      ⟨admits.below (.stmt, node) (Node.mem_below_of_body? mem), admits.bodies node mem⟩
  | brk => exact succeeds_rewriteExit fits place (.inr (early rfl .brk (by decide)))
  | cont => exact succeeds_rewriteExit fits place (.inr (early rfl .cont (by decide)))
  | ret value =>
    refine .bind
      (succeeds_rewriteResult fits place fun node mem =>
        operands rfl node (Option.mem_toList.2 mem)) fun _ _ _ onward _ => ?_
    exact .since place onward.extends_
      (succeeds_rewriteExit onward.fits (onward.extends_.places place) (.inl rfl))

end Statements

theorem visitsStmt_walkStmtWithin (depth : Nat) : VisitsStmt depth (walkStmtWithin depth) := by
  induction depth with
  | zero => exact fun _ _ _ _ _ low _ => absurd low (Nat.not_lt_zero _)
  | succ depth ih =>
    intro layout walk id fits place low opened
    refine .arenaHere_bind (.located _ ?_)
    refine .bind (succeeds_rewriteStmt ih fits place (Nat.le_of_lt_succ low) opened)
      fun _ answer _ first replaces => ?_
    refine .bind (.signal first.fits id answer.edit) fun _ _ _ second _ => ?_
    exact .pure second.fits fun node mem => (replaces node mem).extend second.extends_

/-- The walk of a statement that is laid out does not fail, and answers with what may stand in its
place. -/
theorem succeeds_walkStmt (fits : walk.Fits layout) (place : layout.places .stmt id)
    (opened : walk.Opened layout id) :
    Succeeds layout (walkStmt id) walk fun newer answer _ => ∀ node ∈ answer,
      layout.Replaces newer .stmt id node :=
  .arenaHere_bind
    (visitsStmt_walkStmtWithin _ layout walk id fits place
      (Nat.lt_succ_of_le (fits.laid.room _ _ place)) opened)

/-- The scopes at which control leaves a function hold recorded versions only. -/
theorem succeeds_functionExits (fits : walk.Fits layout) (node : Option NodeId)
    {returns : List Scope} (backed : ∀ path ∈ returns, path.Backed walk.analysis.traces) :
    Succeeds layout (functionExits node returns) walk fun _ exits traces => ∀ path ∈ exits,
      path.Backed traces := by
  refine .arenaHere_bind ?_
  split
  · exact .pure fits backed
  · refine .scopeHere_bind (.pure fits fun path mem => ?_)
    rcases List.mem_append.1 mem with snapshot | last
    · exact backed path snapshot
    · rw [List.mem_singleton.1 last]
      exact fits.sound.scope.fork _

theorem succeeds_walkFunction (fits : walk.Fits layout) (place : layout.places .stmt id)
    (opened : walk.Opened layout id) :
    Succeeds layout (walkFunction id) walk fun newer answer _ => ∀ node ∈ answer,
      layout.Replaces newer .stmt id node := by
  have inner := fits.inside .byFunction
  have walked : Succeeds layout (do
      let node ← walkStmt id
      return (node, ← Analysis.takeExits .byFunction .ret))
        { walk with analysis := walk.analysis.inside .byFunction }
        fun newer answer traces => (∀ node ∈ answer.1, layout.Replaces newer .stmt id node) ∧
          ∀ path ∈ answer.2, path.Backed traces := by
    refine .bind (succeeds_walkStmt inner place ?_) fun _ node _ first held => ?_
    · exact fun inside kind early => by
        cases kind <;> first | exact opened inside _ early | exact absurd rfl early
    · refine .bind (.lift first.fits (Site.succeeds_takeExits first.site.sound .byFunction .ret))
        fun _ returns _ second backed => ?_
      exact .pure second.fits ⟨fun other mem => (held other mem).extend second.extends_, backed⟩
  refine .bind (.catching .byFunction fits walked) fun _ answer _ first told => ?_
  refine .bind (succeeds_functionExits first.fits answer.1 told.2) fun _ exits _ second backed => ?_
  have kept := fun node mem => (told.1 node mem).extend second.extends_
  cases exits with
  | nil => exact .pure second.fits kept
  | cons path paths =>
    refine .bind
      (.lift second.fits
        (Site.succeeds_join second.site.sound (List.cons_ne_nil path paths) backed))
      fun _ _ _ third _ => ?_
    exact .pure third.fits fun node mem => (kept node mem).extend third.extends_

/-- The walk of a body that is laid out does not fail, and what is left of the body is laid out. -/
theorem succeeds_walkBody (kind : BodyKind) (fits : walk.Fits layout)
    (place : layout.places .stmt id) (opened : walk.Opened layout id) :
    Succeeds layout (walkBody kind id) walk fun newer answer _ => ∀ node ∈ answer,
      layout.Replaces newer .stmt id node := by
  cases kind with
  | moduleBody => exact succeeds_walkStmt fits place opened
  | functionBody => exact succeeds_walkFunction fits place opened

end Walk

end ValueFlow
