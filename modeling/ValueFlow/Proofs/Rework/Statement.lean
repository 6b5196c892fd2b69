import ValueFlow.Proofs.Rework.Simple

/-!
# Walks of statements that may fail

The walk of a statement leaves one that may stand in its place, or stops at a statement below it
(`VisitsStmt`). What stands in the place of a child was below that child, so the statements that a
walk goes down to are those of the original arena, but for expression statements that were added,
and these are walked without fault. The induction is on the number of levels that the walk may go
down.
-/

namespace ValueFlow
set_option autoImplicit false

namespace Original

variable {o : Original} {walk : Walk} {id old child node body : NodeId} {var : VarId} {depth : Nat}
  {fault : Fault} {arena last : Arena} {former now stmt : Stmt}

namespace Reworked

variable (reworked : o.Reworked arena)

include reworked

/-- What stands below a statement in the place of a former one stands for that one, too. -/
theorem stmtFor_child (stands : o.StmtFor arena old node) (found : arena.stmt? node = some stmt)
    (mem : child ∈ stmt.children) :
    o.StmtFor arena old child := by
  obtain ⟨former, before, recasts⟩ | ⟨_, rfl, -⟩ := reworked.stmt_cases found
  · obtain ⟨next, held, fits⟩ := recasts.children child mem
    obtain below | added := stands
    · exact fits.imp_left (below.child before held).trans
    · exact absurd added.1 (Arena.not_beyond_of_stmt? before)
  · cases mem

theorem stmtFor_below (below : arena.Below id node) : o.StmtFor arena id node := by
  induction below with
  | root => exact .inl .root
  | child _ found mem ih => exact reworked.stmtFor_child ih found mem

/-- A walk adds no write. -/
theorem written (writes : var ∈ arena.variablesWritten id) : var ∈ o.arena.variablesWritten id := by
  obtain ⟨other, stmt, below, found, target⟩ :=
    (Arena.mem_variablesWritten.1 writes).exists_below .root
  obtain ⟨former, before, recasts⟩ | ⟨_, rfl, -⟩ := reworked.stmt_cases found
  · obtain above | added := reworked.stmtFor_below below
    · exact Arena.mem_variablesWritten_of_below above before
        (Stmt.target?_of_form recasts.form ▸ target)
    · exact absurd added.1 (Arena.not_beyond_of_stmt? before)
  · cases target

/-- A block was one before, and stays one. -/
theorem isSome_block? : (arena.block? id).isSome ↔ (o.arena.block? id).isSome := by
  simp only [Option.isSome_iff_exists, Arena.block?_eq_some]
  constructor
  · rintro ⟨stmts, found⟩
    obtain ⟨former, before, recasts⟩ | ⟨_, same, -⟩ := reworked.stmt_cases found
    · cases former with
      | block stmts => exact ⟨stmts, before⟩
      | _ => cases recasts.form
    · cases same
  · rintro ⟨stmts, before⟩
    obtain ⟨now, found, recasts⟩ := reworked.stmt id _ before
    cases now with
    | block stmts => exact ⟨stmts, found⟩
    | _ => cases recasts.form

end Reworked

/-- The walk of a statement leaves what may stand in its place, or stops at a statement below it. -/
def VisitsStmt (o : Original) (depth : Nat) (visit : NodeId → WalkM (Option NodeId)) : Prop :=
  ∀ walk id, o.Stands walk → o.Inside id → Arena.NestsWithin o.arena.Child depth id →
    o.Attempts (visit id) walk (fun left arena _ => o.LeftFor id left arena)
      fun fault last => ¬ o.IsAddedEffect walk.arena id ∧ o.Blames last id fault

namespace Rewriting

variable (rewriting : o.Rewriting id former now walk)

include rewriting

theorem fork (label : String) :
    o.Rewriting id former now { walk with scope := walk.scope.fork label } :=
  ⟨rewriting.stands.fork label, rewriting.inside, rewriting.before, rewriting.recasts⟩

theorem inLoop (caught : Catch) :
    o.Rewriting id former now { walk with analysis := walk.analysis.inside caught } :=
  ⟨rewriting.stands.inside caught, rewriting.inside, rewriting.before, rewriting.recasts⟩

/-- What stands for a child stands for the statement above. -/
theorem stmtFor (fits : o.StmtForOne arena former.children node) : o.StmtFor arena id node := by
  obtain ⟨old, mem, fits⟩ := fits
  exact fits.imp_left (Arena.Below.root.child rewriting.before mem).trans

section Children

variable {visit : NodeId → WalkM (Option NodeId)} (visits : o.VisitsStmt depth visit)
  (nests : Arena.NestsWithin o.arena.Child (depth + 1) id)

include visits nests

/-- What stands for a child is walked, and a fault of it is one of the statement above. -/
theorem visitChild (fits : o.StmtForOne walk.arena former.children child) :
    o.Attempts (visit child) walk
      (fun left arena _ => ∀ node ∈ left, o.StmtForOne arena former.children node ∧ ∀ stmts,
        o.arena.block? child = some stmts → node = child)
      fun fault last => o.Stops id fault last := by
  obtain ⟨old, mem, fits⟩ := fits
  have inside : o.Inside old :=
    rewriting.inside.tail (Arena.leads_of_mem_children rewriting.before mem)
  have shallow : Arena.NestsWithin o.arena.Child depth old :=
    nests old ⟨former, rewriting.before, mem⟩
  refine (visits walk child rewriting.stands (fits.inside inside) (fits.nests shallow)).mono ?_ ?_
  · intro left after goes told node held
    obtain ⟨stands, still⟩ := told node held
    exact ⟨⟨old, mem, fits.trans goes.becomes stands⟩, still⟩
  · rintro fault after - ⟨notAdded, blames⟩
    obtain below | added := fits
    · exact .inl ((blames.below below).below (.child .root rewriting.before mem))
    · exact absurd added notAdded

theorem rewriteStmts {stmts : List NodeId}
    (fits : ∀ stmt ∈ stmts, o.StmtForOne walk.arena former.children stmt) :
    o.Attempts (Walk.rewriteStmts visit stmts) walk
      (fun kept arena _ => ∀ stmt ∈ kept, o.StmtForOne arena former.children stmt)
      (o.Stops id) := by
  induction stmts generalizing walk with
  | nil => exact .pure rewriting.stands nofun
  | cons stmt rest ih =>
    refine .bind (rewriting.visitChild visits nests (fits stmt List.mem_cons_self))
      fun left middle first held => ?_
    have remaining := ih (rewriting.goes first) fun stmt mem =>
      (fits stmt (List.mem_cons_of_mem _ mem)).later first.becomes
    cases left with
    | none => exact remaining
    | some node =>
      obtain ⟨⟨old, mem, stands⟩, -⟩ := held node rfl
      refine .arenaHere_bind ?_
      have own : ∀ stmt ∈ (middle.arena.block? node).getD [node],
          o.StmtFor middle.arena old stmt := by
        cases found : middle.arena.block? node with
        | none => exact List.forall_mem_singleton.2 stands
        | some stmts =>
          exact fun stmt mem => first.stands.arena.stmtFor_child stands
            (Arena.block?_eq_some.1 found) mem
      dsimp only
      split
      · have noticed : o.Attempts (Walk.signalDead rest) middle (fun _ _ _ => True)
            (o.Stops id) := by
          cases rest with
          | nil => exact .pure first.stands trivial
          | cons dead _ =>
            exact (Attempts.signal first.stands dead (some _)).mono (fun _ _ _ _ => trivial)
              fun _ _ _ fell => fell
        exact .bind noticed fun _ _ second _ => .pure second.stands fun stmt here =>
          ⟨old, mem, (own stmt here).later second.becomes⟩
      · refine .bind remaining fun kept _ second rest => .pure second.stands fun stmt here => ?_
        exact (List.mem_append.1 here).elim
          (fun here => ⟨old, mem, (own stmt here).later second.becomes⟩) (rest stmt)

omit rewriting in
theorem rewriteBlock {stmts : List NodeId} (rewriting : o.Rewriting id former (.block stmts) walk) :
    o.Attempts (Walk.rewriteBlock visit id stmts) walk
      (fun answer arena _ => o.LeftFor id answer.node arena) (o.Stops id) := by
  refine .bind (rewriting.rewriteStmts visits nests rewriting.recasts.children)
    fun kept _ first held => ?_
  split
  · exact .pure first.stands nofun
  · refine .bind (.editOld first.stands rewriting.inside rewriting.before (fun _ => ⟨_, rfl⟩)
      fun _ recasts => recasts.withStmts held) fun _ _ second _ => .pure second.stands ?_
    exact o.leftFor_self id _

/-- The scope that an arm brings to the join holds recorded versions only. -/
theorem walkArm (label : String) {arm : Option NodeId}
    (fits : ∀ node ∈ arm, o.StmtForOne walk.arena former.children node) :
    o.Attempts (Walk.walkArm visit label arm) walk
      (fun answer arena traces => (∀ node ∈ answer.1, o.StmtForOne arena former.children node) ∧
        ∀ path ∈ answer.2.scope?, path.Backed traces)
      (o.Stops id) := by
  cases arm with
  | none => exact .pure rewriting.stands ⟨nofun, nofun⟩
  | some arm =>
    refine .bind
      (.inFork label rewriting.stands
        ((rewriting.fork label).visitChild visits nests (fits arm rfl))) fun answer _ goes told =>
      .arenaHere_bind ?_
    have left := fun node mem => (told.1 node mem).1
    split
    · exact .pure goes.stands ⟨left, nofun⟩
    · refine .pure goes.stands ⟨left, ?_⟩
      rintro path ⟨⟩
      exact told.2

/-- The arm that a known condition takes stands in the place of the conditional, which is no
block. -/
theorem takeArm (noBlock : ∀ stmts, o.arena.block? id ≠ some stmts) (truth : Bool)
    {yes no : Option NodeId}
    (fitsYes : ∀ node ∈ yes, o.StmtForOne walk.arena former.children node)
    (fitsNo : ∀ node ∈ no, o.StmtForOne walk.arena former.children node) :
    o.Attempts (Walk.takeArm visit truth yes no) walk
      (fun answer arena _ => o.LeftFor id answer.node arena) (o.Stops id) := by
  have fits : ∀ node ∈ (if truth then yes else no),
      o.StmtForOne walk.arena former.children node := by
    cases truth with
    | true => exact fitsYes
    | false => exact fitsNo
  unfold Walk.takeArm
  dsimp only
  split
  · rename_i arm taken
    refine .bind (rewriting.visitChild visits nests (fits arm taken)) fun left _ goes held =>
      .pure goes.stands fun node mem => ?_
    exact ⟨rewriting.stmtFor (held node mem).1, fun stmts block => absurd block (noBlock stmts)⟩
  · have absent : o.Attempts (Pure.pure none) walk (fun (left : Option NodeId) _ _ => left = none)
        (o.Stops id) := .pure rewriting.stands rfl
    refine .bind absent fun left _ goes none => .pure goes.stands ?_
    rintro node held
    cases none.symm.trans held

omit rewriting in
theorem rewriteBranch {cond : NodeId} {yes no : Option NodeId}
    (rewriting : o.Rewriting id former (.branch cond yes no) walk) (acyclic : o.arena.Acyclic) :
    o.Attempts (Walk.rewriteBranch visit id cond yes no) walk
      (fun answer arena _ => o.LeftFor id answer.node arena) (o.Stops id) := by
  have noBlock (stmts : List NodeId) : o.arena.block? id ≠ some stmts := by
    intro block
    obtain rfl := Option.some.inj (rewriting.before.symm.trans (Arena.block?_eq_some.1 block))
    cases rewriting.recasts.form
  refine .bind
    (rewriting.walkExpr acyclic (rewriting.recasts.operands cond (List.mem_singleton_self cond)))
    fun newCond _ first condHeld => .arenaHere_bind ?_
  have children := (rewriting.recasts.later first.becomes).children
  have fitsYes := fun node (mem : node ∈ yes) =>
    children node (List.mem_append_left _ (Option.mem_toList.2 mem))
  have fitsNo := fun node (mem : node ∈ no) =>
    children node (List.mem_append_right _ (Option.mem_toList.2 mem))
  split
  · exact (rewriting.goes first).takeArm visits nests noBlock _ fitsYes fitsNo
  · refine .bind ((rewriting.goes first).walkArm visits nests _ fitsYes)
      fun yesAnswer _ second yesHeld => ?_
    refine .bind (((rewriting.goes first).goes second).walkArm visits nests _ fun node mem =>
      (fitsNo node mem).later second.becomes) fun noAnswer behind third noHeld => ?_
    obtain ⟨join, same, succeeds⟩ := Walk.joinBehind_eq_lift third.stands.sound
      (fun path mem => (yesHeld.2 path mem).extend third.grows.traces) noHeld.2
    dsimp only
    rw [same]
    refine .bind (.lift_succeeds third.stands succeeds) fun _ joined fourth _ => ?_
    obtain ⟨condFits, inside, settled⟩ := condHeld
    have reached := second.trans (third.trans fourth)
    split
    · refine .bind
        (.pushLike fourth.stands
          (.inr ⟨newCond, rfl, inside, reached.becomes.settled newCond settled⟩))
        fun effect _ fifth pushed => .pure fifth.stands ?_
      obtain ⟨rfl, added⟩ := pushed
      rintro node ⟨⟩
      exact ⟨.inr ⟨fourth.stands.arena.grown, newCond, Arena.stmt?_eq_some.2 added⟩,
        fun stmts block => absurd block (noBlock stmts)⟩
    · refine .bind (.editOld fourth.stands rewriting.inside rewriting.before (fun _ => ⟨_, rfl⟩)
        fun _ recasts => ?_) fun _ _ fifth _ => .pure fifth.stands (o.leftFor_self id _)
      exact recasts.withArms (condFits.later reached.becomes)
        (fun node mem => (yesHeld.1 node mem).later (third.trans fourth).becomes) fun node mem =>
        (noHeld.1 node mem).later fourth.becomes

omit rewriting in
/-- The body of a loop is left as the block that it was, and the scopes at its breaks hold recorded
versions only. -/
theorem walkLoopBody {stmts : List NodeId}
    (rewriting : o.Rewriting id (.loop (some body)) now walk)
    (block : o.arena.block? body = some stmts) :
    o.Attempts (Walk.walkLoopBody visit body) walk
      (fun answer _ traces => (∀ node ∈ answer.1, node = body) ∧ ∀ path ∈ answer.2,
        path.Backed traces) (o.Stops id) := by
  have inner := (rewriting.fork "loop").inLoop .byLoop
  have walked : o.Attempts (do
      Site.forgetAll (walk.arena.variablesWritten body)
      let node ← visit body
      return (node, ← Analysis.takeExits .byLoop .brk))
      { walk with scope := walk.scope.fork "loop", analysis := walk.analysis.inside .byLoop }
      (fun answer _ traces => (∀ node ∈ answer.1, node = body) ∧ ∀ path ∈ answer.2,
        path.Backed traces) (o.Stops id) := by
    have forgets := Site.ends_forgetAll_onward inner.stands.sound (walk.arena.variablesWritten body)
    have forgotten := Attempts.lift inner.stands (fun _ _ => True) _
      (forgets.mono (fun _ _ onward => ⟨onward, trivial⟩) fun _ _ fell => fell)
    refine .bind (forgotten.blame ?_) fun _ _ first _ => ?_
    · rintro _ _ ⟨var, writes, rfl, absent⟩
      exact .inr (.written rewriting.before (rewriting.stands.arena.written writes)
        (inner.stands.absent absent))
    have child : o.StmtForOne walk.arena (Stmt.loop (some body)).children body :=
      ⟨body, List.mem_singleton_self body, .inl .root⟩
    have later := inner.goes first
    refine .bind (later.visitChild visits nests (child.later first.becomes))
      fun left _ second held => ?_
    refine .bind
      (.lift_succeeds second.stands (Site.succeeds_takeExits second.stands.sound .byLoop .brk))
      fun breaks _ third taken => ?_
    exact .pure third.stands ⟨fun node mem => (held node mem).2 stmts block, taken.2⟩
  refine .arenaHere_bind
    (.bind (.inFork "loop" rewriting.stands
        (.catching .byLoop (rewriting.stands.fork "loop") walked)) fun _ _ goes told => ?_)
  exact .pure goes.stands told.1

omit rewriting visits nests in
/-- A continue at the end of a body is removed, and what is left of the body is the same block. -/
theorem trimBody {ill : Fault → Arena → Prop} {stmts : List NodeId} (stands : o.Stands walk)
    (inside : o.Inside body) (block : o.arena.block? body = some stmts) {left : Option NodeId}
    (same : ∀ node ∈ left, node = body) :
    o.Attempts (Walk.trimBody left) walk
      (fun answer _ _ => ∀ node ∈ answer.node, node = body) ill := by
  have before := Arena.block?_eq_some.1 block
  cases left with
  | none => exact .pure stands nofun
  | some node =>
    obtain rfl := same node rfl
    have fits : ∀ stmt ∈ (walk.arena.block? node).getD [],
        o.StmtForOne walk.arena (Stmt.block stmts).children stmt := by
      obtain ⟨now, found, recasts⟩ := stands.arena.stmt node _ before
      cases now with
      | block held =>
        rw [Arena.block?_eq_some.2 found]
        exact recasts.children
      | _ => cases recasts.form
    refine .arenaHere_bind ?_
    dsimp only
    split
    · split
      · exact .pure stands nofun
      · refine .bind (.editOld stands inside before (fun _ => ⟨_, rfl⟩) fun _ recasts => ?_)
          fun _ _ goes _ => .pure goes.stands ?_
        · exact recasts.withStmts fun stmt mem => fits stmt (List.dropLast_subset _ mem)
        · rintro _ ⟨⟩
          rfl
    · exact .pure stands same

omit rewriting in
theorem rewriteLoop {inner : Option NodeId} (rewriting : o.Rewriting id former (.loop inner) walk) :
    o.Attempts (Walk.rewriteLoop visit id inner) walk
      (fun answer arena _ => o.LeftFor id answer.node arena) (o.Stops id) := by
  cases inner with
  | none => exact .pure rewriting.stands (o.leftFor_self id _)
  | some body =>
    obtain rfl := Stmt.eq_loop (rewriting.recasts.body body rfl)
    refine .arenaHere_bind ?_
    cases block : o.arena.block? body with
    | none =>
      have absent : walk.arena.block? body = none := by
        rw [← Option.not_isSome_iff_eq_none, rewriting.stands.arena.isSome_block?, block]
        exact Bool.false_ne_true
      have thrown : o.Attempts
          (MonadExcept.throw (.wrongShape body "a statement sequence") : WalkM PUnit) walk
          (fun _ _ _ => False) (o.Stops id) := by
        exact .throw rewriting.stands (.inr (.notBlock rewriting.before block))
      rw [if_pos (Option.isNone_iff_eq_none.2 absent)]
      exact thrown.bind fun _ _ _ impossible => impossible.elim
    | some stmts =>
      have still : (walk.arena.block? body).isSome :=
        rewriting.stands.arena.isSome_block?.2 (by rw [block]; rfl)
      have under : o.Inside body :=
        rewriting.inside.tail
          (Arena.leads_of_mem_children rewriting.before (List.mem_singleton_self body))
      rw [if_neg (by simpa using Option.isSome_iff_ne_none.1 still)]
      refine .bind (rewriting.walkLoopBody visits nests block) fun answer _ first told => ?_
      refine .bind (trimBody first.stands under block told.1) fun left _ second same => ?_
      refine .bind (.editOld second.stands rewriting.inside rewriting.before (fun _ => ⟨_, rfl⟩)
        fun _ recasts => recasts.withBody ?_) fun _ middle third _ => ?_
      · intro node mem
        rw [same node mem]
        rfl
      have joined : o.Attempts (Walk.joinBreaks answer.2) middle (fun _ _ _ => True)
          (o.Stops id) := by
        have backed := fun path mem => (told.2 path mem).extend (second.trans third).grows.traces
        cases breaks : answer.2 with
        | nil => exact .pure third.stands trivial
        | cons path paths =>
          exact (Attempts.lift_succeeds third.stands
            (Site.succeeds_join third.stands.sound (List.cons_ne_nil path paths)
              (breaks ▸ backed))).mono (fun _ _ _ _ => trivial) fun _ _ _ fell => fell
      refine .bind joined fun _ _ fourth _ => .arenaHere_bind ?_
      split
      · exact .pure fourth.stands nofun
      · exact .pure fourth.stands (o.leftFor_self id _)

end Children

end Rewriting

section Walks

variable (acyclic : o.arena.Acyclic)

include acyclic

theorem attempts_rewriteStmt {visit : NodeId → WalkM (Option NodeId)}
    (visits : o.VisitsStmt depth visit) (stands : o.Stands walk) (inside : o.Inside id)
    (nests : Arena.NestsWithin o.arena.Child (depth + 1) id) :
    o.Attempts (Walk.rewriteStmt visit id) walk
      (fun answer arena _ => o.LeftFor id answer.node arena) fun fault last =>
      ¬ o.IsAddedEffect walk.arena id ∧
        (o.Blames last id fault ∨ last.span id = walk.arena.span id ∧
          o.arena.StmtCause o.vars id fault) := by
  refine .arenaHere_bind ?_
  cases found : walk.arena.stmt? id with
  | none =>
    refine .throw stands ⟨?_, .inr ⟨rfl, .notStmt (stands.arena.absent_stmt found)⟩⟩
    rintro ⟨-, expr, again⟩
    rw [found] at again
    cases again
  | some now =>
    obtain ⟨former, before, recasts⟩ | ⟨expr, rfl, beyond, under, settled⟩ :=
      stands.arena.stmt_cases found
    · have rewriting : o.Rewriting id former now walk := ⟨stands, inside, before, recasts⟩
      have notAdded : ¬ o.IsAddedEffect walk.arena id :=
        fun added => absurd added.1 (Arena.not_beyond_of_stmt? before)
      suffices rewrites : o.Attempts _ walk
          (fun (answer : Walk.StmtAnswer) arena _ => o.LeftFor id answer.node arena) (o.Stops id)
          from rewrites.mono (fun _ _ _ held => held) fun fault after goes stops =>
          ⟨notAdded, stops.imp_right fun cause =>
            ⟨goes.becomes.span id (Arena.lt_size_of_stmt? found), cause⟩⟩
      cases now with
      | block stmts => exact rewriting.rewriteBlock visits nests
      | assign target value note => exact rewriting.rewriteAssign acyclic
      | delete target tolerant note => exact rewriting.rewriteDelete
      | release target => exact rewriting.rewriteRelease
      | effect expr => exact rewriting.rewriteEffect acyclic
      | branch cond yes no => exact rewriting.rewriteBranch visits nests acyclic
      | loop body => exact rewriting.rewriteLoop visits nests
      | brk =>
        refine rewriting.rewriteExit fun _ => .brk ?_
        cases former with
        | brk => exact before
        | _ => cases recasts.form
      | cont =>
        refine rewriting.rewriteExit fun _ => .cont ?_
        cases former with
        | cont => exact before
        | _ => cases recasts.form
      | ret value => exact rewriting.rewriteReturn acyclic
    · exact attempts_addedEffect stands acyclic beyond under settled

/-- Whatever the depth, the walk of a statement leaves what may stand in its place, or stops at a
statement below it. -/
theorem visitsStmt_walkStmtWithin (depth : Nat) :
    o.VisitsStmt depth (Walk.walkStmtWithin depth) := by
  induction depth with
  | zero => exact fun _ _ _ _ nests => nests.elim
  | succ depth ih =>
    intro walk id stands inside nests
    have rewritten : o.Attempts (Walk.rewriteStmt (Walk.walkStmtWithin depth) id) walk
        (fun answer arena _ => o.LeftFor id answer.node arena)
        fun fault last => ¬ o.IsAddedEffect walk.arena id ∧
          o.Blames last id (fault.within (walk.arena.span id)) := by
      refine ((attempts_rewriteStmt acyclic ih stands inside nests).and (ends_reached _ _)).mono
        (fun _ _ told => told.1) ?_
      rintro fault after ⟨⟨goes, notAdded, blames | ⟨span, cause⟩⟩, reached⟩
      · obtain ⟨stmt, cause, rfl, rest⟩ := blames
        exact ⟨goes, notAdded, stmt, cause, rfl, rest⟩
      · refine ⟨goes, notAdded, id, fault, ?_, .root, cause, depth, walk, after, reached, rfl⟩
        rw [Fault.within_of_bare cause.bare, span]
    refine .arenaHere_bind (.located (rewritten.bind fun answer _ first held => ?_))
    refine .bind (.signal first.stands id answer.edit) fun _ _ second same => .pure second.stands ?_
    rwa [same]

/-- Where nothing lies below itself, the walk of a statement has levels enough. -/
theorem attempts_walkStmt (stands : o.Stands walk) (inside : o.Inside id) :
    o.Attempts (Walk.walkStmt id) walk (fun left arena _ => o.LeftFor id left arena)
      fun fault last => o.Blames last id fault := by
  refine .arenaHere_bind
    ((visitsStmt_walkStmtWithin acyclic _ walk id stands inside ?_).blame fun _ _ fell => fell.2)
  exact (acyclic.nestsWithin Arena.Child.leads).mono (Nat.succ_le_succ stands.arena.grown)

end Walks

end Original

end ValueFlow
