import ValueFlow.Proofs.Discipline.Walk
import ValueFlow.Proofs.Numbering.Expressions

/-!
# Walks of statements under other numbers

The walk of a statement and of a body answers alike from walks that are the same but for the numbers
of versions and for the notes from before, and leaves such walks behind.
-/

namespace ValueFlow
set_option autoImplicit false

namespace Numbering

variable {numbering : Numbering} {start startRight : Arena}

section Simple

/-- The versions that an assignment makes on the two sides are noted. -/
theorem editStmt_bound {id : NodeId} {target : VarId} (noted : start.noted? id = some target)
    (value : NodeId) {version other : Version} (same : numbering.Same target version other) :
    InStep (numbering.SameWalks start startRight) (Walk.editStmt id (.withBound value version))
      (Walk.editStmt id (.withBound value other))
      fun _ _ => True := by
  refine editStmt id (fun stmt => (stmt.withBound value .entry).bare)
    (fun stmt => stmt.bare_withBound value version) (fun stmt => stmt.bare_withBound value other)
    (fun stmt => by cases stmt <;> rfl) fun {stmt image} bare about => ?_
  rcases Stmt.eq_of_bare bare with rfl | ⟨_, _, _, _, rfl, rfl⟩ | ⟨_, _, _, _, rfl, rfl⟩
  · cases image with
    | assign asked _ _ =>
      obtain rfl := Option.some.inj (about.trans noted)
      exact .inr ⟨_, _, _, rfl, rfl, .some same⟩
    | _ => exact .inl ⟨rfl, rfl⟩
  · obtain rfl := Option.some.inj (about.trans noted)
    exact .inr ⟨_, _, _, rfl, rfl, .some same⟩
  · exact .inl ⟨rfl, rfl⟩

/-- The versions that a delete makes on the two sides are noted. -/
theorem editStmt_deleted {id : NodeId} {target : VarId} (noted : start.noted? id = some target)
    {version other : Option Version} (same : Option.Rel (numbering.Same target) version other) :
    InStep (numbering.SameWalks start startRight) (Walk.editStmt id (.withDeleted version))
      (Walk.editStmt id (.withDeleted other))
      fun _ _ => True := by
  refine editStmt id (fun stmt => stmt) (fun stmt => stmt.bare_withDeleted version)
    (fun stmt => stmt.bare_withDeleted other) (fun stmt => by cases stmt <;> rfl)
    fun {stmt image} bare about => ?_
  rcases Stmt.eq_of_bare bare with rfl | ⟨_, _, _, _, rfl, rfl⟩ | ⟨_, _, _, _, rfl, rfl⟩
  · cases image with
    | delete asked _ _ =>
      obtain rfl := Option.some.inj (about.trans noted)
      exact .inr ⟨_, _, _, rfl, rfl, same⟩
    | _ => exact .inl ⟨rfl, rfl⟩
  · exact .inl ⟨rfl, rfl⟩
  · obtain rfl := Option.some.inj (about.trans noted)
    exact .inr ⟨_, _, _, rfl, rfl, same⟩

theorem rewriteAssign {id : NodeId} {target : VarId} (noted : start.noted? id = some target)
    (value : NodeId) :
    numbering.Repeats start startRight (Walk.rewriteAssign id target value) := by
  refine (walkExpr value).bind ?_
  rintro value _ rfl
  exact (onSite (assign target id)).bind fun _ _ same => (editStmt_bound noted value same).bind
    fun _ _ _ => .pure rfl

theorem leavesUnbound {var : VarId} {origin image : Origin}
    (related : Origin.Same (numbering.Same var) origin image) :
    Traces.leavesUnbound image = Traces.leavesUnbound origin := by
  cases related <;> rfl

/-- A delete is idle on both sides or on neither. -/
theorem isIdleDelete (tolerant : Bool) {prior other : TraceKey}
    (keys : numbering.SameKeys prior other) :
    InStep (numbering.SameWalks start startRight) (Walk.isIdleDelete tolerant prior)
      (Walk.isIdleDelete tolerant other) Eq := by
  cases tolerant with
  | false => exact .pure rfl
  | true =>
    refine .get_bind fun left right walks => ?_
    have answers : SameAnswers (left.analysis.traces.isSurelyUnbound prior)
        (right.analysis.traces.isSurelyUnbound other) := by
      rw [Traces.isSurelyUnbound, Traces.isSurelyUnbound, keys.1]
      exact everyLeaf leavesUnbound walks.sites.state.traces keys.2
    revert answers
    generalize left.analysis.traces.isSurelyUnbound prior = answer
    generalize right.analysis.traces.isSurelyUnbound other = image
    intro answers
    cases answers with
    | ok told => exact .pure told.symm
    | error agrees => exact .throw agrees

theorem rewriteDelete {id : NodeId} {target : VarId} (noted : start.noted? id = some target)
    (tolerant : Bool) :
    numbering.Repeats start startRight (Walk.rewriteDelete id target tolerant) := by
  refine (onSite (delete target)).bind fun prior other keys => (isIdleDelete tolerant keys).bind ?_
  rintro idle _ rfl
  cases idle with
  | true => exact .pure rfl
  | false =>
    refine (onSite scopeHere).bind fun scope scopeRight scopes => ?_
    exact (editStmt_deleted noted (scopes.active target)).bind fun _ _ _ => .pure rfl

theorem rewriteRelease (id : NodeId) (target : VarId) :
    numbering.Repeats start startRight (Walk.rewriteRelease id target) :=
  (onSite (release target)).discard.bind fun _ _ _ => .pure rfl

theorem rewriteEffect (id expr : NodeId) :
    numbering.Repeats start startRight (Walk.rewriteEffect id expr) := by
  refine (walkExpr expr).bind ?_
  rintro expr _ rfl
  refine arenaHere_bind fun arena other arenas => ?_
  have literal : other.literal? expr = arena.literal? expr :=
    Arena.congr_bare arenas.bare (·.literal? expr) (Arena.literal?_bare · expr)
  rw [literal]
  split
  · exact .pure rfl
  · exact (editStmt_same id (fun stmt => stmt.bare_withEffect expr)
      fun stmt => by cases stmt <;> rfl).bind fun _ _ _ => .pure rfl

theorem rewriteResult (id : NodeId) (value : Option NodeId) :
    InStep (numbering.SameWalks start startRight) (Walk.rewriteResult id value)
      (Walk.rewriteResult id value) fun _ _ => True := by
  cases value with
  | none => exact .pure trivial
  | some value =>
    refine (walkExpr value).bind ?_
    rintro result _ rfl
    exact editStmt_same id (fun stmt => stmt.bare_withResult result) fun stmt => by
      cases stmt <;> rfl

theorem rewriteExit (id : NodeId) (kind : ExitKind) :
    numbering.Repeats start startRight (Walk.rewriteExit id kind) :=
  (onSite scopeHere).bind fun _ _ scopes => (onAnalysis (recordExit kind scopes)).bind
    fun _ _ _ => .pure rfl

end Simple

/-- Arms that reach the join behind alike, with scopes that correspond. -/
inductive SameArms (numbering : Numbering) : Walk.Arm → Walk.Arm → Prop
  | absent : SameArms numbering .absent .absent
  | aborting : SameArms numbering .aborting .aborting
  | reached {path other : Scope} (same : numbering.SameScopes path other) : SameArms numbering (.reached path) (.reached other)

theorem SameArms.scope? {arm other : Walk.Arm} (arms : numbering.SameArms arm other) :
    Option.Rel numbering.SameScopes arm.scope? other.scope? := by
  cases arms with
  | absent | aborting => exact .none
  | reached same => exact .some same

theorem joinBehind {yes no yesOther noOther : Walk.Arm}
    (yesSame : numbering.SameArms yes yesOther) (noSame : numbering.SameArms no noOther) :
    InStep (numbering.SameWalks start startRight) (Walk.joinBehind yes no)
      (Walk.joinBehind yesOther noOther) fun _ _ => True := by
  have arms : InStep (numbering.SameWalks start startRight) _ _ fun _ _ => True :=
    onSite (joinArms yesSame.scope? noSame.scope?)
  cases yesSame with
  | absent =>
    cases noSame with
    | aborting => exact .pure trivial
    | absent | reached => exact arms
  | aborting =>
    cases noSame with
    | absent | aborting => exact .pure trivial
    | reached only => exact onSite (join (.cons only .nil))
  | reached only =>
    cases noSame with
    | aborting => exact onSite (join (.cons only .nil))
    | absent | reached => exact arms

theorem behindArms (id cond : NodeId) (yes no : Option NodeId)
    {yesArm noArm yesOther noOther : Walk.Arm} (yesSame : numbering.SameArms yesArm yesOther)
    (noSame : numbering.SameArms noArm noOther) :
    InStep (numbering.SameWalks start startRight)
      (Walk.behindArms id cond (yes, yesArm) (no, noArm))
      (Walk.behindArms id cond (yes, yesOther) (no, noOther)) Eq := by
  refine (joinBehind yesSame noSame).bind fun _ _ _ => ?_
  dsimp only
  split
  · refine (pushLike id rfl).bind ?_
    rintro effect _ rfl
    exact .pure rfl
  · exact (editStmt_same id (fun stmt => stmt.bare_withArms cond yes no)
      fun stmt => by cases stmt <;> rfl).bind fun _ _ _ => .pure rfl

/-- A trailing continue is removed on both sides or on neither. -/
theorem trimBody (body : Option NodeId) :
    numbering.Repeats start startRight (Walk.trimBody body) := by
  cases body with
  | none => exact .pure rfl
  | some body =>
    refine arenaHere_bind fun arena other arenas => ?_
    have block : other.block? body = arena.block? body :=
      Arena.congr_bare arenas.bare (·.block? body) (Arena.block?_bare · body)
    dsimp only
    rw [block, Arena.isCont_of_bare arenas.bare]
    split
    · cases ((arena.block? body).getD []).dropLast with
      | nil => exact .pure rfl
      | cons first rest =>
        exact (editStmt_same body (fun stmt => stmt.bare_withStmts _)
          fun stmt => by cases stmt <;> rfl).bind fun _ _ _ => .pure rfl
    · exact .pure rfl

theorem joinBreaks {breaks others : List Scope}
    (related : List.Forall₂ numbering.SameScopes breaks others) :
    InStep (numbering.SameWalks start startRight) (Walk.joinBreaks breaks) (Walk.joinBreaks others)
      fun _ _ => True := by
  cases related with
  | nil => exact .pure trivial
  | cons first rest => exact onSite (join (.cons first rest))

theorem behindBody (id : NodeId) (node : Option NodeId) {breaks others : List Scope}
    (related : List.Forall₂ numbering.SameScopes breaks others) :
    InStep (numbering.SameWalks start startRight) (Walk.behindBody id node breaks)
      (Walk.behindBody id node others) Eq := by
  refine (trimBody node).bind ?_
  rintro left _ rfl
  refine (editStmt_same id (fun stmt => stmt.bare_withBody left.node)
    fun stmt => by cases stmt <;> rfl).bind fun _ _ _ => ?_
  refine (joinBreaks related).bind fun _ _ _ => arenaHere_bind fun arena other arenas => ?_
  have lone : Walk.isLoneBreak other = Walk.isLoneBreak arena :=
    funext fun body => Arena.congr_bare arenas.bare (Walk.isLoneBreak · body)
      (Arena.isLoneBreak_bare · body)
  rw [lone]
  split
  · exact .pure rfl
  · exact .pure rfl

section Statements

variable {visit : NodeId → WalkM (Option NodeId)}
  (visits : ∀ id, numbering.Repeats start startRight (visit id))
include visits

theorem rewriteStmts (stmts : List NodeId) :
    numbering.Repeats start startRight (Walk.rewriteStmts visit stmts) := by
  induction stmts with
  | nil => exact .pure rfl
  | cons stmt rest ih =>
    refine (visits stmt).bind ?_
    rintro left _ rfl
    cases left with
    | none => exact ih
    | some node =>
      refine arenaHere_bind fun arena other arenas => ?_
      have block : other.block? node = arena.block? node :=
        Arena.congr_bare arenas.bare (·.block? node) (Arena.block?_bare · node)
      have aborts : other.isAborting node = arena.isAborting node :=
        Arena.congr_bare arenas.bare (·.isAborting node) (Arena.isAborting_bare · node)
      rw [block, aborts]
      dsimp only
      split
      · have dead : InStep (numbering.SameWalks start startRight) (Walk.signalDead rest)
            (Walk.signalDead rest) fun _ _ => True := by
          cases rest with
          | nil => exact .pure trivial
          | cons dead rest => exact notice dead (some _)
        exact dead.bind fun _ _ _ => .pure rfl
      · refine ih.bind ?_
        rintro kept _ rfl
        exact .pure rfl

theorem rewriteBlock (id : NodeId) (stmts : List NodeId) :
    numbering.Repeats start startRight (Walk.rewriteBlock visit id stmts) := by
  refine (rewriteStmts visits stmts).bind ?_
  rintro kept _ rfl
  split
  · exact .pure rfl
  · exact (editStmt_same id (fun stmt => stmt.bare_withStmts _)
      fun stmt => by cases stmt <;> rfl).bind fun _ _ _ => .pure rfl

theorem walkArm (label : String) (arm : Option NodeId) :
    InStep (numbering.SameWalks start startRight) (Walk.walkArm visit label arm)
      (Walk.walkArm visit label arm)
      fun answer other => other.1 = answer.1 ∧ numbering.SameArms answer.2 other.2 := by
  cases arm with
  | none => exact .pure ⟨rfl, .absent⟩
  | some arm =>
    refine (inFork label (visits arm)).bind ?_
    rintro ⟨node, path⟩ ⟨_, pathRight⟩ ⟨rfl, scopes⟩
    refine arenaHere_bind fun arena other arenas => ?_
    have aborts : other.isAborting = arena.isAborting :=
      funext fun id => Arena.congr_bare arenas.bare (·.isAborting id) (Arena.isAborting_bare · id)
    rw [aborts]
    dsimp only
    split
    · exact .pure ⟨rfl, .aborting⟩
    · exact .pure ⟨rfl, .reached scopes⟩

theorem takeArm (truth : Bool) (yes no : Option NodeId) :
    numbering.Repeats start startRight (Walk.takeArm visit truth yes no) := by
  unfold Walk.takeArm
  dsimp only
  split
  · refine (visits _).bind ?_
    rintro node _ rfl
    exact .pure rfl
  · exact .pure rfl

theorem behindCond (id : NodeId) (yes no : Option NodeId) (cond : NodeId) :
    numbering.Repeats start startRight (Walk.behindCond visit id yes no cond) := by
  refine arenaHere_bind fun arena other arenas => ?_
  have literal : other.literal? cond = arena.literal? cond :=
    Arena.congr_bare arenas.bare (·.literal? cond) (Arena.literal?_bare · cond)
  rw [literal]
  cases arena.literal? cond with
  | some value => exact takeArm visits value.isTruthy yes no
  | none =>
    refine (walkArm visits _ yes).bind ?_
    rintro ⟨yes, yesArm⟩ ⟨_, yesOther⟩ ⟨rfl, yesSame⟩
    refine (walkArm visits _ no).bind ?_
    rintro ⟨no, noArm⟩ ⟨_, noOther⟩ ⟨rfl, noSame⟩
    exact behindArms id cond _ _ yesSame noSame

theorem rewriteBranch (id cond : NodeId) (yes no : Option NodeId) :
    numbering.Repeats start startRight (Walk.rewriteBranch visit id cond yes no) := by
  refine (walkExpr cond).bind ?_
  rintro cond _ rfl
  exact behindCond visits id yes no cond

theorem walkLoopBody (body : NodeId) :
    InStep (numbering.SameWalks start startRight) (Walk.walkLoopBody visit body)
      (Walk.walkLoopBody visit body)
      fun answer other => other.1 = answer.1 ∧
        List.Forall₂ numbering.SameScopes answer.2 other.2 := by
  refine arenaHere_bind fun arena other arenas => ?_
  have written : other.variablesWritten body = arena.variablesWritten body :=
    Arena.congr_bare arenas.bare (·.variablesWritten body) (Arena.variablesWritten_bare · body)
  rw [written]
  have around : InStep (numbering.SameWalks start startRight)
      (do Site.forgetAll (arena.variablesWritten body)
          let node ← visit body
          pure (node, ← Analysis.takeExits .byLoop .brk))
      (do Site.forgetAll (arena.variablesWritten body)
          let node ← visit body
          pure (node, ← Analysis.takeExits .byLoop .brk))
      fun answer other => other.1 = answer.1 ∧
        List.Forall₂ numbering.SameScopes answer.2 other.2 := by
    refine (onSite (forgetAll _)).bind fun _ _ _ => (visits body).bind ?_
    rintro node _ rfl
    exact (onAnalysis (takeExits .byLoop .brk)).bind fun _ _ breaks => .pure ⟨rfl, breaks⟩
  exact (inFork "loop" (catching .byLoop around)).bind fun _ _ answers => .pure answers.1

theorem rewriteLoop (id : NodeId) (body : Option NodeId) :
    numbering.Repeats start startRight (Walk.rewriteLoop visit id body) := by
  cases body with
  | none => exact .pure rfl
  | some body =>
    rw [Walk.rewriteLoop_eq]
    refine arenaHere_bind fun arena other arenas => ?_
    have block : other.block? body = arena.block? body :=
      Arena.congr_bare arenas.bare (·.block? body) (Arena.block?_bare · body)
    rw [block]
    split
    · exact .throw (.refl _)
    · refine (walkLoopBody visits body).bind ?_
      rintro ⟨node, breaks⟩ ⟨_, others⟩ ⟨rfl, related⟩
      exact behindBody id _ related

theorem rewriteStmt (id : NodeId) :
    numbering.Repeats start startRight (Walk.rewriteStmt visit id) := by
  refine arenaHere_bind fun arena other arenas => ?_
  have noted {stmt : Stmt} (found : arena.stmt? id = some stmt) : start.noted? id =
      stmt.note?.map (·.1) := by
    rw [← arenas.noted id, Arena.noted?, Arena.note?_of_stmt found]
  rcases Arena.stmt?_of_bare arenas.bare id with
    same | ⟨target, value, made, late, found, foundRight⟩ |
      ⟨target, tolerant, made, late, found, foundRight⟩
  · rw [same]
    cases found : arena.stmt? id with
    | none => exact .throw (.refl _)
    | some stmt =>
      cases stmt with
      | block stmts => exact rewriteBlock visits id stmts
      | assign target value made => exact rewriteAssign (noted found) value
      | delete target tolerant made => exact rewriteDelete (noted found) tolerant
      | release target => exact rewriteRelease id target
      | effect expr => exact rewriteEffect id expr
      | branch cond yes no => exact rewriteBranch visits id cond yes no
      | loop body => exact rewriteLoop visits id body
      | brk => exact rewriteExit id .brk
      | cont => exact rewriteExit id .cont
      | ret value => exact (rewriteResult id value).bind fun _ _ _ => rewriteExit id .ret
  · rw [found, foundRight]
    exact rewriteAssign (noted found) value
  · rw [found, foundRight]
    exact rewriteDelete (noted found) tolerant

end Statements

theorem walkStmtWithin (depth : Nat) (id : NodeId) :
    numbering.Repeats start startRight (Walk.walkStmtWithin depth id) := by
  induction depth generalizing id with
  | zero => exact .throw (.refl _)
  | succ depth ih =>
    refine arenaHere_bind fun arena other arenas => ?_
    have spans : other.span id = arena.span id :=
      Arena.congr_bare arenas.bare (·.span id) (Arena.span_bare · id)
    rw [spans]
    refine located _ ((rewriteStmt ih id).bind ?_)
    rintro answer _ rfl
    exact (notice id answer.edit).bind fun _ _ _ => .pure rfl

theorem walkStmt (id : NodeId) : numbering.Repeats start startRight (Walk.walkStmt id) := by
  refine arenaHere_bind fun arena other arenas => ?_
  have sizes : other.size = arena.size := Arena.congr_bare arenas.bare Arena.size Arena.size_bare
  rw [sizes]
  exact walkStmtWithin _ id

theorem functionExits (node : Option NodeId) {returns others : List Scope}
    (related : List.Forall₂ numbering.SameScopes returns others) :
    InStep (numbering.SameWalks start startRight) (Walk.functionExits node returns)
      (Walk.functionExits node others)
      (List.Forall₂ numbering.SameScopes) := by
  refine arenaHere_bind fun arena other arenas => ?_
  have aborts : other.isAborting = arena.isAborting :=
    funext fun id => Arena.congr_bare arenas.bare (·.isAborting id) (Arena.isAborting_bare · id)
  rw [aborts]
  split
  · exact .pure related
  · exact (onSite scopeHere).bind fun _ _ scopes =>
      .pure (List.rel_append related (.cons (scopes.fork _) .nil))

theorem walkCaught (body : NodeId) :
    InStep (numbering.SameWalks start startRight) (Walk.walkCaught body) (Walk.walkCaught body)
      fun answer other => other.1 = answer.1 ∧
        List.Forall₂ numbering.SameScopes answer.2 other.2 := by
  refine catching _ ((walkStmt body).bind ?_)
  rintro node _ rfl
  exact (onAnalysis (takeExits .byFunction .ret)).bind fun _ _ returns => .pure ⟨rfl, returns⟩

theorem behindFunction (node : Option NodeId) {returns others : List Scope}
    (related : List.Forall₂ numbering.SameScopes returns others) :
    InStep (numbering.SameWalks start startRight) (Walk.behindFunction node returns)
      (Walk.behindFunction node others) Eq := by
  refine (functionExits node related).bind fun exits exitsRight same => ?_
  cases same with
  | nil => exact .pure rfl
  | cons here rest => exact (onSite (join (.cons here rest))).bind fun _ _ _ => .pure rfl

theorem walkFunction (body : NodeId) :
    numbering.Repeats start startRight (Walk.walkFunction body) := by
  rw [Walk.walkFunction_eq]
  refine (walkCaught body).bind ?_
  rintro ⟨node, returns⟩ ⟨_, others⟩ ⟨rfl, related⟩
  exact behindFunction _ related

theorem walkBody (kind : BodyKind) (body : NodeId) :
    numbering.Repeats start startRight (Walk.walkBody kind body) := by
  cases kind with
  | moduleBody => exact walkStmt body
  | functionBody => exact walkFunction body

end Numbering

end ValueFlow
