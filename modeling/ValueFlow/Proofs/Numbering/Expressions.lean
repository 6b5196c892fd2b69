import ValueFlow.Proofs.Arena.Writes
import ValueFlow.Proofs.Discipline.Walk
import ValueFlow.Proofs.Numbering.Sites

/-!
# Walks of expressions under other numbers

The walk of an expression answers alike from walks that are the same but for the numbers of versions
and for the notes from before (`Numbering.Repeats`). A rewrite either keeps the note of the node
that it edits or renews it, and then by versions that correspond.
-/

namespace ValueFlow
set_option autoImplicit false

/-- The version that is noted in a statement, with the variable that it is one of. -/
abbrev Stmt.note? (stmt : Stmt) : Option (VarId × Option Version) := (Node.stmt stmt).note?

/-- The version that is noted in an expression, with the variable that it is one of. -/
abbrev Expr.note? (expr : Expr) : Option (VarId × Option Version) := (Node.expr expr).note?

namespace Arena

variable (arena : Arena)

theorem note?_push (node : Node) (span : Span) (id : NodeId) :
    (arena.push node span).note? id = if id = arena.size then node.note? else arena.note? id := by
  unfold note?
  rw [node?_push]
  split <;> rfl

theorem note?_size : arena.note? arena.size = none := by
  simp [note?, node?, size]

theorem note?_mapStmt (id other : NodeId) (edit : Stmt → Stmt) :
    (arena.mapStmt id edit).note? other =
    if other = id then
      (match arena.stmt? id with | some stmt => (edit stmt).note? | none => arena.note? id) else
      arena.note? other := by
  unfold note?
  rw [node?_mapStmt]
  split
  · cases arena.stmt? id <;> rfl
  · rfl

theorem note?_mapExpr (id other : NodeId) (edit : Expr → Expr) :
    (arena.mapExpr id edit).note? other =
    if other = id then
      (match arena.expr? id with | some expr => (edit expr).note? | none => arena.note? id) else
      arena.note? other := by
  unfold note?
  rw [node?_mapExpr]
  split
  · cases arena.expr? id <;> rfl
  · rfl

variable {arena} {id : NodeId}

theorem note?_of_stmt {stmt : Stmt} (found : arena.stmt? id = some stmt) :
    arena.note? id = stmt.note? := by
  rw [note?, stmt?_eq_some.1 found]
  rfl

theorem note?_of_expr {expr : Expr} (found : arena.expr? id = some expr) :
    arena.note? id = expr.note? := by
  rw [note?, expr?_eq_some.1 found]
  rfl

end Arena

namespace Numbering

variable {numbering : Numbering} {start startRight left right : Arena}

namespace SameArenas

variable (arenas : numbering.SameArenas start startRight left right)
include arenas

/-- An edit at one node keeps its note on both sides, or renews it on both. -/
theorem edit (id : NodeId) {edited editedRight : Arena} (bare : edited.bare = editedRight.bare)
    (beside : ∀ other, other ≠ id → edited.note? other = left.note? other ∧
      editedRight.note? other = right.note? other)
    (noted : edited.noted? id = left.noted? id)
    (notes : edited.note? id = left.note? id ∧ editedRight.note? id = right.note? id ∨
      numbering.SameNotes (edited.note? id) (editedRight.note? id)) :
    numbering.SameArenas start startRight edited editedRight where
  bare := bare
  noted asked := by
    rw [← arenas.noted asked]
    by_cases here : asked = id
    · exact here ▸ noted
    · rw [Arena.noted?, Arena.noted?, (beside asked here).1]
  notes asked := by
    have kept (same : edited.note? asked = left.note? asked ∧
        editedRight.note? asked = right.note? asked) :
        edited.note? asked = start.note? asked ∧ editedRight.note? asked = startRight.note? asked ∨
          numbering.SameNotes (edited.note? asked) (editedRight.note? asked) := by
      rw [same.1, same.2]
      exact arenas.notes asked
    by_cases here : asked = id
    · subst here
      exact notes.elim kept .inr
    · exact kept (beside asked here)

/-- A new node without a note leaves all notes as they are. -/
theorem push {node : Node} (span : Span) (plain : node.note? = none) :
    numbering.SameArenas start startRight (left.push node span) (right.push node span) := by
  have sizes : right.size = left.size := Arena.congr_bare arenas.bare Arena.size Arena.size_bare
  have bare : (left.push node span).bare = (right.push node span).bare := by
    rw [Arena.bare_push, Arena.bare_push, arenas.bare]
  have new : (left.push node span).note? left.size = left.note? left.size := by
    rw [Arena.note?_push, if_pos rfl, plain, left.note?_size]
  have newRight : (right.push node span).note? left.size = right.note? left.size := by
    rw [← sizes, Arena.note?_push, if_pos rfl, plain, right.note?_size]
  refine arenas.edit left.size bare (fun other apart => ?_) (congrArg _ new) (.inl ⟨new, newRight⟩)
  rw [Arena.note?_push, Arena.note?_push, if_neg apart, if_neg (sizes ▸ apart)]
  exact ⟨rfl, rfl⟩

/-- An edit of a statement keeps its note on both sides, or renews it on both. -/
theorem mapStmt (id : NodeId) {edit editRight : Stmt → Stmt} (shape : Stmt → Stmt)
    (bare : ∀ stmt, (edit stmt).bare = shape stmt.bare)
    (bareRight : ∀ stmt, (editRight stmt).bare = shape stmt.bare)
    (noted : ∀ stmt, (edit stmt).note?.map (·.1) = stmt.note?.map (·.1))
    (notes : ∀ {stmt other : Stmt}, stmt.bare = other.bare →
      stmt.note?.map (·.1) = start.noted? id → (edit stmt).note? = stmt.note? ∧
      (editRight other).note? = other.note? ∨ numbering.SameNotes (edit stmt).note?
      (editRight other).note?) :
    numbering.SameArenas start startRight (left.mapStmt id edit) (right.mapStmt id editRight) := by
  refine arenas.edit id (Arena.bare_mapStmt_congr arenas.bare bare bareRight)
    (fun other apart => ?_) ?_ ?_
  · rw [Arena.note?_mapStmt, Arena.note?_mapStmt, if_neg apart, if_neg apart]
    exact ⟨rfl, rfl⟩
  · rw [Arena.noted?, Arena.noted?, Arena.note?_mapStmt, if_pos rfl]
    cases found : left.stmt? id with
    | none => rfl
    | some stmt => rw [Arena.note?_of_stmt found, noted stmt]
  · have same : (left.stmt? id).map Stmt.bare = (right.stmt? id).map Stmt.bare := by
      rw [← Arena.stmt?_bare, arenas.bare, Arena.stmt?_bare]
    rw [Arena.note?_mapStmt, Arena.note?_mapStmt, if_pos rfl, if_pos rfl]
    cases found : left.stmt? id with
    | none =>
      rw [found] at same
      rw [Option.map_eq_none_iff.1 same.symm]
      exact .inl ⟨rfl, rfl⟩
    | some stmt =>
      rw [found] at same
      obtain ⟨other, foundRight, alike⟩ := Option.map_eq_some_iff.1 same.symm
      rw [foundRight, Arena.note?_of_stmt found, Arena.note?_of_stmt foundRight]
      exact notes alike.symm (Arena.note?_of_stmt found ▸ arenas.noted id)

/-- An edit of an expression keeps its note on both sides, or renews it on both. -/
theorem mapExpr (id : NodeId) {edit editRight : Expr → Expr} (shape : Expr → Expr)
    (bare : ∀ expr, (edit expr).bare = shape expr.bare)
    (bareRight : ∀ expr, (editRight expr).bare = shape expr.bare)
    (noted : ∀ expr, (edit expr).note?.map (·.1) = expr.note?.map (·.1))
    (notes : ∀ {expr other : Expr}, expr.bare = other.bare →
      expr.note?.map (·.1) = start.noted? id → (edit expr).note? = expr.note? ∧
      (editRight other).note? = other.note? ∨ numbering.SameNotes (edit expr).note?
      (editRight other).note?) :
    numbering.SameArenas start startRight (left.mapExpr id edit) (right.mapExpr id editRight) := by
  refine arenas.edit id (Arena.bare_mapExpr_congr arenas.bare bare bareRight)
    (fun other apart => ?_) ?_ ?_
  · rw [Arena.note?_mapExpr, Arena.note?_mapExpr, if_neg apart, if_neg apart]
    exact ⟨rfl, rfl⟩
  · rw [Arena.noted?, Arena.noted?, Arena.note?_mapExpr, if_pos rfl]
    cases found : left.expr? id with
    | none => rfl
    | some expr => rw [Arena.note?_of_expr found, noted expr]
  · have same : (left.expr? id).map Expr.bare = (right.expr? id).map Expr.bare := by
      rw [← Arena.expr?_bare, arenas.bare, Arena.expr?_bare]
    rw [Arena.note?_mapExpr, Arena.note?_mapExpr, if_pos rfl, if_pos rfl]
    cases found : left.expr? id with
    | none =>
      rw [found] at same
      rw [Option.map_eq_none_iff.1 same.symm]
      exact .inl ⟨rfl, rfl⟩
    | some expr =>
      rw [found] at same
      obtain ⟨other, foundRight, alike⟩ := Option.map_eq_some_iff.1 same.symm
      rw [foundRight, Arena.note?_of_expr found, Arena.note?_of_expr foundRight]
      exact notes alike.symm (Arena.note?_of_expr found ▸ arenas.noted id)

end SameArenas

section Walks

variable {α β : Type} {same : α → β → Prop} {first : WalkM α} {second : WalkM β}

/-- Operations at the scope are operations of the walk. -/
theorem onSite {first : SiteM α} {second : SiteM β}
    (inStep : InStep numbering.SameSites first second same) :
    InStep (numbering.SameWalks start startRight) (liftM first : WalkM α)
      (liftM second : WalkM β) same :=
  inStep.focus (·.sites) fun walks sites => ⟨sites, walks.arenas⟩

/-- Operations on the state are operations of the walk. -/
theorem onAnalysis {first : AnalysisM α} {second : AnalysisM β}
    (inStep : InStep numbering.SameStates first second same) :
    InStep (numbering.SameWalks start startRight) (liftM first : WalkM α)
      (liftM second : WalkM β) same := onSite (onState inStep)

/-- What is done next may depend on what is common to both arenas. -/
theorem arenaHere_bind {next nextRight : Arena → WalkM α} {same : α → α → Prop}
    (rest : ∀ arena other : Arena, numbering.SameArenas start startRight arena other →
      InStep (numbering.SameWalks start startRight) (next arena) (nextRight other) same) :
    InStep (numbering.SameWalks start startRight) (Walk.arenaHere >>= next)
      (Walk.arenaHere >>= nextRight) same :=
  .get_bind fun _ _ walks => rest _ _ walks.arenas

/-- A part of the walk in a fork of the scope. The forks correspond where the part ends well. -/
theorem inFork (label : String)
    (inStep : InStep (numbering.SameWalks start startRight) first second same) :
    InStep (numbering.SameWalks start startRight) (Walk.inFork label first)
      (Walk.inFork label second)
      fun answer other => same answer.1 other.1 ∧ numbering.SameScopes answer.2 other.2 := by
  intro left right walks
  have ends := inStep { left with scope := left.scope.fork label }
    { right with scope := right.scope.fork label }
    { walks with sites := ⟨walks.sites.scope.fork label, walks.sites.state⟩ }
  simp only [Walk.inFork]
  revert ends
  cases first { left with scope := left.scope.fork label } <;> cases second
    { right with scope := right.scope.fork label } <;> intro ends
  · exact ⟨⟨ends.1, ends.2.sites.scope⟩, ⟨walks.sites.scope, ends.2.sites.state⟩, ends.2.arenas⟩
  · exact ends
  · exact ends
  · exact ⟨ends.1, ⟨walks.sites.scope, ends.2.sites.state⟩, ends.2.arenas⟩

/-- A part of the walk with registries of its own. -/
theorem catching (caught : Catch)
    (inStep : InStep (numbering.SameWalks start startRight) first second same) :
    InStep (numbering.SameWalks start startRight) (Walk.catching caught first)
      (Walk.catching caught second) same := by
  intro left right walks
  have state := walks.sites.state
  have entered (kind : ExitKind) : Option.Rel (List.Forall₂ numbering.SameScopes)
      ((left.analysis.exits.enter caught).get kind)
      ((right.analysis.exits.enter caught).get kind) := by
    rw [Exits.get_enter, Exits.get_enter]
    split
    · exact .some .nil
    · exact state.exits kind
  have leaves {leftAfter rightAfter : Walk}
      (after : numbering.SameWalks start startRight leftAfter rightAfter) :
      numbering.SameWalks start startRight (leftAfter.leaveRegistries caught left.analysis.exits)
        (rightAfter.leaveRegistries caught right.analysis.exits) := by
    refine ⟨⟨after.sites.scope, { after.sites.state with exits := fun kind => ?_ }⟩, after.arenas⟩
    dsimp only [Walk.leaveRegistries]
    rw [Exits.get_leave, Exits.get_leave]
    split
    · exact state.exits kind
    · exact after.sites.state.exits kind
  have ends :=
    inStep
      { left with analysis := { left.analysis with exits := left.analysis.exits.enter caught } }
      { right with analysis := { right.analysis with exits := right.analysis.exits.enter caught } }
      { walks with sites := ⟨walks.sites.scope, { state with exits := entered }⟩ }
  simp only [Walk.catching]
  revert ends
  cases first
    { left with analysis := { left.analysis with exits := left.analysis.exits.enter caught } } <;>
    cases second
    { right with analysis := { right.analysis with
        exits := right.analysis.exits.enter caught } } <;> intro ends
  · exact ⟨ends.1, leaves ends.2⟩
  · exact ends
  · exact ends
  · exact ⟨ends.1, leaves ends.2⟩

theorem located (span : Span)
    (inStep : InStep (numbering.SameWalks start startRight) first second same) :
    InStep (numbering.SameWalks start startRight) (Walk.located span first)
      (Walk.located span second) same := by
  intro left right walks
  have ends := inStep left right walks
  simp only [Walk.located]
  revert ends
  cases first left <;> cases second right <;> intro ends
  · exact ends
  · exact ends
  · exact ends
  · exact ⟨ends.1.within span, ends.2⟩

end Walks

/-- The computation is in step with itself, with the same answer. -/
abbrev Repeats {α : Type} (numbering : Numbering) (start startRight : Arena) (act : WalkM α) : Prop :=
  InStep (numbering.SameWalks start startRight) act act Eq

section Edits

theorem editStmt (id : NodeId) {edit editRight : Stmt → Stmt} (shape : Stmt → Stmt)
    (bare : ∀ stmt, (edit stmt).bare = shape stmt.bare)
    (bareRight : ∀ stmt, (editRight stmt).bare = shape stmt.bare)
    (noted : ∀ stmt, (edit stmt).note?.map (·.1) = stmt.note?.map (·.1))
    (notes : ∀ {stmt other : Stmt}, stmt.bare = other.bare →
      stmt.note?.map (·.1) = start.noted? id → (edit stmt).note? = stmt.note? ∧
      (editRight other).note? = other.note? ∨ numbering.SameNotes (edit stmt).note?
      (editRight other).note?) :
    InStep (numbering.SameWalks start startRight) (Walk.editStmt id edit)
      (Walk.editStmt id editRight) fun _ _ => True :=
  .modify fun _ _ walks =>
    { walks with arenas := walks.arenas.mapStmt id shape bare bareRight noted notes }

/-- An edit that does not touch notes. -/
theorem editStmt_same (id : NodeId) {edit : Stmt → Stmt}
    (bare : ∀ stmt, (edit stmt).bare = edit stmt.bare)
    (keeps : ∀ stmt, (edit stmt).note? = stmt.note?) :
    InStep (numbering.SameWalks start startRight) (Walk.editStmt id edit) (Walk.editStmt id edit)
      fun _ _ => True :=
  editStmt id edit bare bare (fun stmt => by rw [keeps]) fun _ _ => .inl ⟨keeps _, keeps _⟩

theorem editExpr (id : NodeId) {edit editRight : Expr → Expr} (shape : Expr → Expr)
    (bare : ∀ expr, (edit expr).bare = shape expr.bare)
    (bareRight : ∀ expr, (editRight expr).bare = shape expr.bare)
    (noted : ∀ expr, (edit expr).note?.map (·.1) = expr.note?.map (·.1))
    (notes : ∀ {expr other : Expr}, expr.bare = other.bare →
      expr.note?.map (·.1) = start.noted? id → (edit expr).note? = expr.note? ∧
      (editRight other).note? = other.note? ∨ numbering.SameNotes (edit expr).note?
      (editRight other).note?) :
    InStep (numbering.SameWalks start startRight) (Walk.editExpr id edit)
      (Walk.editExpr id editRight) fun _ _ => True :=
  .modify fun _ _ walks =>
    { walks with arenas := walks.arenas.mapExpr id shape bare bareRight noted notes }

/-- An edit that does not touch notes. -/
theorem editExpr_same (id : NodeId) {edit : Expr → Expr}
    (bare : ∀ expr, (edit expr).bare = edit expr.bare)
    (keeps : ∀ expr, (edit expr).note? = expr.note?) :
    InStep (numbering.SameWalks start startRight) (Walk.editExpr id edit) (Walk.editExpr id edit)
      fun _ _ => True :=
  editExpr id edit bare bare (fun expr => by rw [keeps]) fun _ _ => .inl ⟨keeps _, keeps _⟩

/-- The versions that a read sees on the two sides are noted. -/
theorem editExpr_seen {id : NodeId} {var : VarId} (noted : start.noted? id = some var)
    {version other : Version} (same : numbering.Same var version other) :
    InStep (numbering.SameWalks start startRight) (Walk.editExpr id (.withSeen version))
      (Walk.editExpr id (.withSeen other)) fun _ _ => True := by
  refine editExpr id (fun expr => expr) (fun expr => expr.bare_withSeen version)
    (fun expr => expr.bare_withSeen other) (fun expr => by cases expr <;> rfl)
    fun {expr image} bare about => ?_
  rcases Expr.eq_of_bare bare with rfl | ⟨_, _, _, rfl, rfl⟩
  · cases image with
    | read asked seen =>
      obtain rfl := Option.some.inj (about.trans noted)
      exact .inr ⟨_, _, _, rfl, rfl, .some same⟩
    | _ => exact .inl ⟨rfl, rfl⟩
  · obtain rfl := Option.some.inj (about.trans noted)
    exact .inr ⟨_, _, _, rfl, rfl, .some same⟩

theorem pushLike (old : NodeId) {node : Node} (plain : node.note? = none) :
    numbering.Repeats start startRight (Walk.pushLike old node) := by
  refine arenaHere_bind fun arena other arenas => ?_
  have sizes : other.size = arena.size := Arena.congr_bare arenas.bare Arena.size Arena.size_bare
  have spans : other.span old = arena.span old :=
    Arena.congr_bare arenas.bare (·.span old) (Arena.span_bare · old)
  rw [sizes, spans]
  exact (InStep.modify fun _ _ walks => { walks with arenas := arenas.push _ plain }).bind
    fun _ _ _ => .pure rfl

theorem notice (id : NodeId) (edit : Option Edit) :
    InStep (numbering.SameWalks start startRight) (Walk.signal id edit) (Walk.signal id edit)
      fun _ _ => True := by
  cases edit with
  | none => exact .pure trivial
  | some edit =>
    refine arenaHere_bind fun arena other arenas => ?_
    have spans : other.span id = arena.span id :=
      Arena.congr_bare arenas.bare (·.span id) (Arena.span_bare · id)
    rw [spans]
    exact onAnalysis (signal edit _)

end Edits

section Expressions

theorem fallback_bind {α : Type} (var : VarId) {next : Option VarId → WalkM α}
    (rest : ∀ other, numbering.Repeats start startRight (next other)) :
    numbering.Repeats start startRight (Walk.fallback? var >>= next) := by
  refine .get_bind fun left right walks => ?_
  have held := walks.sites.state.vars var
  have same : (right.analysis.vars.get? var >>= (·.storage.fallback?)) =
      (left.analysis.vars.get? var >>= (·.storage.fallback?)) := by
    revert held
    generalize left.analysis.vars.get? var = slot
    generalize right.analysis.vars.get? var = image
    intro held
    cases held with
    | none => rfl
    | some slots => exact congrArg Storage.fallback? slots.storage
  rw [same]
  exact rest _

theorem countRead (id : NodeId) : numbering.Repeats start startRight (Walk.countRead id) := by
  refine arenaHere_bind fun arena other arenas => ?_
  have notes (var : VarId) : numbering.Repeats start startRight
      (liftM (Site.read var) : WalkM Unit) := (onSite (read var)).mono fun _ _ _ => rfl
  have reads {next : Option VarId → WalkM Unit} (var : VarId)
      (absent : numbering.Repeats start startRight (next none))
      (present : ∀ other, numbering.Repeats start startRight (next (some other))) :
        numbering.Repeats start startRight (do
        Site.read var
        next (← Walk.fallback? var)) :=
    (notes var).bind fun _ _ _ => fallback_bind var fun other => other.rec absent present
  rcases Arena.expr?_of_bare arenas.bare id with same | ⟨var, seen, late, found, foundRight⟩
  · rw [same]
    cases arena.expr? id with
    | none => exact .pure rfl
    | some expr =>
      cases expr with
      | read var seen => exact reads var (.pure rfl) notes
      | _ => exact .pure rfl
  · rw [found, foundRight]
    exact reads var (.pure rfl) notes

theorem rewriteBuiltin (id : NodeId) (name : String) :
    numbering.Repeats start startRight (Walk.rewriteBuiltin id name) := by
  refine .get_bind fun left right walks => ?_
  rw [walks.sites.state.options]
  cases builtinValue? left.analysis.options name with
  | none => exact .pure rfl
  | some value => exact (pushLike id rfl).bind fun _ _ same => .pure (by rw [same])

theorem forgetsAll :
    InStep (numbering.SameWalks start startRight) (liftM Site.escapeAll : WalkM Unit)
      (liftM Site.escapeAll : WalkM Unit)
    fun _ _ => True := onSite escapeAll

section Operands

variable {visit : NodeId → WalkM NodeId}
  (visits : ∀ id, numbering.Repeats start startRight (visit id)) (id : NodeId)
include visits

theorem rewriteCall (callee : NodeId) (args : List NodeId) :
    numbering.Repeats start startRight (Walk.rewriteCall visit id callee args) := by
  refine (visits callee).bind ?_
  rintro callee _ rfl
  refine (InStep.mapM_same visits).bind ?_
  rintro args _ rfl
  refine (editExpr_same id (fun expr => expr.bare_withCall callee args)
    fun expr => by cases expr <;> rfl).bind fun _ _ _ => ?_
  exact forgetsAll.bind fun _ _ _ => .pure rfl

theorem rewriteEval (source : NodeId) :
    numbering.Repeats start startRight (Walk.rewriteEval visit id source) := by
  refine (visits source).bind ?_
  rintro source _ rfl
  refine (editExpr_same id (fun expr => expr.bare_withSource source)
    fun expr => by cases expr <;> rfl).bind fun _ _ _ => ?_
  exact (onAnalysis assumeDynamicNames).bind fun _ _ _ => forgetsAll.bind fun _ _ _ => .pure rfl

theorem rewriteExpr : numbering.Repeats start startRight (Walk.rewriteExpr visit id) := by
  refine arenaHere_bind fun arena other arenas => ?_
  have reads {var : VarId} {seen : Option Version}
      (found : arena.expr? id = some (.read var seen)) :
      numbering.Repeats start startRight (Walk.rewriteRead id var) := by
    have noted : start.noted? id = some var := by
      rw [← arenas.noted id, Arena.noted?, Arena.note?_of_expr found]
      rfl
    exact (onSite (currentVersion var)).bind fun _ _ same => (editExpr_seen noted same).bind
      fun _ _ _ => .pure rfl
  rcases Arena.expr?_of_bare arenas.bare id with same | ⟨var, seen, late, found, foundRight⟩
  · rw [same]
    cases found : arena.expr? id with
    | none => exact .throw (.refl _)
    | some expr =>
      cases expr with
      | literal value => exact .pure rfl
      | read var seen => exact reads found
      | builtin name => exact rewriteBuiltin id name
      | call callee args => exact rewriteCall visits id callee args
      | eval source => exact rewriteEval visits id source
  · rw [found, foundRight]
    exact reads found

end Operands

theorem walkExprWithin (depth : Nat) (id : NodeId) :
    numbering.Repeats start startRight (Walk.walkExprWithin depth id) := by
  induction depth generalizing id with
  | zero => exact .throw (.refl _)
  | succ depth ih =>
    refine (rewriteExpr ih id).bind ?_
    rintro answer _ rfl
    exact (notice id answer.edit).bind fun _ _ _ => (countRead answer.node).bind
      fun _ _ _ => .pure rfl

theorem walkExpr (id : NodeId) : numbering.Repeats start startRight (Walk.walkExpr id) := by
  refine arenaHere_bind fun arena other arenas => ?_
  have sizes : other.size = arena.size := Arena.congr_bare arenas.bare Arena.size Arena.size_bare
  rw [sizes]
  exact walkExprWithin _ id

end Expressions

end Numbering

end ValueFlow
