import ValueFlow.Proofs.WellFormed.Basic

/-!
# Edits of an arena that is laid out

A walk changes an arena in two ways. It exchanges children of a node, and it adds a node in the
place of an old one. Neither spoils a layout: the children that come in are at positions below the
node (`Laid.mapStmt`, `Laid.mapExpr`), and a new node is given the position and the rank of the old
one, which makes the layout larger (`Layout.Extends`, `Laid.push`). What a rewrite leaves in the
place of a node is no higher than the node was, and is reached outside of loops if the node was
(`Layout.Replaces`).
-/

namespace ValueFlow
set_option autoImplicit false

namespace Layout

/-- A position lies below an id, and is reached outside of loops if the id is. -/
structure Child (layout : Layout) (id : NodeId) (class_ : NodeClass) (child : NodeId) : Prop extends layout.Under id class_ child where
  onward : layout.outside id → layout.outside child

/-- A larger layout, with the same to say of the positions in the smaller one. -/
structure Extends (older newer : Layout) : Prop where
  places : ∀ {class_ id}, older.places class_ id → newer.places class_ id
  rank : ∀ {class_ id}, older.places class_ id → newer.rank id = older.rank id
  outside : ∀ {class_ id}, older.places class_ id → (newer.outside id ↔ older.outside id)
  blocks : ∀ {class_ id}, older.places class_ id → (newer.blocks id ↔ older.blocks id)

/-- What a node may be replaced with, in a larger layout. -/
structure Replaces (older newer : Layout) (class_ : NodeClass) (id node : NodeId) : Prop where
  place : newer.places class_ node
  rank : newer.rank node ≤ older.rank id
  outside : older.outside id → newer.outside node
  blocks : older.blocks id → newer.blocks node

variable {older newer newest layout : Layout} {vars newVars : Variables} {class_ : NodeClass}
  {id child other : NodeId} {node : Node}

theorem Extends.refl (layout : Layout) : layout.Extends layout :=
  ⟨id, fun _ => rfl, fun _ => .rfl, fun _ => .rfl⟩

theorem Extends.trans (early : older.Extends newer) (late : newer.Extends newest) :
    older.Extends newest where
  places place := late.places (early.places place)
  rank place := (late.rank (early.places place)).trans (early.rank place)
  outside place := (late.outside (early.places place)).trans (early.outside place)
  blocks place := (late.blocks (early.places place)).trans (early.blocks place)

namespace Replaces

theorem refl (place : layout.places class_ id) : layout.Replaces layout class_ id id :=
  ⟨place, Nat.le_refl _, fun out => out, fun held => held⟩

theorem extend (replaces : older.Replaces newer class_ id other) (late : newer.Extends newest) :
    older.Replaces newest class_ id other where
  place := late.places replaces.place
  rank := (late.rank replaces.place).trans_le replaces.rank
  outside out := (late.outside replaces.place).2 (replaces.outside out)
  blocks held := (late.blocks replaces.place).2 (replaces.blocks held)

/-- What stands for a node in a larger layout stands for it. -/
theorem ofExtends (early : older.Extends newer) (place : older.places class_ id)
    (replaces : newer.Replaces newest class_ id other) :
    older.Replaces newest class_ id other where
  place := replaces.place
  rank := replaces.rank.trans_eq (early.rank place)
  outside out := replaces.outside ((early.outside place).2 out)
  blocks held := replaces.blocks ((early.blocks place).2 held)

end Replaces

theorem Under.extend {above : NodeClass} (under : older.Under id class_ child)
    (place : older.places above id) (early : older.Extends newer) : newer.Under id class_ child :=
  ⟨early.places under.place, by rw [early.rank under.place, early.rank place]; exact under.lower⟩

namespace Child

variable {above : NodeClass} (under : older.Child id class_ child) (place : older.places above id)

include under place

/-- What replaces a child is a child in its turn. -/
theorem replace (early : older.Extends newer) (replaces : older.Replaces newer class_ child other) :
    newer.Child id class_ other where
  place := replaces.place
  lower := by
    rw [early.rank place]
    exact Nat.lt_of_le_of_lt replaces.rank under.lower
  onward out := replaces.outside (under.onward ((early.outside place).1 out))

theorem extend (early : older.Extends newer) : newer.Child id class_ child :=
  under.replace place early ((Replaces.refl under.place).extend early)

omit place in
/-- What is below a child is below. -/
theorem trans {below : NodeClass} (next : older.Child child below other) :
    older.Child id below other :=
  ⟨⟨next.place, Nat.lt_trans next.lower under.lower⟩, fun out => next.onward (under.onward out)⟩

end Child

/-- What stands for a child may stand for the node, unless the node has to be a block. -/
theorem Replaces.ofChild (under : older.Child id class_ child) (noBlock : ¬ older.blocks id)
    (replaces : older.Replaces newer class_ child other) :
    older.Replaces newer class_ id other where
  place := replaces.place
  rank := Nat.le_of_lt (Nat.lt_of_le_of_lt replaces.rank under.lower)
  outside out := replaces.outside (under.onward out)
  blocks held := absurd held noBlock

namespace Admits

/-- The children of a node that is no loop are reached as the node is. -/
theorem isChild (admits : layout.Admits vars id node) (flat : node.isLoop = false)
    {place : NodeClass × NodeId} (mem : place ∈ node.below) :
    layout.Child id place.1 place.2 :=
  ⟨admits.below place mem, fun out => admits.onward out flat place mem⟩

theorem extend (admits : older.Admits vars id node) (place : older.places class_ id)
    (early : older.Extends newer) (known : ∀ var, vars.Knows var → newVars.Knows var) :
    newer.Admits newVars id node where
  below inner mem := (admits.below inner mem).extend place early
  onward out flat inner mem := (early.outside (admits.below inner mem).place).2
    (admits.onward ((early.outside place).1 out) flat inner mem)
  exits out := admits.exits ((early.outside place).1 out)
  bodies inner mem :=
    (early.blocks (admits.below (.stmt, inner) (Node.mem_below_of_body? mem)).place).2
      (admits.bodies inner mem)
  registered var mem := known var (admits.registered var mem)

/-- A statement that is no loop and leaves none, over children. -/
theorem ofStmt {stmt : Stmt} (children : ∀ child ∈ stmt.children, layout.Child id .stmt child)
    (operands : ∀ operand ∈ stmt.operands, layout.Child id .expr operand)
    (registered : ∀ var ∈ (Node.stmt stmt).named, vars.Knows var)
    (stays : (Node.stmt stmt).leavesRound = false) (noBody : (Node.stmt stmt).body? = none) :
    layout.Admits vars id (.stmt stmt) := by
  have child : ∀ place ∈ (Node.stmt stmt).below, layout.Child id place.1 place.2 := by
    intro place mem
    rcases List.mem_append.1 mem with mem | mem
    · obtain ⟨child, held, rfl⟩ := List.mem_map.1 mem
      exact children child held
    · obtain ⟨operand, held, rfl⟩ := List.mem_map.1 mem
      exact operands operand held
  exact ⟨fun place mem => (child place mem).toUnder, fun out _ place mem =>
    (child place mem).onward out, fun _ => stays, by simp [noBody], registered⟩

theorem ofExpr {expr : Expr} (operands : ∀ operand ∈ expr.operands, layout.Child id .expr operand)
    (registered : ∀ var ∈ (Node.expr expr).named, vars.Knows var) :
    layout.Admits vars id (.expr expr) := by
  have child : ∀ place ∈ (Node.expr expr).below, layout.Child id place.1 place.2 := by
    intro place mem
    obtain ⟨operand, held, rfl⟩ := List.mem_map.1 mem
    exact operands operand held
  exact ⟨fun place mem => (child place mem).toUnder,
    fun out _ place mem => (child place mem).onward out, fun _ => rfl, nofun, registered⟩

section With

variable {stmt : Stmt} {expr : Expr}

theorem withStmts {stmts : List NodeId} (admits : layout.Admits vars id (.stmt stmt))
    (children : ∀ child ∈ stmts, layout.Child id .stmt child) :
    layout.Admits vars id (.stmt (stmt.withStmts stmts)) := by
  cases stmt with
  | block old => exact .ofStmt children nofun admits.registered rfl rfl
  | _ => exact admits

theorem withBound {value : NodeId} (admits : layout.Admits vars id (.stmt stmt))
    (under : layout.Child id .expr value) (version : Version) :
    layout.Admits vars id (.stmt (stmt.withBound value version)) := by
  cases stmt with
  | assign =>
    exact .ofStmt nofun (by simpa [Stmt.withBound, Stmt.operands] using under)
      admits.registered rfl rfl
  | _ => exact admits

theorem withDeleted (admits : layout.Admits vars id (.stmt stmt)) (version : Option Version) :
    layout.Admits vars id (.stmt (stmt.withDeleted version)) := by
  cases stmt with
  | delete => exact .ofStmt nofun nofun admits.registered rfl rfl
  | _ => exact admits

theorem withEffect {operand : NodeId} (admits : layout.Admits vars id (.stmt stmt))
    (under : layout.Child id .expr operand) :
    layout.Admits vars id (.stmt (stmt.withEffect operand)) := by
  cases stmt with
  | effect =>
    exact .ofStmt nofun (by simpa [Stmt.withEffect, Stmt.operands] using under)
      admits.registered rfl rfl
  | _ => exact admits

theorem withArms {cond : NodeId} {yes no : Option NodeId}
    (admits : layout.Admits vars id (.stmt stmt)) (under : layout.Child id .expr cond)
    (underYes : ∀ node ∈ yes, layout.Child id .stmt node)
    (underNo : ∀ node ∈ no, layout.Child id .stmt node) :
    layout.Admits vars id (.stmt (stmt.withArms cond yes no)) := by
  cases stmt with
  | branch =>
    refine .ofStmt (fun child mem => ?_) (by simpa [Stmt.withArms, Stmt.operands] using under)
      admits.registered rfl rfl
    rcases List.mem_append.1 mem with left | right
    · exact underYes child (Option.mem_toList.1 left)
    · exact underNo child (Option.mem_toList.1 right)
  | _ => exact admits

theorem withBody {body : Option NodeId} (admits : layout.Admits vars id (.stmt stmt))
    (under : ∀ node ∈ body, layout.Under id .stmt node ∧ layout.blocks node) :
    layout.Admits vars id (.stmt (stmt.withBody body)) := by
  cases stmt with
  | loop =>
    refine ⟨fun place mem => ?_, nofun, fun _ => rfl, fun inner mem => (under inner mem).2,
      admits.registered⟩
    obtain ⟨child, held, rfl⟩ := List.mem_map.1 ((List.mem_append.1 mem).resolve_right nofun)
    exact (under child (Option.mem_toList.1 held)).1
  | _ => exact admits

theorem withResult {value : NodeId} (admits : layout.Admits vars id (.stmt stmt))
    (under : layout.Child id .expr value) :
    layout.Admits vars id (.stmt (stmt.withResult value)) := by
  cases stmt with
  | ret =>
    exact .ofStmt nofun (by simpa [Stmt.withResult, Stmt.operands] using under)
      admits.registered rfl rfl
  | _ => exact admits

theorem withSeen (admits : layout.Admits vars id (.expr expr)) (version : Version) :
    layout.Admits vars id (.expr (expr.withSeen version)) := by
  cases expr with
  | read => exact .ofExpr nofun admits.registered
  | _ => exact admits

theorem withCall {callee : NodeId} {args : List NodeId}
    (admits : layout.Admits vars id (.expr expr)) (under : layout.Child id .expr callee)
    (underArgs : ∀ arg ∈ args, layout.Child id .expr arg) :
    layout.Admits vars id (.expr (expr.withCall callee args)) := by
  cases expr with
  | call =>
    exact .ofExpr (by simpa [Expr.withCall, Expr.operands] using ⟨under, underArgs⟩)
      admits.registered
  | _ => exact admits

theorem withSource {source : NodeId} (admits : layout.Admits vars id (.expr expr))
    (under : layout.Child id .expr source) :
    layout.Admits vars id (.expr (expr.withSource source)) := by
  cases expr with
  | eval => exact .ofExpr (by simpa [Expr.withSource, Expr.operands] using under) admits.registered
  | _ => exact admits

end With

end Admits

end Layout

namespace Arena.Laid

variable {arena : Arena} {vars newVars : Variables} {layout : Layout} {class_ : NodeClass}
  {id : NodeId}

theorem advance (laid : arena.Laid vars layout)
    (known : ∀ var, vars.Knows var → newVars.Knows var) : arena.Laid newVars layout where
  node class_ id place := by
    obtain ⟨node, found, same, admits⟩ := laid.node class_ id place
    exact ⟨node, found, same, admits.extend place (.refl _) known⟩
  blocks := laid.blocks
  room := laid.room

/-- A statement is exchanged for one that may stand in its place, and a block for a block. -/
theorem mapStmt (laid : arena.Laid vars layout) {edit : Stmt → Stmt}
    (blocks : ∀ stmt, (Node.stmt (edit stmt)).isBlock = (Node.stmt stmt).isBlock)
    (admits : ∀ stmt, layout.Admits vars id (.stmt stmt) →
      layout.Admits vars id (.stmt (edit stmt))) :
    (arena.mapStmt id edit).Laid vars layout where
  node class_ other place := by
    obtain ⟨node, found, same, held⟩ := laid.node class_ other place
    rw [node?_mapStmt]
    split
    · rename_i here
      subst here
      cases node with
      | stmt stmt =>
        refine ⟨.stmt (edit stmt), ?_, same, admits stmt held⟩
        rw [stmt?_eq_some.2 found]
        rfl
      | expr expr =>
        refine ⟨.expr expr, ?_, same, held⟩
        rw [stmt?_of_expr? (expr?_eq_some.2 found), found]
        rfl
    · exact ⟨node, found, same, held⟩
  blocks other held := by
    obtain ⟨stmts, found⟩ := Option.isSome_iff_exists.1 (laid.blocks other held)
    rw [block?_eq_some] at found
    by_cases here : other = id
    · subst here
      have isBlock := blocks (.block stmts)
      unfold block?
      rw [stmt?_mapStmt_self found]
      revert isBlock
      cases edit (.block stmts) <;> simp [Node.isBlock]
    · unfold block?
      rw [stmt?_mapStmt, if_neg here, found]
      rfl
  room class_ other place := by
    rw [size_mapStmt]
    exact laid.room class_ other place

theorem mapExpr (laid : arena.Laid vars layout) {edit : Expr → Expr}
    (admits : ∀ expr, layout.Admits vars id (.expr expr) →
      layout.Admits vars id (.expr (edit expr))) :
    (arena.mapExpr id edit).Laid vars layout where
  node class_ other place := by
    obtain ⟨node, found, same, held⟩ := laid.node class_ other place
    rw [node?_mapExpr]
    split
    · rename_i here
      subst here
      cases node with
      | expr expr =>
        refine ⟨.expr (edit expr), ?_, same, admits expr held⟩
        rw [expr?_eq_some.2 found]
        rfl
      | stmt stmt =>
        refine ⟨.stmt stmt, ?_, same, held⟩
        rw [expr?_of_stmt? (stmt?_eq_some.2 found), found]
        rfl
    · exact ⟨node, found, same, held⟩
  blocks other held := by
    unfold block?
    rw [stmt?_mapExpr]
    exact laid.blocks other held
  room class_ other place := by
    rw [size_mapExpr]
    exact laid.room class_ other place

/-- A new node takes over the position and the rank of an old one in whose place it may stand. -/
theorem push (laid : arena.Laid vars layout) {node : Node} (span : Span)
    (place : layout.places node.class_ id) (admits : layout.Admits vars id node)
    (noBlock : ¬ layout.blocks id) :
    ∃ newer, layout.Extends newer ∧ (arena.push node span).Laid vars newer ∧
      layout.Replaces newer node.class_ id arena.size := by
  let newer : Layout := {
    places := fun class_ other => layout.places class_ other ∨ class_ = node.class_ ∧
      other = arena.size
    rank := fun other => if other = arena.size then layout.rank id else layout.rank other
    outside := fun other => if other = arena.size then layout.outside id else layout.outside other
    blocks := layout.blocks }
  have apart {class_ : NodeClass} {other : NodeId} (place : layout.places class_ other) : other ≠
      arena.size := Nat.ne_of_lt (laid.lt_size place)
  have early : layout.Extends newer := {
    places := .inl
    rank := fun place => if_neg (apart place)
    outside := fun place => by simp only [newer, if_neg (apart place)]
    blocks := fun _ => .rfl }
  have replaces : layout.Replaces newer node.class_ id arena.size := {
    place := .inr ⟨rfl, rfl⟩
    rank := by simp [newer]
    outside := by simp [newer]
    blocks := fun held => absurd held noBlock }
  refine ⟨newer, early, ⟨?_, ?_, ?_⟩, replaces⟩
  · intro class_ other place
    rw [node?_push]
    by_cases last : other = arena.size
    · subst last
      obtain ⟨rfl, -⟩ := place.resolve_left fun place => apart place rfl
      refine ⟨node, if_pos rfl, rfl, fun inner mem => ⟨.inl (admits.below inner mem).place, ?_⟩,
        fun out flat inner mem => ?_, fun out => admits.exits (by simpa [newer] using out),
        admits.bodies, admits.registered⟩
      · have lower := (admits.below inner mem).lower
        simpa [newer, apart (admits.below inner mem).place] using lower
      · have onward := admits.onward (by simpa [newer] using out) flat inner mem
        simpa [newer, apart (admits.below inner mem).place] using onward
    · have old := place.resolve_right fun new => last new.2
      obtain ⟨held, found, same, admitted⟩ := laid.node class_ other old
      exact ⟨held, by rw [if_neg last]; exact found, same,
        admitted.extend old early fun _ known => known⟩
  · intro other held
    have old := laid.blocks other held
    have inside : other ≠ arena.size := by
      obtain ⟨stmts, found⟩ := Option.isSome_iff_exists.1 old
      exact Nat.ne_of_lt (lt_size_of_stmt? (block?_eq_some.1 found))
    unfold block? at old ⊢
    rw [stmt?_push, if_neg inside]
    exact old
  · intro class_ other place
    rw [size_push]
    by_cases last : other = arena.size
    · simpa [newer, last] using Nat.le_succ_of_le (laid.room _ _ ‹layout.places node.class_ id›)
    · have old := place.resolve_right fun new => last new.2
      simpa [newer, last] using Nat.le_succ_of_le (laid.room _ _ old)

end Arena.Laid

end ValueFlow
