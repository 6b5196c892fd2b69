import ValueFlow.Arena.Completion
import ValueFlow.Proofs.Arena.Writes
import ValueFlow.Proofs.Tree.Code
import ValueFlow.Walk.Loop

/-!
# The tree that an arena shows

At a place in an arena, a node or a row of nodes, stands a tree (`Arena.Shows`). Every id below the
place is in range, and a node of the wrong class is a hole. An arena shows no tree where nodes lie
below themselves.

If no node is reached twice, the ids of the tree are distinct, so there are no more of them than
nodes in the arena. That is deep enough for the questions that a walk asks of the arena, which go no
further down, and their answers are those that the tree gives.
-/

namespace ValueFlow
set_option autoImplicit false

/-- The class of nodes that a place demands. -/
inductive NodeClass where
  | expr
  | stmt
deriving DecidableEq, Repr

/-- Where code may stand: one node, a row of nodes, or a node that may be absent. -/
inductive Place where
  | one (class_ : NodeClass) (id : NodeId)
  | row (class_ : NodeClass) (ids : List NodeId)
  | maybe (class_ : NodeClass) (id : Option NodeId)
deriving DecidableEq, Repr

/-- The nodes of a place of this class, if it is the class of statements. -/
def NodeClass.keep : NodeClass → List NodeId → List NodeId
  | .expr, _ => []
  | .stmt, ids => ids

/-- The statements that stand directly at a place. -/
def Place.stmts : Place → List NodeId
  | .one class_ id => class_.keep [id]
  | .row class_ ids => class_.keep ids
  | .maybe class_ id => class_.keep id.toList

theorem NodeClass.keep_nil (class_ : NodeClass) : class_.keep [] = [] := by cases class_ <;> rfl

theorem NodeClass.keep_cons (class_ : NodeClass) (id : NodeId) (rest : List NodeId) :
    class_.keep (id :: rest) = class_.keep [id] ++ class_.keep rest := by
  cases class_ <;> rfl

/-- Control runs past expressions, and they are not taken apart as blocks are. -/
structure Code.IsExpr (code : Code) : Prop where
  goes : code.aborts = false
  whole : code.contents = code
  single : ∀ rest, code.append rest = .cons code rest

namespace Arena

/-- There is no node of the class under an id. -/
def Lacks (arena : Arena) (id : NodeId) : NodeClass → Prop
  | .expr => arena.expr? id = none
  | .stmt => arena.stmt? id = none

/-- The tree stands at the place. -/
inductive Shows (arena : Arena) : Place → Code → Prop
  | literal {id : NodeId} {value : Literal} (found : arena.expr? id = some (.literal value)) :
      Shows arena (.one .expr id) (.literal id value)
  | read {id : NodeId} {var : VarId} {version : Option Version} (found : arena.expr? id = some (.read var version)) :
      Shows arena (.one .expr id) (.read id var version)
  | builtin {id : NodeId} {name : String} (found : arena.expr? id = some (.builtin name)) :
      Shows arena (.one .expr id) (.builtin id name)
  | call {id callee : NodeId} {args : List NodeId} {calleeCode argsCode : Code} (found : arena.expr? id = some (.call callee args))
      (callee : Shows arena (.one .expr callee) calleeCode) (args : Shows arena (.row .expr args) argsCode) :
      Shows arena (.one .expr id) (.call id calleeCode argsCode)
  | eval {id source : NodeId} {sourceCode : Code} (found : arena.expr? id = some (.eval source))
      (source : Shows arena (.one .expr source) sourceCode) : Shows arena (.one .expr id) (.eval id sourceCode)
  | block {id : NodeId} {stmts : List NodeId} {row : Code} (found : arena.stmt? id = some (.block stmts))
      (stmts : Shows arena (.row .stmt stmts) row) : Shows arena (.one .stmt id) (.block id row)
  | assign {id value : NodeId} {target : VarId} {version : Option Version} {valueCode : Code}
      (found : arena.stmt? id = some (.assign target value version)) (value : Shows arena (.one .expr value) valueCode) :
      Shows arena (.one .stmt id) (.assign id target valueCode version)
  | delete {id : NodeId} {target : VarId} {tolerant : Bool} {version : Option Version}
      (found : arena.stmt? id = some (.delete target tolerant version)) :
      Shows arena (.one .stmt id) (.delete id target tolerant version)
  | release {id : NodeId} {target : VarId} (found : arena.stmt? id = some (.release target)) :
      Shows arena (.one .stmt id) (.release id target)
  | effect {id expr : NodeId} {exprCode : Code} (found : arena.stmt? id = some (.effect expr))
      (expr : Shows arena (.one .expr expr) exprCode) : Shows arena (.one .stmt id) (.effect id exprCode)
  | branch {id cond : NodeId} {yes no : Option NodeId} {condCode yesCode noCode : Code}
      (found : arena.stmt? id = some (.branch cond yes no)) (cond : Shows arena (.one .expr cond) condCode)
      (yes : Shows arena (.maybe .stmt yes) yesCode) (no : Shows arena (.maybe .stmt no) noCode) :
      Shows arena (.one .stmt id) (.branch id condCode yesCode noCode)
  | loop {id : NodeId} {body : Option NodeId} {bodyCode : Code} (found : arena.stmt? id = some (.loop body))
      (body : Shows arena (.maybe .stmt body) bodyCode) : Shows arena (.one .stmt id) (.loop id bodyCode)
  | brk {id : NodeId} (found : arena.stmt? id = some .brk) : Shows arena (.one .stmt id) (.brk id)
  | cont {id : NodeId} (found : arena.stmt? id = some .cont) : Shows arena (.one .stmt id) (.cont id)
  | ret {id : NodeId} {value : Option NodeId} {valueCode : Code} (found : arena.stmt? id = some (.ret value))
      (value : Shows arena (.maybe .expr value) valueCode) : Shows arena (.one .stmt id) (.ret id valueCode)
  | hole {id : NodeId} {class_ : NodeClass} (inside : id < arena.size) (lacks : arena.Lacks id class_) :
      Shows arena (.one class_ id) (.hole id)
  | nil {class_ : NodeClass} : Shows arena (.row class_ []) .nil
  | cons {class_ : NodeClass} {id : NodeId} {rest : List NodeId} {head tail : Code}
      (first : Shows arena (.one class_ id) head) (others : Shows arena (.row class_ rest) tail) :
      Shows arena (.row class_ (id :: rest)) (.cons head tail)
  | absent {class_ : NodeClass} : Shows arena (.maybe class_ none) .nil
  | present {class_ : NodeClass} {id : NodeId} {code : Code} (here : Shows arena (.one class_ id) code) :
      Shows arena (.maybe class_ (some id)) code

/-- The nodes below a statement form a tree: every id that is reached names a node of the arena,
since nothing is shown at an id out of range (`Shows.inside`), and none is reached twice. -/
structure IsTree (arena : Arena) (body : NodeId) (code : Code) : Prop where
  shows_ : arena.Shows (.one .stmt body) code
  nodup : code.ids.Nodup

variable {arena newer : Arena} {place : Place} {class_ : NodeClass} {id : NodeId}
  {ids : List NodeId} {node : Option NodeId} {code row : Code}

theorem stmt?_congr (same : newer.node? id = arena.node? id) : newer.stmt? id = arena.stmt? id := by
  rw [stmt?_eq_bind, stmt?_eq_bind, same]

theorem expr?_congr (same : newer.node? id = arena.node? id) : newer.expr? id = arena.expr? id := by
  rw [expr?_eq_bind, expr?_eq_bind, same]

theorem Lacks.congr (lacks : arena.Lacks id class_) (same : newer.node? id = arena.node? id) :
    newer.Lacks id class_ := by
  cases class_ with
  | expr => exact (expr?_congr same).trans lacks
  | stmt => exact (stmt?_congr same).trans lacks

namespace Shows

/-- All ids of the tree are in range. -/
theorem inside (shows_ : arena.Shows place code) : ∀ id ∈ code.ids, id < arena.size := by
  induction shows_ with
  | literal found | read found | builtin found => simpa [Code.ids] using lt_size_of_expr? found
  | delete found | release found | brk found | cont found =>
    simpa [Code.ids] using lt_size_of_stmt? found
  | call found _ _ first second =>
    intro id mem
    simp only [Code.ids, List.mem_cons, List.mem_append] at mem
    rcases mem with rfl | mem | mem
    · exact lt_size_of_expr? found
    · exact first id mem
    · exact second id mem
  | eval found _ ih => simpa [Code.ids] using ⟨lt_size_of_expr? found, ih⟩
  | block found _ ih | assign found _ ih | effect found _ ih | loop found _ ih | ret found _ ih =>
    simpa [Code.ids] using ⟨lt_size_of_stmt? found, ih⟩
  | branch found _ _ _ first second third =>
    intro id mem
    simp only [Code.ids, List.mem_cons, List.mem_append] at mem
    rcases mem with rfl | mem | mem | mem
    · exact lt_size_of_stmt? found
    · exact first id mem
    · exact second id mem
    · exact third id mem
  | hole inside _ => simpa [Code.ids] using inside
  | nil | absent => simp [Code.ids]
  | cons _ _ first second =>
    intro id mem
    rcases List.mem_append.1 mem with mem | mem
    · exact first id mem
    · exact second id mem
  | present _ ih => exact ih

/-- An arena that holds the same nodes under the ids of the tree shows the tree. -/
theorem congr (shows_ : arena.Shows place code) (grown : arena.size ≤ newer.size)
    (same : ∀ id ∈ code.ids, newer.node? id = arena.node? id) : newer.Shows place code := by
  induction shows_ with
  | literal found => exact .literal ((expr?_congr (same _ (by simp [Code.ids]))).trans found)
  | read found => exact .read ((expr?_congr (same _ (by simp [Code.ids]))).trans found)
  | builtin found => exact .builtin ((expr?_congr (same _ (by simp [Code.ids]))).trans found)
  | call found _ _ first second =>
    exact .call ((expr?_congr (same _ (by simp [Code.ids]))).trans found)
      (first fun id mem => same id (by simp [Code.ids, mem]))
      (second fun id mem => same id (by simp [Code.ids, mem]))
  | eval found _ ih =>
    exact .eval ((expr?_congr (same _ (by simp [Code.ids]))).trans found)
      (ih fun id mem => same id (by simp [Code.ids, mem]))
  | block found _ ih =>
    exact .block ((stmt?_congr (same _ (by simp [Code.ids]))).trans found)
      (ih fun id mem => same id (by simp [Code.ids, mem]))
  | assign found _ ih =>
    exact .assign ((stmt?_congr (same _ (by simp [Code.ids]))).trans found)
      (ih fun id mem => same id (by simp [Code.ids, mem]))
  | delete found => exact .delete ((stmt?_congr (same _ (by simp [Code.ids]))).trans found)
  | release found => exact .release ((stmt?_congr (same _ (by simp [Code.ids]))).trans found)
  | effect found _ ih =>
    exact .effect ((stmt?_congr (same _ (by simp [Code.ids]))).trans found)
      (ih fun id mem => same id (by simp [Code.ids, mem]))
  | branch found _ _ _ first second third =>
    exact .branch ((stmt?_congr (same _ (by simp [Code.ids]))).trans found)
      (first fun id mem => same id (by simp [Code.ids, mem]))
      (second fun id mem => same id (by simp [Code.ids, mem]))
      (third fun id mem => same id (by simp [Code.ids, mem]))
  | loop found _ ih =>
    exact .loop ((stmt?_congr (same _ (by simp [Code.ids]))).trans found)
      (ih fun id mem => same id (by simp [Code.ids, mem]))
  | brk found => exact .brk ((stmt?_congr (same _ (by simp [Code.ids]))).trans found)
  | cont found => exact .cont ((stmt?_congr (same _ (by simp [Code.ids]))).trans found)
  | ret found _ ih =>
    exact .ret ((stmt?_congr (same _ (by simp [Code.ids]))).trans found)
      (ih fun id mem => same id (by simp [Code.ids, mem]))
  | hole inside lacks =>
    exact .hole (Nat.lt_of_lt_of_le inside grown) (lacks.congr (same _ (by simp [Code.ids])))
  | nil => exact .nil
  | cons _ _ first second =>
    exact .cons (first fun id mem => same id (by simp [Code.ids, mem]))
      (second fun id mem => same id (by simp [Code.ids, mem]))
  | absent => exact .absent
  | present _ ih => exact .present (ih same)

/-- What stands at one node is neither a row nor absent. -/
theorem single (shows_ : arena.Shows (.one class_ id) code) :
    code ≠ .nil ∧ ∀ head tail, code ≠ .cons head tail := by
  cases shows_ <;> exact ⟨nofun, nofun⟩

/-- What stands where a node may be absent stands at the node that is there. -/
theorem here (shows_ : arena.Shows (.maybe class_ (some id)) code) :
    arena.Shows (.one class_ id) code := by
  cases shows_ with
  | present here => exact here

/-- The node at which a tree stands is its own. -/
theorem mem_ids (shows_ : arena.Shows (.one class_ id) code) : id ∈ code.ids := by
  cases shows_ <;> simp [Code.ids]

theorem eq_nil_iff {node : Option NodeId} (shows_ : arena.Shows (.maybe class_ node) code) :
    code = .nil ↔ node = none := by
  cases shows_ with
  | absent => simp
  | present here => simp [here.single.1]

theorem append {others : List NodeId} {rest : Code} (first : arena.Shows (.row class_ ids) row)
    (second : arena.Shows (.row class_ others) rest) :
    arena.Shows (.row class_ (ids ++ others)) (row.append rest) := by
  induction ids generalizing row with
  | nil =>
    cases first
    exact second
  | cons id ids ih =>
    cases first with
    | cons head tail => exact .cons head (ih tail)

/-- A node above a tree is changed without the tree. -/
theorem mapStmt (shows_ : arena.Shows place code) (free : id ∉ code.ids) (edit : Stmt → Stmt) :
    (arena.mapStmt id edit).Shows place code :=
  shows_.congr (Nat.le_of_eq (size_mapStmt _ _ _).symm) fun _ mem =>
    node?_mapStmt_of_ne arena (by rintro rfl; exact free mem) edit

theorem mapExpr (shows_ : arena.Shows place code) (free : id ∉ code.ids) (edit : Expr → Expr) :
    (arena.mapExpr id edit).Shows place code :=
  shows_.congr (Nat.le_of_eq (size_mapExpr _ _ _).symm) fun _ mem =>
    node?_mapExpr_of_ne arena (by rintro rfl; exact free mem) edit

theorem push (shows_ : arena.Shows place code) (node : Node) (span : Span) :
    (arena.push node span).Shows place code := by
  refine shows_.congr (by simp) fun id mem => ?_
  rw [node?_push, if_neg (Nat.ne_of_lt (shows_.inside id mem))]

/-- If no id occurs twice, the tree has no more nodes than the arena. -/
theorem length_le (shows_ : arena.Shows place code) (nodup : code.ids.Nodup) :
    code.ids.length ≤ arena.size := by
  have inside : code.ids ⊆ List.range arena.size :=
    fun id mem => List.mem_range.2 (shows_.inside id mem)
  simpa using (List.subperm_of_subset nodup inside).length_le

theorem isExpr (shows_ : arena.Shows (.one .expr id) code) : code.IsExpr := by
  cases shows_ <;> exact ⟨rfl, rfl, fun _ => rfl⟩

theorem literal?_eq (shows_ : arena.Shows (.one .expr id) code) :
    arena.literal? id = code.literal? := by
  unfold literal?
  cases shows_ with
  | hole _ lacks =>
    have absent : arena.expr? id = none := lacks
    rw [absent]
    rfl
  | literal found | read found | builtin found | call found | eval found =>
    rw [found]
    rfl

/-- A block shows the row of its statements, and any other statement stands for itself. -/
theorem block?_cases (shows_ : arena.Shows (.one .stmt id) code) :
    (∃ stmts row, arena.block? id = some stmts ∧ code = .block id row ∧
      arena.Shows (.row .stmt stmts) row) ∨
      arena.block? id = none ∧ ∀ id row, code ≠ .block id row := by
  unfold block?
  cases shows_ with
  | block found stmts => exact .inl ⟨_, _, by rw [found], rfl, stmts⟩
  | hole _ lacks =>
    have absent : arena.stmt? id = none := lacks
    exact .inr ⟨by rw [absent], nofun⟩
  | assign found | delete found | release found | effect found | branch found | loop found
  | brk found | cont found | ret found =>
    exact .inr ⟨by rw [found], nofun⟩

/-- What stands alone is no block. -/
theorem block?_eq_none (shows_ : arena.Shows (.one .stmt id) code)
    (alone : code.standsAlone = true) : arena.block? id = none := by
  rcases shows_.block?_cases with ⟨stmts, row, -, rfl, -⟩ | ⟨none_, -⟩
  · cases alone
  · exact none_

/-- What a statement brings into the row around it: its own statements if it is a block, and itself
if not. -/
theorem contents (shows_ : arena.Shows (.one .stmt id) code) :
    arena.Shows (.row .stmt ((arena.block? id).getD [id])) (code.contents.append .nil) := by
  rcases shows_.block?_cases with ⟨stmts, row, found, rfl, rowShows⟩ | ⟨found, single⟩
  · rw [found]
    simpa [Code.contents] using rowShows.append .nil
  · have whole : code.contents = code := by
      cases code with
      | block id row => exact absurd rfl (single id row)
      | _ => rfl
    rw [found, whole, Code.append_of_single _ _ shows_.single.1 shows_.single.2]
    exact .cons shows_ .nil

section Queries

variable {depth : Nat}

/-- A hole is no statement. -/
theorem any_hole {test : NodeId → Bool} (denies : arena.stmt? id = none → test id = false)
    (lacks : arena.Lacks id class_) :
    (Place.one class_ id).stmts.any test = false := by
  cases class_ with
  | expr => rfl
  | stmt => simpa [Place.stmts, NodeClass.keep] using denies lacks

/-- The scan sees no exit from a place if there is none in the tree. -/
theorem exitNodes_eq_nil_iff {kind : ExitKind} (shows_ : arena.Shows place code)
    (deep : code.ids.length ≤ depth) :
    code.exitNodes kind = [] ↔ place.stmts.any (arena.mayExitWithin kind depth) = false := by
  induction shows_ generalizing depth with
  | literal | read | builtin | call | eval => exact iff_of_true rfl rfl
  | nil | absent => simp [Place.stmts, NodeClass.keep_nil, Code.exitNodes]
  | assign found | delete found | release found | effect found | brk found
  | cont found | ret found =>
    cases depth with
    | zero => simp [Code.ids] at deep
    | succ depth => simp [Place.stmts, NodeClass.keep, mayExitWithin, found, Code.exitNodes]
  | block found _ ih =>
    cases depth with
    | zero => simp [Code.ids] at deep
    | succ depth =>
      simpa [Place.stmts, NodeClass.keep, mayExitWithin, found, Code.exitNodes] using ih
        (Nat.le_of_succ_le_succ deep)
  | @loop _ node _ found _ ih =>
    cases depth with
    | zero => simp [Code.ids] at deep
    | succ depth =>
      have body := ih (Nat.le_of_succ_le_succ deep)
      by_cases returns : kind = .ret
      · rw [Code.exitNodes, if_pos returns, body]
        cases node <;> simp [Place.stmts, NodeClass.keep, mayExitWithin, found, returns]
      · simp [Place.stmts, NodeClass.keep, mayExitWithin, found, Code.exitNodes, returns]
  | @branch _ _ yes no _ _ _ found _ _ _ _ second third =>
    cases depth with
    | zero => simp [Code.ids] at deep
    | succ depth =>
      simp only [Code.ids, List.length_cons, List.length_append] at deep
      rw [Code.exitNodes, List.append_eq_nil_iff, second (show _ ≤ depth by omega),
        third (show _ ≤ depth by omega)]
      cases yes <;> cases no <;> simp [Place.stmts, NodeClass.keep, mayExitWithin, found]
  | hole _ lacks =>
    refine iff_of_true rfl (any_hole (fun absent => ?_) lacks)
    cases depth <;> simp [mayExitWithin, absent]
  | @cons class_ id rest _ _ _ _ first second =>
    simp only [Code.ids, List.length_append] at deep
    rw [Code.exitNodes, List.append_eq_nil_iff, first (show _ ≤ depth by omega),
      second (show _ ≤ depth by omega)]
    simp only [Place.stmts]
    rw [class_.keep_cons id rest, List.any_append, Bool.or_eq_false_iff]
  | present _ ih => exact ih deep

/-- The breaks that a walk sees from a place are those in the tree. -/
theorem mayBreak_eq (shows_ : arena.Shows place code) (deep : code.ids.length ≤ depth) :
    place.stmts.any (arena.mayExitWithin .brk depth) = code.mayBreak :=
  Bool.eq_iff_iff.2 (by
    rw [← Bool.not_eq_false, ← shows_.exitNodes_eq_nil_iff deep, code.exitNodes_brk_eq_nil,
      Bool.not_eq_false])

/-- Whether control runs past a place is answered by the tree, in an arena with room for it. -/
theorem aborts_eq (shows_ : arena.Shows place code) (deep : code.ids.length ≤ depth)
    (room : code.ids.length ≤ arena.size) :
    place.stmts.any (arena.isAbortingWithin depth) = code.aborts := by
  induction shows_ generalizing depth with
  | literal | read | builtin | call | eval => rfl
  | nil | absent => simp [Place.stmts, NodeClass.keep_nil, Code.aborts]
  | assign found | delete found | release found | effect found | brk found
  | cont found | ret found =>
    cases depth with
    | zero => simp [Code.ids] at deep
    | succ depth => simp [Place.stmts, NodeClass.keep, isAbortingWithin, found, Code.aborts]
  | @loop _ node _ found body _ =>
    cases depth with
    | zero => simp [Code.ids] at deep
    | succ depth =>
      have breaks := body.mayBreak_eq (Nat.le_of_succ_le room)
      rw [Code.aborts, ← breaks]
      cases node <;> simp [Place.stmts, NodeClass.keep, isAbortingWithin, found, mayBreak, mayExit]
  | block found _ ih =>
    cases depth with
    | zero => simp [Code.ids] at deep
    | succ depth =>
      have row := ih (Nat.le_of_succ_le_succ deep) (Nat.le_of_succ_le room)
      simpa [Place.stmts, NodeClass.keep, isAbortingWithin, found, Code.aborts] using row
  | @branch _ _ yes no _ _ _ found _ _ _ _ second third =>
    cases depth with
    | zero => simp [Code.ids] at deep
    | succ depth =>
      simp only [Code.ids, List.length_cons, List.length_append] at deep room
      have yesArm := second (show _ ≤ depth by omega) (by omega)
      have noArm := third (show _ ≤ depth by omega) (by omega)
      rw [Code.aborts, ← yesArm, ← noArm]
      cases yes <;> cases no <;> simp [Place.stmts, NodeClass.keep, isAbortingWithin, found]
  | hole _ lacks =>
    refine any_hole (fun absent => ?_) lacks
    cases depth <;> simp [isAbortingWithin, absent]
  | cons _ _ first second =>
    simp only [Code.ids, List.length_append] at deep room
    have head := first (show _ ≤ depth by omega) (by omega)
    have tail := second (show _ ≤ depth by omega) (by omega)
    rw [Code.aborts, ← head, ← tail]
    simp only [Place.stmts]
    rw [NodeClass.keep_cons, List.any_append]
  | present _ ih => exact ih deep room

/-- What the tree writes is written within as many levels as the tree has nodes. -/
theorem writesWithin (shows_ : arena.Shows place code) (deep : code.ids.length ≤ depth)
    {var : VarId} (mem : var ∈ code.targets) :
    ∃ id ∈ place.stmts, arena.WritesWithin var depth id := by
  induction shows_ generalizing depth with
  | literal | read | builtin | release | brk | cont | hole | nil | absent => cases mem
  | call _ _ _ first second =>
    simp only [Code.ids, List.length_cons, List.length_append] at deep
    rcases List.mem_append.1 mem with mem | mem
    · obtain ⟨_, none, _⟩ := first (show _ ≤ depth by omega) mem
      cases none
    · obtain ⟨_, none, _⟩ := second (show _ ≤ depth by omega) mem
      cases none
  | eval _ _ ih | effect _ _ ih | ret _ _ ih =>
    obtain ⟨_, none, _⟩ := ih (Nat.le_of_succ_le deep) mem
    cases none
  | assign found _ ih =>
    cases depth with
    | zero => simp [Code.ids] at deep
    | succ depth =>
      rcases List.mem_cons.1 mem with rfl | mem
      · exact ⟨_, List.mem_singleton_self _, (writesWithin_succ found).2 (.inl rfl)⟩
      · obtain ⟨_, none, _⟩ := ih (Nat.le_of_succ_le deep) mem
        cases none
  | delete found =>
    cases depth with
    | zero => simp [Code.ids] at deep
    | succ depth =>
      rw [List.mem_singleton.1 mem]
      exact ⟨_, List.mem_singleton_self _, (writesWithin_succ found).2 (.inl rfl)⟩
  | block found _ ih | loop found _ ih =>
    cases depth with
    | zero => simp [Code.ids] at deep
    | succ depth =>
      obtain ⟨child, held, below⟩ := ih (Nat.le_of_succ_le_succ deep) mem
      exact ⟨_, List.mem_singleton_self _, (writesWithin_succ found).2 (.inr ⟨child, held, below⟩)⟩
  | @branch _ _ yes no _ _ _ found _ _ _ first second third =>
    cases depth with
    | zero => simp [Code.ids] at deep
    | succ depth =>
      simp only [Code.ids, List.length_cons, List.length_append] at deep
      rcases List.mem_append.1 mem with mem | mem
      · obtain ⟨_, none, _⟩ := first (show _ ≤ depth by omega) mem
        cases none
      have arm : ∃ child ∈ yes.toList ++ no.toList, arena.WritesWithin var depth child := by
        rcases List.mem_append.1 mem with mem | mem
        · obtain ⟨child, held, below⟩ := second (show _ ≤ depth by omega) mem
          exact ⟨child, List.mem_append_left _ held, below⟩
        · obtain ⟨child, held, below⟩ := third (show _ ≤ depth by omega) mem
          exact ⟨child, List.mem_append_right _ held, below⟩
      exact ⟨_, List.mem_singleton_self _, (writesWithin_succ found).2 (.inr arm)⟩
  | cons _ _ first second =>
    simp only [Code.ids, List.length_append] at deep
    simp only [Place.stmts]
    rw [NodeClass.keep_cons]
    rcases List.mem_append.1 mem with mem | mem
    · obtain ⟨id, held, below⟩ := first (show _ ≤ depth by omega) mem
      exact ⟨id, List.mem_append_left _ held, below⟩
    · obtain ⟨id, held, below⟩ := second (show _ ≤ depth by omega) mem
      exact ⟨id, List.mem_append_right _ held, below⟩
  | present _ ih => exact ih deep mem

/-- What is written at a place is a target of the tree. -/
theorem mem_targets_of_writesWithin (shows_ : arena.Shows place code) {var : VarId} {id : NodeId}
    (mem : id ∈ place.stmts) (writes : arena.WritesWithin var depth id) : var ∈ code.targets := by
  induction shows_ generalizing depth id with
  | literal | read | builtin | call | eval => cases mem
  | nil | absent => simp [Place.stmts, NodeClass.keep_nil] at mem
  | assign found | delete found | release found | effect found | brk found
  | cont found | ret found =>
    rw [List.mem_singleton.1 mem] at writes
    rcases writes.cases found with target | ⟨_, child, held, _⟩
    · simp_all [Stmt.target?, Code.targets]
    · cases held
  | block found _ ih | loop found _ ih =>
    rw [List.mem_singleton.1 mem] at writes
    rcases writes.cases found with target | ⟨_, child, held, below⟩
    · cases target
    · exact ih held below
  | branch found _ _ _ _ second third =>
    rw [List.mem_singleton.1 mem] at writes
    rcases writes.cases found with target | ⟨_, child, held, below⟩
    · cases target
    · refine List.mem_append_right _ (List.mem_append.2 ((List.mem_append.1 held).imp ?_ ?_))
      · exact fun arm => second arm below
      · exact fun arm => third arm below
  | @hole _ class_ _ lacks =>
    cases class_ with
    | expr => cases mem
    | stmt =>
      rw [List.mem_singleton.1 mem] at writes
      cases depth with
      | zero => exact writes.elim
      | succ depth =>
        obtain ⟨stmt, found, _⟩ := writes
        cases found.symm.trans lacks
  | cons _ _ first second =>
    simp only [Place.stmts] at mem
    rw [NodeClass.keep_cons] at mem
    refine List.mem_append.2 ((List.mem_append.1 mem).imp ?_ ?_)
    · exact fun here => first here writes
    · exact fun later => second later writes
  | present _ ih => exact ih mem writes

end Queries

/-- Control may leave a statement by an exit of a kind if there is one in the tree. -/
theorem any_mayExit_iff (shows_ : arena.Shows (.maybe .stmt node) code) (nodup : code.ids.Nodup)
    (kind : ExitKind) :
    node.any (arena.mayExit kind) = true ↔ code.exitNodes kind ≠ [] := by
  rw [ne_eq, shows_.exitNodes_eq_nil_iff (shows_.length_le nodup), Bool.not_eq_false]
  cases node <;> simp [Place.stmts, NodeClass.keep, mayExit]

/-- Control runs past a statement if the tree does not abort. -/
theorem isAborting_eq (shows_ : arena.Shows (.maybe .stmt node) code) (nodup : code.ids.Nodup) :
    node.any arena.isAborting = code.aborts := by
  have room := shows_.length_le nodup
  rw [← shows_.aborts_eq room room]
  cases node <;> simp [Place.stmts, NodeClass.keep, isAborting]

/-- The scan for writes finds what the tree writes. -/
theorem mem_variablesWritten_iff (shows_ : arena.Shows (.one .stmt id) code)
    (nodup : code.ids.Nodup) {var : VarId} :
    var ∈ arena.variablesWritten id ↔ var ∈ code.targets := by
  rw [Arena.mem_variablesWritten]
  refine ⟨shows_.mem_targets_of_writesWithin (List.mem_singleton_self id), fun mem => ?_⟩
  obtain ⟨other, same, writes⟩ := shows_.writesWithin (shows_.length_le nodup) mem
  rwa [List.mem_singleton.1 same] at writes

/-- A round ends at a node of the tree if it ends there in the arena, with the same statement. -/
theorem stmt?_roundEnd_iff {stmt : Stmt} (ends : stmt = .brk ∨ stmt = .cont)
    (shows_ : arena.Shows (.one .stmt id) code) :
    arena.stmt? id = some stmt ↔ code.roundEnd? = some stmt := by
  cases shows_ with
  | hole _ lacks =>
    have none_ : arena.stmt? id = none := lacks
    simp [none_, Code.roundEnd?]
  | brk found | cont found => rw [found, Code.roundEnd?]
  | block found | assign found | delete found | release found | effect found | branch found
  | loop found | ret found =>
    rcases ends with rfl | rfl <;> simp [found, Code.roundEnd?]

/-- Where a loop stands, its body stands below it. -/
theorem body_of_loop (shows_ : arena.Shows (.one .stmt id) code)
    (found : arena.stmt? id = some (.loop node)) :
    ∃ body, code = .loop id body ∧ arena.Shows (.maybe .stmt node) body := by
  cases shows_ with
  | loop same body =>
    obtain rfl := Stmt.loop.inj (Option.some.inj (same.symm.trans found))
    exact ⟨_, rfl, body⟩
  | hole _ lacks => cases found.symm.trans (show arena.stmt? id = none from lacks)
  | block other | assign other | delete other | release other | effect other | branch other
  | brk other | cont other | ret other =>
    cases found.symm.trans other

/-- A body is left at once in the arena if it is so in the tree. -/
theorem isLoneBreak_eq (shows_ : arena.Shows (.one .stmt id) code) :
    Walk.isLoneBreak arena id = code.isLoneBreak := by
  unfold Walk.isLoneBreak
  rcases shows_.block?_cases with ⟨stmts, row, found, rfl, rowShows⟩ | ⟨found, single⟩
  · rw [found]
    cases rowShows with
    | nil => rfl
    | cons first others =>
      cases others with
      | nil =>
        rw [Code.isLoneBreak_single, Bool.eq_iff_iff, beq_iff_eq, beq_iff_eq]
        exact first.stmt?_roundEnd_iff (.inl rfl)
      | cons => cases first <;> rfl
  · rw [found]
    cases code with
    | block id row => exact absurd rfl (single id row)
    | _ => rfl

theorem any_isLoneBreak (shows_ : arena.Shows (.maybe .stmt node) code) :
    node.any (Walk.isLoneBreak arena) = code.isLoneBreak := by
  cases shows_ with
  | absent => rfl
  | present here => exact here.isLoneBreak_eq

/-- The row of a body ends with a continue in the arena if it does so in the tree. -/
theorem withoutCont?_cases (shows_ : arena.Shows (.row .stmt ids) row) :
    (∃ kept, row.withoutCont? = some kept ∧ ids.getLast?.bind arena.stmt? = some .cont ∧
        arena.Shows (.row .stmt ids.dropLast) kept) ∨
      row.withoutCont? = none ∧ ids.getLast?.bind arena.stmt? ≠ some .cont := by
  induction ids generalizing row with
  | nil =>
    cases shows_
    exact .inr ⟨rfl, nofun⟩
  | cons id rest ih =>
    cases shows_ with
    | @cons _ _ _ head tail first others =>
      have last := first.stmt?_roundEnd_iff (.inr rfl)
      cases others with
      | nil =>
        by_cases ends : head.roundEnd? = some .cont
        · have found := last.2 ends
          cases first with
          | cont => exact .inl ⟨.nil, rfl, found, .nil⟩
          | _ => cases ends
        · exact .inr ⟨Code.withoutCont?_single ends, fun same => ends (last.1 same)⟩
      | cons second others =>
        rw [Code.withoutCont?_cons_cons, List.getLast?_cons_cons]
        rcases ih (.cons second others) with ⟨kept, found, ends, shows_⟩ | ⟨absent, ends⟩
        · exact .inl ⟨_, by rw [found]; rfl, ends, .cons first shows_⟩
        · exact .inr ⟨by rw [absent]; rfl, ends⟩

end Shows

end Arena

end ValueFlow
