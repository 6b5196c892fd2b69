import Mathlib.Algebra.GroupWithZero.Nat
import ValueFlow.Proofs.Arena.Region
import ValueFlow.Proofs.Tree.Shows

/-!
# What a body weighs

A body weighs as much as the nodes of its unfolding. Each node counts once for every reference to
it. A conditional counts twice, and so does a built-in name that always has the same value. For both
may be replaced by a node that was not there before: a conditional by a statement that has its
condition, and the name by a literal.

In a tree every node is referred to once. So the arena weighs at a place what the tree weighs that
stands there, if no node is of the wrong class (`Arena.Shows.weight_eq`). Below a node of the wrong
class the tree ends, and the arena may weigh more.
-/

namespace ValueFlow
set_option autoImplicit false

/-- What a built-in name weighs. -/
def nameCost (name : String) : Nat := if name ∈ ["None", "True", "False", "__debug__", "Ellipsis"] then 2 else 1

/-- The names of known value weigh two. -/
theorem nameCost_of_known {options : Options} {name : String} {value : Literal}
    (known : builtinValue? options name = some value) :
    nameCost name = 2 := by
  unfold builtinValue? at known
  split at known <;> first | rfl | cases known

theorem nameCost_pos (name : String) : 1 ≤ nameCost name := by
  unfold nameCost
  split <;> decide

/-- What a node weighs without what it refers to. -/
def Node.cost : Node → Nat
  | .stmt (.branch _ _ _) => 2
  | .expr (.builtin name) => nameCost name
  | _ => 1

theorem Node.cost_pos (node : Node) : 1 ≤ node.cost := by
  unfold cost
  split
  · decide
  · exact nameCost_pos _
  · exact Nat.le_refl 1

/-- The nodes that a node refers to. -/
def Node.references : Node → List NodeId
  | .stmt held => held.operands ++ held.children
  | .expr held => held.operands

namespace Arena

variable (arena : Arena)

/-- What the first `depth` levels of the unfolding of a node weigh. -/
def weightWithin : Nat → NodeId → Nat
  | 0, _ => 0
  | depth + 1, id =>
    match arena.node? id with
    | some node => node.cost + (node.references.map (weightWithin depth)).sum
    | none => 0

/-- What a body weighs, and nothing if there is none. -/
def weight : Option NodeId → Nat
  | some body => arena.weightWithin arena.size body
  | none => 0

end Arena

namespace Code

/-- What a tree weighs. -/
def weight : Code → Nat
  | builtin _ name => nameCost name
  | call _ callee args => 1 + callee.weight + args.weight
  | eval _ source => 1 + source.weight
  | block _ row => 1 + row.weight
  | assign _ _ value _ => 1 + value.weight
  | effect _ expr => 1 + expr.weight
  | branch _ cond yes no => 2 + cond.weight + yes.weight + no.weight
  | loop _ body => 1 + body.weight
  | ret _ value => 1 + value.weight
  | nil => 0
  | cons head tail => head.weight + tail.weight
  | _ => 1

/-- Every node is of the class that its place demands. -/
def isWhole : Code → Bool
  | call _ callee args => callee.isWhole && args.isWhole
  | eval _ source => source.isWhole
  | block _ row => row.isWhole
  | assign _ _ value _ => value.isWhole
  | effect _ expr => expr.isWhole
  | branch _ cond yes no => cond.isWhole && (yes.isWhole && no.isWhole)
  | loop _ body => body.isWhole
  | ret _ value => value.isWhole
  | hole _ => false
  | cons head tail => head.isWhole && tail.isWhole
  | _ => true

variable (code rest : Code) (id added : NodeId)

theorem weight_append : (code.append rest).weight = code.weight + rest.weight := by
  induction code with
  | cons head tail _ ih => simp [weight, ih, Nat.add_assoc]
  | _ => simp [append, weight]

theorem weight_contents_le : code.contents.weight ≤ code.weight := by
  cases code with
  | block id row => exact Nat.le_add_left _ _
  | _ => exact Nat.le_refl _

theorem weight_wrap_le : (wrap id code).weight ≤ 1 + code.weight := by
  cases code with
  | nil => exact Nat.zero_le _
  | _ => exact Nat.le_refl _

variable {code} in
/-- A continue at the end of a block has its weight. -/
theorem weight_withoutCont {kept : Code} (ends : code.withoutCont? = some kept) :
    1 + (wrap id kept).weight ≤ (block id code).weight := by
  obtain ⟨cont, whole, -⟩ := eq_append_of_withoutCont? ends
  have wrapped := weight_wrap_le kept id
  rw [whole, weight, weight_append]
  simp only [weight]
  omega

theorem isWhole_append : (code.append rest).isWhole = (code.isWhole && rest.isWhole) := by
  induction code with
  | cons head tail _ ih => simp [isWhole, ih, Bool.and_assoc]
  | _ => simp [append, isWhole]

@[simp] theorem isWhole_contents : code.contents.isWhole = code.isWhole := by cases code <;> rfl

@[simp] theorem isWhole_wrap : (wrap id code).isWhole = code.isWhole := by cases code <;> rfl

theorem isWhole_trim : code.trim.isWhole = code.isWhole := by
  rcases code.trim_cases with same | ⟨id, row, kept, rfl, ends, same⟩
  · rw [same]
  · obtain ⟨cont, whole, -⟩ := eq_append_of_withoutCont? ends
    rw [same, isWhole_wrap]
    simp [whole, isWhole, isWhole_append]

theorem isWhole_choice (cond yes no : Code) :
    (choice id added cond yes no).isWhole = (cond.isWhole && (yes.isWhole && no.isWhole)) := by
  rcases choice_cases id added cond yes no with ⟨same, rfl, rfl⟩ | same
  · simp [same, isWhole]
  · rw [same, isWhole]

theorem isWhole_cycle {body : Code} (whole : body.isWhole = true) :
    (cycle id body).isWhole = true := by
  unfold cycle
  split
  · rfl
  · exact whole

/-- The tree weighs no more than the total, and as much if every node is of the right class. -/
structure Weighs (total : Nat) : Prop where
  least : code.weight ≤ total
  whole : code.isWhole = true → total = code.weight

namespace Weighs

variable {code first second : Code} {total other cost : Nat}

theorem exactly (same : total = code.weight) : code.Weighs total :=
  ⟨Nat.le_of_eq same.symm, fun _ => same⟩

/-- The totals of trees that stand side by side add up. -/
theorem beside (left : first.Weighs total) (right : second.Weighs other) :
    (cons first second).Weighs (total + other) where
  least := Nat.add_le_add left.least right.least
  whole both := by
    obtain ⟨leftWhole, rightWhole⟩ := Bool.and_eq_true_iff.1 both
    rw [left.whole leftWhole, right.whole rightWhole, weight]

/-- A node adds its cost to the total of what stands below it. -/
theorem under (below : first.Weighs total) (weight : code.weight = cost + first.weight)
    (isWhole : code.isWhole = first.isWhole) :
    code.Weighs (cost + total) where
  least := weight ▸ Nat.add_le_add_left below.least cost
  whole whole := by rw [weight, below.whole (isWhole ▸ whole)]

end Weighs

end Code

/-- The nodes that stand directly at a place. -/
def Place.nodes : Place → List NodeId
  | .one _ id => [id]
  | .row _ ids => ids
  | .maybe _ id => id.toList

namespace Arena

variable {arena : Arena} {place : Place} {code : Code} {depth : Nat} {id : NodeId}

theorem weightWithin_succ {node : Node} (found : arena.node? id = some node) :
    arena.weightWithin (depth + 1) id =
      node.cost + (node.references.map (arena.weightWithin depth)).sum := by
  rw [weightWithin, found]

/-- The places directly below a statement weigh what the tree weighs there. -/
theorem weightWithin_stmt {stmt : Stmt} (found : arena.stmt? id = some stmt) :
    arena.weightWithin (depth + 1) id = (Node.stmt stmt).cost +
      ((stmt.operands.map (arena.weightWithin depth)).sum +
        (stmt.children.map (arena.weightWithin depth)).sum) := by
  rw [weightWithin_succ (stmt?_eq_some.1 found), Node.references, List.map_append, List.sum_append]

theorem weightWithin_expr {expr : Expr} (found : arena.expr? id = some expr) :
    arena.weightWithin (depth + 1) id = (Node.expr expr).cost +
      (expr.operands.map (arena.weightWithin depth)).sum :=
  weightWithin_succ (expr?_eq_some.1 found)

/-- A node has a weight. -/
theorem weightWithin_pos (inside : id < arena.size) : 1 ≤ arena.weightWithin (depth + 1) id := by
  have found : arena.node? id = some arena.slots[id].node :=
    congrArg (Option.map _) (Array.getElem?_eq_getElem inside)
  rw [weightWithin_succ found]
  exact Nat.le_add_right_of_le (Node.cost_pos _)

namespace Shows

/-- What stands at a node has a weight. -/
theorem weight_pos {class_ : NodeClass} (shows_ : arena.Shows (.one class_ id) code) :
    1 ≤ code.weight := by
  cases shows_ with
  | builtin => exact nameCost_pos _
  | call | branch => simp only [Code.weight]; omega
  | eval | block | assign | effect | loop | ret => exact Nat.le_add_right 1 _
  | literal | read | delete | release | brk | cont | hole => exact Nat.le_refl 1

omit arena in
/-- A node takes one level of the depth. -/
theorem deeper {ids : List NodeId} (deep : (id :: ids).length ≤ depth) :
    ∃ below, depth = below + 1 ∧ ids.length ≤ below := by
  cases depth with
  | zero => cases deep
  | succ below => exact ⟨below, rfl, Nat.le_of_succ_le_succ deep⟩

section Node

variable {parts : Code} {total : Nat} (below : parts.Weighs total)
include below

theorem weighs_expr {expr : Expr} (found : arena.expr? id = some expr)
    (sum : (expr.operands.map (arena.weightWithin depth)).sum = total)
    (weight : code.weight = (Node.expr expr).cost + parts.weight)
    (isWhole : code.isWhole = parts.isWhole) :
    code.Weighs (arena.weightWithin (depth + 1) id) := by
  rw [weightWithin_expr found, sum]
  exact below.under weight isWhole

theorem weighs_stmt {stmt : Stmt} (found : arena.stmt? id = some stmt)
    (sum : (stmt.operands.map (arena.weightWithin depth)).sum +
      (stmt.children.map (arena.weightWithin depth)).sum = total)
    (weight : code.weight = (Node.stmt stmt).cost + parts.weight)
    (isWhole : code.isWhole = parts.isWhole) :
    code.Weighs (arena.weightWithin (depth + 1) id) := by
  rw [weightWithin_stmt found, sum]
  exact below.under weight isWhole

end Node

/-- At a place the arena weighs what the tree weighs that stands there, and what lies below nodes of
the wrong class. -/
theorem weight_within (shows_ : arena.Shows place code) (deep : code.ids.length ≤ depth) :
    code.Weighs (place.nodes.map (arena.weightWithin depth)).sum := by
  induction shows_ generalizing depth with
  | nil | absent => exact .exactly rfl
  | present _ ih => exact ih deep
  | cons _ _ first second =>
    simp only [Code.ids, List.length_append] at deep
    have head := first (Nat.le_of_add_right_le deep)
    have tail := second (Nat.le_of_add_left_le deep)
    simpa [Place.nodes] using head.beside tail
  | hole inside =>
    obtain ⟨below, rfl, -⟩ := deeper deep
    exact ⟨by simpa [Place.nodes, Code.weight] using weightWithin_pos inside,
      fun whole => absurd whole Bool.false_ne_true⟩
  | literal found | read found | builtin found =>
    obtain ⟨below, rfl, -⟩ := deeper deep
    exact weighs_expr (.exactly rfl : Code.nil.Weighs 0) found rfl rfl rfl
  | delete found | release found | brk found | cont found =>
    obtain ⟨below, rfl, -⟩ := deeper deep
    exact weighs_stmt (.exactly rfl : Code.nil.Weighs 0) found rfl rfl rfl
  | call found _ _ first second =>
    obtain ⟨below, rfl, inner⟩ := deeper deep
    rw [List.length_append] at inner
    have callee := first (Nat.le_of_add_right_le inner)
    have args := second (Nat.le_of_add_left_le inner)
    exact weighs_expr (callee.beside args) found (by simp [Place.nodes, Expr.operands])
      (Nat.add_assoc 1 _ _) rfl
  | eval found _ ih =>
    obtain ⟨below, rfl, inner⟩ := deeper deep
    exact weighs_expr (ih inner) found rfl rfl rfl
  | block found _ ih | loop found _ ih =>
    obtain ⟨below, rfl, inner⟩ := deeper deep
    exact weighs_stmt (ih inner) found (by simp [Place.nodes, Stmt.operands, Stmt.children]) rfl rfl
  | assign found _ ih | effect found _ ih | ret found _ ih =>
    obtain ⟨below, rfl, inner⟩ := deeper deep
    exact weighs_stmt (ih inner) found rfl rfl rfl
  | branch found _ _ _ first second third =>
    obtain ⟨below, rfl, inner⟩ := deeper deep
    simp only [List.length_append] at inner
    have cond := first (Nat.le_of_add_right_le inner)
    have yes := second (Nat.le_of_add_right_le (Nat.le_of_add_left_le inner))
    have no := third (Nat.le_of_add_left_le (Nat.le_of_add_left_le inner))
    refine weighs_stmt (cond.beside (yes.beside no)) found ?_ ?_ rfl
    · simp [Place.nodes, Stmt.operands, Stmt.children]
    · simp only [Code.weight, Node.cost, Nat.add_assoc]

section Body

variable {node : Option NodeId} {class_ : NodeClass}
  (shows_ : arena.Shows (.maybe class_ node) code) (nodup : code.ids.Nodup)
include shows_ nodup

theorem weight_body : code.Weighs (arena.weight node) := by
  have within := shows_.weight_within (shows_.length_le nodup)
  cases node <;> simpa [Place.nodes, weight] using within

/-- A tree weighs no more than the arena does at its place. -/
theorem weight_le : code.weight ≤ arena.weight node := (shows_.weight_body nodup).least

/-- A whole tree weighs what the arena weighs at its place. -/
theorem weight_eq (whole : code.isWhole = true) : arena.weight node = code.weight :=
  (shows_.weight_body nodup).whole whole

end Body

end Shows

end Arena

end ValueFlow
