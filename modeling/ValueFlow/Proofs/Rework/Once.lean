import ValueFlow.Proofs.Normal.Statement
import ValueFlow.Proofs.Rework.Original
import ValueFlow.Proofs.Tree.Weight

/-!
# Nodes that are met once

Going down from a node some levels, one meets nodes, each as often as there are ways to it
(`Arena.met`). If none is met twice, however many levels one goes down, the nodes form a tree
(`Arena.MeetsOnce`). The classes that places demand do not matter for this, while the tree that an
arena shows ends at a node of the wrong class. So nodes that are met once form a tree that the arena
shows, if all ids are in range (`Arena.MeetsOnce.exists_shows`), and the nodes of a tree that the
arena shows are met once if the tree is whole (`Arena.Shows.meetsOnce`).
-/

namespace ValueFlow
set_option autoImplicit false

/-- A normal tree is whole. -/
theorem Code.IsNormal.isWhole {code : Code} (normal : code.IsNormal) : code.isWhole = true := by
  induction code with
  | call _ _ _ first second => exact Bool.and_eq_true_iff.2 ⟨first normal.1, second normal.2⟩
  | eval _ _ ih => exact ih normal
  | block _ _ ih => exact ih normal.2
  | assign _ _ _ _ ih => exact ih normal
  | effect _ _ ih => exact ih normal.2
  | branch _ _ _ _ first second third =>
    obtain ⟨-, -, cond, yes, no⟩ := normal
    exact Bool.and_eq_true_iff.2 ⟨first cond, Bool.and_eq_true_iff.2 ⟨second yes, third no⟩⟩
  | loop _ _ ih => exact ih normal.2
  | ret _ _ ih => exact ih normal
  | cons _ _ first second => exact Bool.and_eq_true_iff.2 ⟨first normal.2.2.1, second normal.2.2.2⟩
  | hole => exact normal.elim
  | _ => rfl

namespace Arena

/-- The nodes that the node under an id refers to. -/
def references (arena : Arena) (id : NodeId) : List NodeId := (arena.node? id).elim [] Node.references

/-- What is met on the first `depth` levels below an id, each node once for every way to it. -/
def met (arena : Arena) : Nat → NodeId → List NodeId
  | 0, id => [id]
  | depth + 1, id => id :: (arena.references id).flatMap (arena.met depth)

/-- Nothing is met twice below the id. -/
def MeetsOnce (arena : Arena) (id : NodeId) : Prop := ∀ depth, (arena.met depth id).Nodup

/-- All ids below the root are in range. -/
def InRange (arena : Arena) (root : NodeId) : Prop := ∀ id, Relation.ReflTransGen arena.Leads root id → id < arena.size

variable {arena : Arena} {id other : NodeId} {ids : List NodeId} {node : Option NodeId}
  {class_ : NodeClass} {place : Place} {code : Code} {depth : Nat}

/-- Where every node has a higher id than the nodes below it, all ids below a node are in range. -/
theorem inRange_of_descends
    (descends : ∀ id < arena.size, ∀ node ∈ arena.node? id, ∀ place ∈ node.below, place.2 < id)
    (inside : id < arena.size) : arena.InRange id := by
  intro other reached
  induction reached with
  | refl => exact inside
  | tail _ leads ih =>
    obtain ⟨node, class_, found, mem⟩ := leads
    exact Nat.lt_trans (descends _ ih node found (class_, _) mem) ih

theorem references_stmt {stmt : Stmt} (found : arena.stmt? id = some stmt) :
    arena.references id = stmt.operands ++ stmt.children := by
  rw [references, stmt?_eq_some.1 found]
  rfl

theorem references_expr {expr : Expr} (found : arena.expr? id = some expr) :
    arena.references id = expr.operands := by
  rw [references, expr?_eq_some.1 found]
  rfl

theorem leads_of_mem_references (mem : other ∈ arena.references id) : arena.Leads id other := by
  unfold references at mem
  cases found : arena.node? id with
  | none =>
    rw [found] at mem
    cases mem
  | some node =>
    rw [found] at mem
    cases node with
    | stmt held =>
      rcases List.mem_append.1 mem with operand | child
      · exact leads_of_operand (stmt?_eq_some.2 found) operand
      · exact leads_of_mem_children (stmt?_eq_some.2 found) child
    | expr held => exact Operand.leads ⟨held, expr?_eq_some.2 found, mem⟩

section Trees

/-- A tree stands at the place, and all of its nodes are met from the ids of the place. -/
def Grows (arena : Arena) (depth : Nat) (place : Place) : Prop :=
  ∃ code, arena.Shows place code ∧ code.ids.Sublist (place.nodes.flatMap (arena.met depth))

theorem grows_row (each : ∀ id ∈ ids, arena.Grows depth (.one class_ id)) :
    arena.Grows depth (.row class_ ids) := by
  induction ids with
  | nil => exact ⟨.nil, .nil, List.nil_sublist _⟩
  | cons id rest ih =>
    obtain ⟨head, here, first⟩ := each id List.mem_cons_self
    obtain ⟨tail, others, second⟩ := ih fun other mem => each other (List.mem_cons_of_mem _ mem)
    refine ⟨.cons head tail, .cons here others, ?_⟩
    simpa [Place.nodes, Code.ids] using first.append second

theorem grows_maybe (each : ∀ id ∈ node, arena.Grows depth (.one class_ id)) :
    arena.Grows depth (.maybe class_ node) := by
  cases node with
  | none => exact ⟨.nil, .absent, List.nil_sublist _⟩
  | some id =>
    obtain ⟨code, here, first⟩ := each id rfl
    exact ⟨code, .present here, first⟩

/-- The node above a tree is met first. -/
theorem grows_above {inner : List NodeId} (shows_ : arena.Shows (.one class_ id) code)
    (ids : code.ids = id :: inner)
    (sub : inner.Sublist ((arena.references id).flatMap (arena.met depth))) :
    arena.Grows (depth + 1) (.one class_ id) :=
  ⟨code, shows_, by simpa [Place.nodes, ids, met] using sub.cons_cons id⟩

theorem grows_expr (inside : id < arena.size)
    (below : ∀ other ∈ arena.references id, arena.Grows depth (.one .expr other)) :
    arena.Grows (depth + 1) (.one .expr id) := by
  cases found : arena.expr? id with
  | none => exact grows_above (.hole inside found) rfl (List.nil_sublist _)
  | some expr =>
    have named := references_expr found
    rw [named] at below
    cases expr with
    | literal value => exact grows_above (.literal found) rfl (List.nil_sublist _)
    | read var note => exact grows_above (.read found) rfl (List.nil_sublist _)
    | builtin name => exact grows_above (.builtin found) rfl (List.nil_sublist _)
    | call callee args =>
      obtain ⟨calleeCode, calleeShows, first⟩ := below callee List.mem_cons_self
      obtain ⟨argsCode, argsShows, second⟩ :=
        grows_row fun arg mem => below arg (List.mem_cons_of_mem _ mem)
      refine grows_above (.call found calleeShows argsShows) rfl ?_
      rw [named]
      simpa [Place.nodes, Expr.operands] using first.append second
    | eval source =>
      obtain ⟨sourceCode, sourceShows, first⟩ := below source (List.mem_singleton_self _)
      refine grows_above (.eval found sourceShows) rfl ?_
      rw [named]
      exact first

theorem grows_stmt (inside : id < arena.size)
    (below : ∀ class_, ∀ other ∈ arena.references id, arena.Grows depth (.one class_ other)) :
    arena.Grows (depth + 1) (.one .stmt id) := by
  cases found : arena.stmt? id with
  | none => exact grows_above (.hole inside found) rfl (List.nil_sublist _)
  | some stmt =>
    have named := references_stmt found
    rw [named] at below
    have operand (other : NodeId) (mem : other ∈ stmt.operands) :=
      below .expr other (List.mem_append_left _ mem)
    have child (other : NodeId) (mem : other ∈ stmt.children) :=
      below .stmt other (List.mem_append_right _ mem)
    cases stmt with
    | block stmts =>
      obtain ⟨row, rowShows, first⟩ := grows_row child
      exact grows_above (.block found rowShows) rfl (named ▸ first)
    | assign target value note =>
      obtain ⟨valueCode, valueShows, first⟩ := operand value (List.mem_singleton_self _)
      exact grows_above (.assign found valueShows) rfl (named ▸ first)
    | delete target tolerant note => exact grows_above (.delete found) rfl (List.nil_sublist _)
    | release target => exact grows_above (.release found) rfl (List.nil_sublist _)
    | effect expr =>
      obtain ⟨exprCode, exprShows, first⟩ := operand expr (List.mem_singleton_self _)
      exact grows_above (.effect found exprShows) rfl (named ▸ first)
    | branch cond yes no =>
      obtain ⟨condCode, condShows, first⟩ := operand cond (List.mem_singleton_self _)
      obtain ⟨yesCode, yesShows, second⟩ := grows_maybe fun arm (mem : arm ∈ yes) =>
        child arm (List.mem_append_left _ (Option.mem_toList.2 mem))
      obtain ⟨noCode, noShows, third⟩ := grows_maybe fun arm (mem : arm ∈ no) =>
        child arm (List.mem_append_right _ (Option.mem_toList.2 mem))
      refine grows_above (.branch found condShows yesShows noShows) rfl ?_
      rw [named]
      simpa [Place.nodes, Stmt.operands, Stmt.children] using first.append (second.append third)
    | loop body =>
      obtain ⟨bodyCode, bodyShows, first⟩ := grows_maybe fun inner (mem : inner ∈ body) =>
        child inner (Option.mem_toList.2 mem)
      exact grows_above (.loop found bodyShows) rfl (named ▸ first)
    | brk => exact grows_above (.brk found) rfl (List.nil_sublist _)
    | cont => exact grows_above (.cont found) rfl (List.nil_sublist _)
    | ret value =>
      obtain ⟨valueCode, valueShows, first⟩ := grows_maybe fun inner (mem : inner ∈ value) =>
        operand inner (Option.mem_toList.2 mem)
      refine grows_above (.ret found valueShows) rfl ?_
      rw [named]
      simpa [Place.nodes, Stmt.operands, Stmt.children] using first

/-- A tree stands wherever all ids below are in range and no way down is endless. -/
theorem grows_of_inside (nests : NestsWithin arena.Leads depth id) (inside : arena.InRange id) :
    ∀ class_, arena.Grows depth (.one class_ id) := by
  induction depth generalizing id with
  | zero => exact nests.elim
  | succ depth ih =>
    have below (class_ : NodeClass) (other : NodeId) (mem : other ∈ arena.references id) :
        arena.Grows depth (.one class_ other) := by
      have leads := leads_of_mem_references mem
      exact ih (nests other leads) (fun last reached => inside last (.head leads reached)) class_
    intro class_
    cases class_ with
    | expr => exact grows_expr (inside id .refl) (below .expr)
    | stmt => exact grows_stmt (inside id .refl) below

/-- Nodes that are met once form a tree that the arena shows, if all ids are in range. -/
theorem MeetsOnce.exists_shows (once : arena.MeetsOnce id) (acyclic : arena.Acyclic)
    (inside : arena.InRange id) (class_ : NodeClass) :
    ∃ code, arena.Shows (.one class_ id) code ∧ code.ids.Nodup := by
  obtain ⟨code, shows_, sub⟩ :=
    grows_of_inside (acyclic.nestsWithin fun leads => leads) inside class_
  exact ⟨code, shows_, List.Nodup.sublist (by simpa [Place.nodes] using sub) (once _)⟩

end Trees

section Shown

/-- What is met below a node is what is met below those that it refers to, and the node itself. -/
theorem met_sublist {inner : List NodeId}
    (below : ∀ depth, ((arena.references id).flatMap (arena.met depth)).Sublist inner)
    (depth : Nat) :
    (arena.met depth id).Sublist (id :: inner) := by
  cases depth with
  | zero => exact (List.nil_sublist inner).cons_cons id
  | succ depth => exact (below depth).cons_cons id

theorem met_sublist_stmt {stmt : Stmt} {inner : List NodeId} (found : arena.stmt? id = some stmt)
    (below : ∀ depth, ((stmt.operands ++ stmt.children).flatMap (arena.met depth)).Sublist inner)
    (depth : Nat) :
    ([id].flatMap (arena.met depth)).Sublist (id :: inner) := by
  simpa using met_sublist (references_stmt found ▸ below) depth

theorem met_sublist_expr {expr : Expr} {inner : List NodeId} (found : arena.expr? id = some expr)
    (below : ∀ depth, (expr.operands.flatMap (arena.met depth)).Sublist inner) (depth : Nat) :
    ([id].flatMap (arena.met depth)).Sublist (id :: inner) := by
  simpa using met_sublist (references_expr found ▸ below) depth

/-- Everything that is met is in the tree, if the tree is whole. -/
theorem Shows.met_sublist (shows_ : arena.Shows place code) (whole : code.isWhole = true) :
    ∀ depth, (place.nodes.flatMap (arena.met depth)).Sublist code.ids := by
  induction shows_ with
  | literal found => exact met_sublist_expr found fun _ => List.nil_sublist _
  | read found => exact met_sublist_expr found fun _ => List.nil_sublist _
  | builtin found => exact met_sublist_expr found fun _ => List.nil_sublist _
  | call found _ _ first second =>
    obtain ⟨wholeCallee, wholeArgs⟩ := Bool.and_eq_true_iff.1 whole
    refine met_sublist_expr found fun depth => ?_
    simpa [Place.nodes, Expr.operands] using (first wholeCallee depth).append
      (second wholeArgs depth)
  | eval found _ ih => exact met_sublist_expr found (ih whole)
  | block found _ ih => exact met_sublist_stmt found (ih whole)
  | assign found _ ih => exact met_sublist_stmt found (ih whole)
  | delete found => exact met_sublist_stmt found fun _ => List.nil_sublist _
  | release found => exact met_sublist_stmt found fun _ => List.nil_sublist _
  | effect found _ ih => exact met_sublist_stmt found (ih whole)
  | branch found _ _ _ first second third =>
    simp only [Code.isWhole, Bool.and_eq_true] at whole
    refine met_sublist_stmt found fun depth => ?_
    simpa [Place.nodes, Stmt.operands, Stmt.children] using (first whole.1 depth).append
      ((second whole.2.1 depth).append (third whole.2.2 depth))
  | loop found _ ih => exact met_sublist_stmt found (ih whole)
  | brk found => exact met_sublist_stmt found fun _ => List.nil_sublist _
  | cont found => exact met_sublist_stmt found fun _ => List.nil_sublist _
  | ret found _ ih =>
    refine met_sublist_stmt found fun depth => ?_
    simpa [Place.nodes, Stmt.operands, Stmt.children] using ih whole depth
  | hole => cases whole
  | nil => exact fun _ => List.nil_sublist _
  | cons _ _ first second =>
    obtain ⟨wholeHead, wholeTail⟩ := Bool.and_eq_true_iff.1 whole
    intro depth
    simpa [Place.nodes, Code.ids] using (first wholeHead depth).append (second wholeTail depth)
  | absent => exact fun _ => List.nil_sublist _
  | present _ ih => exact ih whole

/-- The nodes of a whole tree are met once. -/
theorem Shows.meetsOnce (shows_ : arena.Shows (.one class_ id) code) (whole : code.isWhole = true)
    (nodup : code.ids.Nodup) :
    arena.MeetsOnce id := by
  intro depth
  have sub := shows_.met_sublist whole depth
  exact List.Nodup.sublist (by simpa [Place.nodes] using sub) nodup

end Shown

end Arena

end ValueFlow
