import Mathlib.Data.Finset.Card
import Mathlib.Data.Finset.Range
import Mathlib.Logic.Relation
import ValueFlow.Proofs.Arena.Region
import ValueFlow.Proofs.Tree.Shows

/-!
# Well-formed bodies

A body is well formed if no node below it lies below itself, every position below it holds a node of
the class that is demanded there, the bodies of loops are blocks, the variables that are named are
registered with their fallbacks, and no break or continue is reached outside of a loop
(`Arena.WellFormed`). Nodes may be shared.

That is a demand on all ways down from the body. A `Layout` turns it into a demand on each node for
itself: it says at which positions nodes stand, gives each a rank above the ranks of those below it,
and says which are reached outside of loops. An arena that keeps to a layout (`Arena.Laid`) may be
checked where it is edited and nowhere else, and a body is well formed exactly if some layout has it
(`WellFormed.laid`, `Laid.wellFormed`).
-/

namespace ValueFlow
set_option autoImplicit false

/-- The variable is registered, and so is the one that is read where it is unbound, if it names
one. -/
def Variables.Knows (vars : Variables) (var : VarId) : Prop :=
  ∃ slot, vars.get? var = some slot ∧ ∀ other ∈ slot.storage.fallback?, (vars.get? other).isSome

instance (vars : Variables) (var : VarId) : Decidable (vars.Knows var) :=
  decidable_of_iff (((vars.get? var).any fun slot => slot.storage.fallback?.all fun other => (vars.get? other).isSome) = true) <| by
    simp [Variables.Knows, Option.any_eq_true, Option.all_eq_true]

namespace Node

/-- The class of a node. -/
def class_ : Node → NodeClass
  | .stmt _ => .stmt
  | .expr _ => .expr

/-- The positions directly below a node, with the classes that they demand. -/
def below : Node → List (NodeClass × NodeId)
  | .stmt held => held.children.map (.stmt, ·) ++ held.operands.map (.expr, ·)
  | .expr held => held.operands.map (.expr, ·)

/-- The variable that a node names. -/
def named : Node → Option VarId
  | .stmt (.release target) => some target
  | .stmt held => held.target?
  | .expr (.read var _) => some var
  | .expr _ => none

/-- The node is a loop. -/
def isLoop : Node → Bool
  | .stmt (.loop _) => true
  | _ => false

/-- The body of a loop. -/
def body? : Node → Option NodeId
  | .stmt (.loop body) => body
  | _ => none

theorem mem_below_of_body? {node : Node} {inner : NodeId} (mem : inner ∈ node.body?) :
    (.stmt, inner) ∈ node.below := by
  cases node with
  | expr held => cases mem
  | stmt held =>
    cases held with
    | loop body => exact List.mem_append_left _ (List.mem_map_of_mem (Option.mem_toList.2 mem))
    | _ => cases mem

/-- The node is a break or a continue. -/
def leavesRound : Node → Bool
  | .stmt .brk => true
  | .stmt .cont => true
  | _ => false

/-- The node is a block. -/
def isBlock : Node → Bool
  | .stmt (.block _) => true
  | _ => false

end Node

namespace Arena

variable (arena : Arena)

/-- A node of this class stands under the id. -/
def Holds (class_ : NodeClass) (id : NodeId) : Prop := ∃ node, arena.node? id = some node ∧ node.class_ = class_

/-- A node has another one directly below it. -/
def Leads (id other : NodeId) : Prop := ∃ node class_, arena.node? id = some node ∧ (class_, other) ∈ node.below

/-- A node that is no loop has another one directly below it. -/
def LeadsOutside (id other : NodeId) : Prop :=
  ∃ node class_, arena.node? id = some node ∧ (class_, other) ∈ node.below ∧ node.isLoop = false

/-- Everything below the body is as it should be. -/
structure WellFormed (vars : Variables) (body : NodeId) : Prop where
  isStmt : arena.Holds .stmt body
  acyclic : ∀ id, Relation.ReflTransGen arena.Leads body id → ¬ Relation.TransGen arena.Leads id id
  classes : ∀ id node, Relation.ReflTransGen arena.Leads body id → arena.node? id = some node →
    ∀ place ∈ node.below, arena.Holds place.1 place.2
  bodies : ∀ id node, Relation.ReflTransGen arena.Leads body id → arena.node? id = some node →
    ∀ inner ∈ node.body?, (arena.block? inner).isSome
  registered : ∀ id node, Relation.ReflTransGen arena.Leads body id → arena.node? id = some node →
    ∀ var ∈ node.named, vars.Knows var
  exits : ∀ id node, Relation.ReflTransGen arena.LeadsOutside body id → arena.node? id = some node → node.leavesRound = false

end Arena

/-- Where nodes stand, how high, which of them are reached outside of loops, and which have to be
blocks. -/
structure Layout where
  places : NodeClass → NodeId → Prop
  rank : NodeId → Nat
  outside : NodeId → Prop
  blocks : NodeId → Prop

/-- A position lies below an id. -/
structure Layout.Under (layout : Layout) (id : NodeId) (class_ : NodeClass) (child : NodeId) : Prop where
  place : layout.places class_ child
  lower : layout.rank child < layout.rank id

/-- The node may stand under the id. -/
structure Layout.Admits (layout : Layout) (vars : Variables) (id : NodeId) (node : Node) : Prop where
  below : ∀ place ∈ node.below, layout.Under id place.1 place.2
  onward : layout.outside id → node.isLoop = false → ∀ place ∈ node.below, layout.outside place.2
  exits : layout.outside id → node.leavesRound = false
  bodies : ∀ inner ∈ node.body?, layout.blocks inner
  registered : ∀ var ∈ node.named, vars.Knows var

/-- The arena keeps to the layout. -/
structure Arena.Laid (arena : Arena) (vars : Variables) (layout : Layout) : Prop where
  node : ∀ class_ id, layout.places class_ id → ∃ node, arena.node? id = some node ∧ node.class_ = class_ ∧ layout.Admits vars id node
  blocks : ∀ id, layout.blocks id → (arena.block? id).isSome
  room : ∀ class_ id, layout.places class_ id → layout.rank id ≤ arena.size

namespace Arena

variable {arena : Arena} {vars : Variables} {layout : Layout} {class_ : NodeClass}
  {body id other : NodeId}

section Heights

open Classical in
/-- The nodes that lie below an id. -/
noncomputable def allBelow (arena : Arena) (id : NodeId) : Finset NodeId :=
  (Finset.range arena.size).filter (Relation.TransGen arena.Leads id)

theorem mem_allBelow :
    other ∈ arena.allBelow id ↔ other < arena.size ∧ Relation.TransGen arena.Leads id other := by
  simp [allBelow]

/-- Where nothing lies below itself, fewer nodes lie below a node than below the one above it. -/
theorem card_allBelow_lt (leads : arena.Leads id other) (inside : other < arena.size)
    (acyclic : ¬ Relation.TransGen arena.Leads other other) :
    (arena.allBelow other).card < (arena.allBelow id).card := by
  refine Finset.card_lt_card
    (Finset.ssubset_iff_of_subset (fun last mem => ?_) |>.2 ⟨other, ?_, ?_⟩)
  · obtain ⟨lt, below⟩ := mem_allBelow.1 mem
    exact mem_allBelow.2 ⟨lt, .head leads below⟩
  · exact mem_allBelow.2 ⟨inside, .single leads⟩
  · exact fun mem => acyclic (mem_allBelow.1 mem).2

open Classical in
theorem card_allBelow_le : (arena.allBelow id).card ≤ arena.size := by
  have le := Finset.card_le_card
    (Finset.filter_subset (Relation.TransGen arena.Leads id) (Finset.range arena.size))
  rwa [Finset.card_range] at le

end Heights

theorem Holds.lt_size (holds : arena.Holds class_ id) : id < arena.size := by
  obtain ⟨node, found, -⟩ := holds
  exact lt_size_of_node? found

/-- What lies below a well-formed body can be laid out. -/
theorem WellFormed.laid (wellFormed : arena.WellFormed vars body) :
    ∃ layout, arena.Laid vars layout ∧ layout.places .stmt body ∧ layout.outside body := by
  refine ⟨{
    places := fun class_ id => Relation.ReflTransGen arena.Leads body id ∧ arena.Holds class_ id
    rank := fun id => (arena.allBelow id).card
    outside := fun id => Relation.ReflTransGen arena.LeadsOutside body id
    blocks := fun id => (arena.block? id).isSome }, ?_, ⟨.refl, wellFormed.isStmt⟩, .refl⟩
  refine ⟨?_, fun _ held => held, fun _ _ _ => card_allBelow_le⟩
  rintro class_ id ⟨reached, node, found, same⟩
  refine ⟨node, found, same, ?_, fun outside flat place mem => ?_, fun outside => ?_, ?_, ?_⟩
  · intro place mem
    have leads : arena.Leads id place.2 := ⟨node, place.1, found, mem⟩
    have holds := wellFormed.classes id node reached found place mem
    exact ⟨⟨reached.tail leads, holds⟩,
      card_allBelow_lt leads holds.lt_size (wellFormed.acyclic _ (reached.tail leads))⟩
  · exact Relation.ReflTransGen.tail outside ⟨node, place.1, found, mem, flat⟩
  · exact wellFormed.exits id node outside found
  · exact wellFormed.bodies id node reached found
  · exact wellFormed.registered id node reached found

namespace Laid

variable (laid : arena.Laid vars layout)

include laid

/-- The node that stands at a position. -/
theorem admits {node : Node} (place : layout.places class_ id)
    (found : arena.node? id = some node) :
    node.class_ = class_ ∧ layout.Admits vars id node := by
  obtain ⟨held, again, same, admits⟩ := laid.node class_ id place
  obtain rfl := Option.some.inj (found.symm.trans again)
  exact ⟨same, admits⟩

theorem stmt (place : layout.places .stmt id) :
    ∃ stmt, arena.stmt? id = some stmt ∧ layout.Admits vars id (.stmt stmt) := by
  obtain ⟨node, found, same, admits⟩ := laid.node .stmt id place
  cases node with
  | stmt held => exact ⟨held, stmt?_eq_some.2 found, admits⟩
  | expr held => cases same

theorem expr (place : layout.places .expr id) :
    ∃ expr, arena.expr? id = some expr ∧ layout.Admits vars id (.expr expr) := by
  obtain ⟨node, found, same, admits⟩ := laid.node .expr id place
  cases node with
  | stmt held => cases same
  | expr held => exact ⟨held, expr?_eq_some.2 found, admits⟩

theorem lt_size (place : layout.places class_ id) : id < arena.size := by
  obtain ⟨node, found, -⟩ := laid.node class_ id place
  exact lt_size_of_node? found

/-- Whatever is below a position stands at a position below it. -/
theorem under_of_leads (place : layout.places class_ id) (leads : arena.Leads id other) :
    ∃ inner, layout.Under id inner other := by
  obtain ⟨node, inner, found, mem⟩ := leads
  exact ⟨inner, (laid.admits place found).2.below _ mem⟩

theorem place_of_reached (place : layout.places class_ id)
    (reached : Relation.ReflTransGen arena.Leads id other) :
    ∃ inner, layout.places inner other := by
  induction reached with
  | refl => exact ⟨class_, place⟩
  | tail _ leads ih =>
    obtain ⟨inner, held⟩ := ih
    obtain ⟨last, under⟩ := laid.under_of_leads held leads
    exact ⟨last, under.place⟩

/-- Below a position the ranks fall. -/
theorem rank_lt_of_below (place : layout.places class_ id)
    (below : Relation.TransGen arena.Leads id other) :
    (∃ inner, layout.places inner other) ∧ layout.rank other < layout.rank id := by
  induction below with
  | single leads =>
    obtain ⟨inner, under⟩ := laid.under_of_leads place leads
    exact ⟨⟨inner, under.place⟩, under.lower⟩
  | tail _ leads ih =>
    obtain ⟨⟨inner, held⟩, lower⟩ := ih
    obtain ⟨last, under⟩ := laid.under_of_leads held leads
    exact ⟨⟨last, under.place⟩, Nat.lt_trans under.lower lower⟩

theorem outside_of_reached (place : layout.places class_ id) (outside : layout.outside id)
    (reached : Relation.ReflTransGen arena.LeadsOutside id other) :
    (∃ inner, layout.places inner other) ∧ layout.outside other := by
  induction reached with
  | refl => exact ⟨⟨class_, place⟩, outside⟩
  | tail _ leads ih =>
    obtain ⟨⟨inner, held⟩, out⟩ := ih
    obtain ⟨node, last, found, mem, flat⟩ := leads
    have admits := (laid.admits held found).2
    exact ⟨⟨last, (admits.below _ mem).place⟩, admits.onward out flat _ mem⟩

/-- The variables written below a position are registered. -/
theorem knows_of_written (place : layout.places .stmt id) :
    ∀ var ∈ arena.variablesWritten id, vars.Knows var := by
  let region : Region := {
    stmts := fun id => layout.places .stmt id ∨ arena.size ≤ id
    exprs := fun id => layout.places .expr id ∨ arena.size ≤ id
    writes := vars.Knows
    calls := True }
  have encloses : region.Encloses arena := {
    beyond := fun id past => ⟨.inr past, .inr past⟩
    stmt := by
      intro id stmt mem found
      have held := mem.resolve_right (Nat.not_le_of_lt (lt_size_of_stmt? found))
      have admits := (laid.admits held (stmt?_eq_some.1 found)).2
      refine ⟨fun child mem => .inl (admits.below (.stmt, child) ?_).place, fun operand mem =>
        .inl (admits.below (.expr, operand) ?_).place, fun var target => admits.registered var ?_⟩
      · exact List.mem_append_left _ (List.mem_map_of_mem mem)
      · exact List.mem_append_right _ (List.mem_map_of_mem mem)
      · cases stmt with
        | release => cases target
        | _ => exact target
    expr := by
      intro id expr mem found
      have held := mem.resolve_right (Nat.not_le_of_lt (lt_size_of_expr? found))
      have admits := (laid.admits held (expr?_eq_some.1 found)).2
      exact ⟨fun operand mem =>
        .inl (admits.below (.expr, operand) (List.mem_map_of_mem mem)).place, fun _ => trivial⟩ }
  exact encloses.variablesWritten (.inl place)

/-- A body that an arena has laid out is well formed. -/
theorem wellFormed (place : layout.places .stmt body) (outside : layout.outside body) :
    arena.WellFormed vars body where
  isStmt := by
    obtain ⟨node, found, same, -⟩ := laid.node .stmt body place
    exact ⟨node, found, same⟩
  acyclic id reached cycle := by
    obtain ⟨inner, held⟩ := laid.place_of_reached place reached
    exact Nat.lt_irrefl _ (laid.rank_lt_of_below held cycle).2
  classes id node reached found below mem := by
    obtain ⟨inner, held⟩ := laid.place_of_reached place reached
    obtain ⟨child, again, same, -⟩ :=
      laid.node _ _ ((laid.admits held found).2.below below mem).place
    exact ⟨child, again, same⟩
  bodies id node reached found inner mem := by
    obtain ⟨_, held⟩ := laid.place_of_reached place reached
    exact laid.blocks inner ((laid.admits held found).2.bodies inner mem)
  registered id node reached found := by
    obtain ⟨_, held⟩ := laid.place_of_reached place reached
    exact (laid.admits held found).2.registered
  exits id node reached found := by
    obtain ⟨⟨_, held⟩, out⟩ := laid.outside_of_reached place outside reached
    exact (laid.admits held found).2.exits out

end Laid

/-- A body whose nodes stand above all that is below them is well formed if each node by itself is
as it should be. What is reached outside of loops may be given with room to spare. -/
theorem wellFormed_of_ordered {arena : Arena} {vars : Variables} {body : NodeId}
    {outside : NodeId → Bool} (isStmt : (arena.stmt? body).isSome) (out : outside body = true)
    (each : ∀ id < arena.size, ∀ node ∈ arena.node? id,
      (∀ place ∈ node.below, place.2 < id ∧ (arena.node? place.2).map Node.class_ = some place.1) ∧
      (outside id = true → node.leavesRound = false ∧
        (node.isLoop = false → ∀ place ∈ node.below, outside place.2 = true)) ∧
      (∀ inner ∈ node.body?, (arena.block? inner).isSome) ∧ ∀ var ∈ node.named, vars.Knows var) :
    arena.WellFormed vars body := by
  let layout : Layout := {
    places := arena.Holds
    rank := fun id => id
    outside := fun id => outside id = true
    blocks := fun id => (arena.block? id).isSome }
  have laid : arena.Laid vars layout := by
    refine ⟨?_, fun _ held => held, fun _ _ holds => Nat.le_of_lt holds.lt_size⟩
    rintro class_ id ⟨node, found, same⟩
    obtain ⟨below, onward, bodies, registered⟩ := each id (lt_size_of_node? found) node found
    refine ⟨node, found, same, fun place mem => ?_, fun held => (onward held).2,
      fun held => (onward held).1, bodies, registered⟩
    obtain ⟨lower, holds⟩ := below place mem
    exact ⟨Option.map_eq_some_iff.1 holds, lower⟩
  obtain ⟨stmt, found⟩ := Option.isSome_iff_exists.1 isStmt
  exact Laid.wellFormed laid ⟨.stmt stmt, stmt?_eq_some.1 found, rfl⟩ out

end Arena

end ValueFlow
