import Mathlib.Data.List.Nodup
import ValueFlow.Proofs.Tree.Shows

/-!
# What a walk changes in its arena

The walk of a tree changes nodes of the tree only, and adds some. What it leaves is made of these:
every id of what is left was one of the tree's or is new, and none occurs twice. So the tree beside
it stays as it is (`Arena.Changes.keep`), and what two walks leave side by side is as good as what
one leaves (`Arena.Changes.append`).
-/

namespace ValueFlow
set_option autoImplicit false

namespace Arena

/-- Nodes of some ids were changed and others were added. What is left has new ids and old ones. -/
structure Changes (before : Arena) (old : List NodeId) (after : Arena) (left : List NodeId) : Prop where
  grown : before.size ≤ after.size
  frame : ∀ id < before.size, id ∉ old → after.node? id = before.node? id
  inside : ∀ id ∈ left, id < after.size
  own : ∀ id ∈ left, id ∈ old ∨ before.size ≤ id
  nodup : left.Nodup

variable {before middle after arena : Arena} {place : Place} {class_ : NodeClass} {id : NodeId}
  {code : Code} {old left more rest other : List NodeId}

namespace Changes

/-- Nothing was changed. -/
theorem refl (inside : ∀ id ∈ old, id < before.size) (nodup : old.Nodup) :
    before.Changes old before old where
  grown := Nat.le_refl _
  frame _ _ _ := rfl
  inside := inside
  own _ mem := .inl mem
  nodup := nodup

/-- Less may be left. -/
theorem sublist (changes : before.Changes old after left) (sub : rest.Sublist left) :
    before.Changes old after rest where
  grown := changes.grown
  frame := changes.frame
  inside id mem := changes.inside id (sub.subset mem)
  own id mem := changes.own id (sub.subset mem)
  nodup := changes.nodup.sublist sub

/-- More may count as changed. -/
theorem widen (changes : before.Changes old after left) (sub : old ⊆ more) :
    before.Changes more after left where
  grown := changes.grown
  frame id lt free := changes.frame id lt fun mem => free (sub mem)
  inside := changes.inside
  own id mem := (changes.own id mem).imp_left (sub ·)
  nodup := changes.nodup

/-- What a walk left was changed once more. -/
theorem trans (first : before.Changes old middle left) (second : middle.Changes left after rest) :
    before.Changes old after rest where
  grown := Nat.le_trans first.grown second.grown
  frame id lt free := by
    have beside : id ∉ left := fun mem => (first.own id mem).elim free (Nat.not_le_of_lt lt)
    rw [second.frame id (Nat.lt_of_lt_of_le lt first.grown) beside, first.frame id lt free]
  inside := second.inside
  own id mem := (second.own id mem).elim (first.own id) fun new =>
    .inr (Nat.le_trans first.grown new)
  nodup := second.nodup

/-- A tree beside the changed nodes stays. -/
theorem keep (changes : before.Changes old after left) (shows_ : before.Shows place code)
    (apart : code.ids.Disjoint old) :
    after.Shows place code :=
  shows_.congr changes.grown fun id mem => changes.frame id (shows_.inside id mem) (apart mem)

/-- Two walks side by side. What the first one left, the second one did not touch. -/
theorem append (first : before.Changes old middle left) (second : middle.Changes more after rest)
    (inside : ∀ id ∈ more, id < before.size) (apart : old.Disjoint more) :
    before.Changes (old ++ more) after (left ++ rest) where
  grown := Nat.le_trans first.grown second.grown
  frame id lt free := by
    rw [List.mem_append, not_or] at free
    rw [second.frame id (Nat.lt_of_lt_of_le lt first.grown) free.2, first.frame id lt free.1]
  inside id mem := by
    rcases List.mem_append.1 mem with mem | mem
    · exact Nat.lt_of_lt_of_le (first.inside id mem) second.grown
    · exact second.inside id mem
  own id mem := by
    rcases List.mem_append.1 mem with mem | mem
    · exact (first.own id mem).imp_left (List.mem_append_left _)
    · exact (second.own id mem).imp (List.mem_append_right _) (Nat.le_trans first.grown)
  nodup := by
    refine List.nodup_append.2 ⟨first.nodup, second.nodup, ?_⟩
    rintro id memFirst _ memSecond rfl
    have lt := first.inside id memFirst
    rcases second.own id memSecond with known | added
    · rcases first.own id memFirst with held | new
      · exact apart held known
      · exact absurd (inside id known) (Nat.not_lt_of_le new)
    · exact absurd lt (Nat.not_lt_of_le added)

/-- What the first walk left is beside the second one. -/
theorem disjoint (first : before.Changes old middle left) (inside : ∀ id ∈ more, id < before.size)
    (apart : old.Disjoint more) : left.Disjoint more := by
  intro id mem known
  rcases first.own id mem with held | new
  · exact apart held known
  · exact absurd (inside id known) (Nat.not_lt_of_le new)

/-- The node above a walk was changed last, and is left above what the walk left. -/
theorem edit (changes : before.Changes old middle left) (inside : id < before.size)
    (free : id ∉ old) (size : after.size = middle.size)
    (others : ∀ other, other ≠ id → after.node? other = middle.node? other) :
    before.Changes (id :: old) after (id :: left) where
  grown := size ▸ changes.grown
  frame other lt notOld := by
    rw [List.mem_cons, not_or] at notOld
    rw [others other notOld.1, changes.frame other lt notOld.2]
  inside other mem := by
    rw [size]
    rcases List.mem_cons.1 mem with rfl | mem
    · exact Nat.lt_of_lt_of_le inside changes.grown
    · exact changes.inside other mem
  own other mem := by
    rcases List.mem_cons.1 mem with rfl | mem
    · exact .inl List.mem_cons_self
    · exact (changes.own other mem).imp_left (List.mem_cons_of_mem _)
  nodup := by
    refine List.nodup_cons.2 ⟨fun mem => ?_, changes.nodup⟩
    rcases changes.own id mem with held | new
    · exact free held
    · exact absurd inside (Nat.not_lt_of_le new)

/-- The node above a walk stays as it is. -/
theorem stmt?_eq (changes : before.Changes old after left) {stmt : Stmt}
    (found : before.stmt? id = some stmt) (free : id ∉ old) :
    after.stmt? id = some stmt :=
  (stmt?_congr (changes.frame id (lt_size_of_stmt? found) free)).trans found

theorem expr?_eq (changes : before.Changes old after left) {expr : Expr}
    (found : before.expr? id = some expr) (free : id ∉ old) :
    after.expr? id = some expr :=
  (expr?_congr (changes.frame id (lt_size_of_expr? found) free)).trans found

/-- The statement above a walk was edited. -/
theorem editStmt (changes : before.Changes old middle left) {stmt : Stmt}
    (found : before.stmt? id = some stmt) (free : id ∉ old) (edit : Stmt → Stmt) :
    before.Changes (id :: old) (middle.mapStmt id edit) (id :: left) :=
  changes.edit (lt_size_of_stmt? found) free (size_mapStmt _ _ _) fun _ apart =>
    node?_mapStmt_of_ne _ apart _

/-- The expression above a walk was edited. -/
theorem editExpr (changes : before.Changes old middle left) {expr : Expr}
    (found : before.expr? id = some expr) (free : id ∉ old) (edit : Expr → Expr) :
    before.Changes (id :: old) (middle.mapExpr id edit) (id :: left) :=
  changes.edit (lt_size_of_expr? found) free (size_mapExpr _ _ _) fun _ apart =>
    node?_mapExpr_of_ne _ apart _

/-- A node was added, and is left above what the walk left. -/
theorem push (changes : before.Changes old middle left) (node : Node) (span : Span) :
    before.Changes old (middle.push node span) (middle.size :: left) where
  grown := by
    rw [size_push]
    exact Nat.le_succ_of_le changes.grown
  frame id lt free := by
    rw [node?_push, if_neg (Nat.ne_of_lt (Nat.lt_of_lt_of_le lt changes.grown)),
      changes.frame id lt free]
  inside id mem := by
    rw [size_push]
    rcases List.mem_cons.1 mem with rfl | mem
    · exact Nat.lt_succ_self _
    · exact Nat.lt_succ_of_lt (changes.inside id mem)
  own id mem := by
    rcases List.mem_cons.1 mem with rfl | mem
    · exact .inr changes.grown
    · exact changes.own id mem
  nodup := List.nodup_cons.2 ⟨fun mem => Nat.lt_irrefl _ (changes.inside _ mem), changes.nodup⟩

end Changes

end Arena

end ValueFlow
