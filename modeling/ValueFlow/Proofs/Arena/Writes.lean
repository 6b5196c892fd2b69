import Mathlib.Data.List.Perm.Subperm
import ValueFlow.Arena.Writes
import ValueFlow.Proofs.Arena.Edits

/-!
# The scan for writes is complete

A statement may write a variable within some levels if it is the target of a statement that many
levels below at most. The scan finds exactly these variables (`mem_scanWrites`). It looks as many
levels down as the arena has nodes, and whatever lies below a node lies below it on a way without
repetitions, which is no longer. So the scan finds every target below its root
(`mem_variablesWritten_of_below`), on any arena.
-/

namespace ValueFlow
set_option autoImplicit false

namespace Arena

variable (arena : Arena)

/-- A statement on the first `depth` levels below a node, itself included, has the variable as its
target. -/
def WritesWithin (var : VarId) : Nat → NodeId → Prop
  | 0, _ => False
  | depth + 1, id => ∃ stmt, arena.stmt? id = some stmt ∧
      (var ∈ stmt.target? ∨ ∃ child ∈ stmt.children, WritesWithin var depth child)

/-- A statement lies below another one, or is the same. -/
inductive Below (root : NodeId) : NodeId → Prop
  | root : Below root root
  | child {id child : NodeId} {stmt : Stmt} (above : Below root id) (found : arena.stmt? id = some stmt)
      (mem : child ∈ stmt.children) : Below root child

/-- A way down to a statement, which it lists from its end up to the root. -/
inductive Descent (root : NodeId) : List NodeId → Prop
  | root : Descent root [root]
  | child {id child : NodeId} {above : List NodeId} {stmt : Stmt} (way : Descent root (id :: above))
      (found : arena.stmt? id = some stmt) (mem : child ∈ stmt.children) : Descent root (child :: id :: above)

variable {arena} {var : VarId} {root id : NodeId}

theorem mem_addWritten {written : List VarId} {target : Option VarId} :
    var ∈ addWritten written target ↔ var ∈ written ∨ var ∈ target := by
  unfold addWritten
  split
  · rename_i found
    split
    · rename_i known
      constructor
      · exact Or.inl
      · rintro (old | same)
        · exact old
        · rwa [← Option.some.inj same]
    · simp [eq_comm]
  · simp

theorem writesWithin_succ {stmt : Stmt} (found : arena.stmt? id = some stmt) {depth : Nat} :
    arena.WritesWithin var (depth + 1) id ↔
      var ∈ stmt.target? ∨ ∃ child ∈ stmt.children, arena.WritesWithin var depth child := by
  simp [WritesWithin, found]

/-- What a statement writes is its target, or is written below it. -/
theorem WritesWithin.cases {stmt : Stmt} {depth : Nat} (writes : arena.WritesWithin var depth id)
    (found : arena.stmt? id = some stmt) :
    var ∈ stmt.target? ∨ ∃ further, ∃ child ∈ stmt.children,
      arena.WritesWithin var further child := by
  cases depth with
  | zero => exact writes.elim
  | succ depth => exact ((writesWithin_succ found).1 writes).imp_right fun below => ⟨depth, below⟩

/-- The scan finds the targets within the levels that it is told to go down. -/
theorem mem_scanWrites {stack : List (Nat × NodeId)} {written : List VarId} :
    var ∈ arena.scanWrites stack written ↔
      var ∈ written ∨ ∃ entry ∈ stack, arena.WritesWithin var entry.1 entry.2 := by
  fun_induction scanWrites arena stack written with
  | case1 written => simp
  | case2 id rest written ih => simp [ih, WritesWithin]
  | case3 depth id rest written absent ih => simp [ih, WritesWithin, absent]
  | case4 depth id rest written stmt found ih =>
    simp [ih, mem_addWritten, writesWithin_succ found, or_and_right, exists_or, or_assoc]

theorem mem_variablesWritten :
    var ∈ arena.variablesWritten root ↔ arena.WritesWithin var arena.size root := by
  simp [variablesWritten, mem_scanWrites]

theorem WritesWithin.mono {depth more : Nat} (writes : arena.WritesWithin var depth id)
    (le : depth ≤ more) :
    arena.WritesWithin var more id := by
  induction depth generalizing id more with
  | zero => exact writes.elim
  | succ depth ih =>
    obtain ⟨more, rfl⟩ :=
      Nat.exists_eq_add_one_of_ne_zero (Nat.ne_of_gt (Nat.lt_of_lt_of_le (Nat.succ_pos depth) le))
    obtain ⟨stmt, found, here | ⟨child, mem, below⟩⟩ := writes
    · exact ⟨stmt, found, .inl here⟩
    · exact ⟨stmt, found, .inr ⟨child, mem, ih below (Nat.le_of_succ_le_succ le)⟩⟩

/-- What is written within some levels is the target of a statement below. -/
theorem WritesWithin.exists_below {depth : Nat} (writes : arena.WritesWithin var depth id)
    (below : arena.Below root id) :
    ∃ other stmt, arena.Below root other ∧ arena.stmt? other = some stmt ∧ var ∈ stmt.target? := by
  induction depth generalizing id with
  | zero => exact writes.elim
  | succ depth ih =>
    obtain ⟨stmt, found, here | ⟨child, mem, further⟩⟩ := writes
    · exact ⟨id, stmt, below, found, here⟩
    · exact ih further (.child below found mem)

/-- What the end of a way writes, the root writes that many levels further down. -/
theorem Descent.writesWithin {way : List NodeId} (down : arena.Descent root way)
    {above : List NodeId} (ends : way = id :: above) {depth : Nat}
    (writes : arena.WritesWithin var depth id) :
    arena.WritesWithin var (depth + above.length) root := by
  induction down generalizing id above depth with
  | root =>
    obtain ⟨rfl, rfl⟩ := List.cons.inj ends
    exact writes
  | child way found mem ih =>
    obtain ⟨rfl, rfl⟩ := List.cons.inj ends
    have above : WritesWithin _ var (depth + 1) _ := ⟨_, found, .inr ⟨_, mem, writes⟩⟩
    have further := ih rfl above
    rwa [List.length_cons, Nat.add_succ, ← Nat.succ_add]

/-- A way may be cut off below any statement on it. -/
theorem Descent.of_mem {way : List NodeId} (down : arena.Descent root way) (nodup : way.Nodup)
    (mem : id ∈ way) :
    ∃ above, arena.Descent root (id :: above) ∧ (id :: above).Nodup := by
  induction down with
  | root =>
    obtain rfl := List.mem_singleton.1 mem
    exact ⟨[], .root, nodup⟩
  | child way found held ih =>
    rcases List.mem_cons.1 mem with rfl | further
    · exact ⟨_, .child way found held, nodup⟩
    · exact ih (List.nodup_cons.1 nodup).2 further

/-- Whatever lies below the root is reached on a way without repetitions. -/
theorem Below.descent (below : arena.Below root id) :
    ∃ above, arena.Descent root (id :: above) ∧ (id :: above).Nodup := by
  induction below with
  | root => exact ⟨[], .root, by simp⟩
  | @child id child stmt above found mem ih =>
    obtain ⟨rest, down, nodup⟩ := ih
    by_cases repeated : child ∈ id :: rest
    · exact down.of_mem nodup repeated
    · exact ⟨_, .child down found mem, List.nodup_cons.2 ⟨repeated, nodup⟩⟩

/-- On a way that ends at a statement there are statements only. -/
theorem Descent.lt_size {way : List NodeId} (down : arena.Descent root way) {stmt : Stmt}
    {above : List NodeId} (ends : way = id :: above) (found : arena.stmt? id = some stmt) :
    ∀ other ∈ way, other < arena.size := by
  induction down generalizing id above stmt with
  | root =>
    obtain ⟨rfl, rfl⟩ := List.cons.inj ends
    intro other mem
    rw [List.mem_singleton.1 mem]
    exact lt_size_of_stmt? found
  | child way foundAbove mem ih =>
    obtain ⟨rfl, rfl⟩ := List.cons.inj ends
    intro other held
    rcases List.mem_cons.1 held with rfl | further
    · exact lt_size_of_stmt? found
    · exact ih rfl foundAbove other further

/-- Every target of a statement below the root is found. -/
theorem mem_variablesWritten_of_below (below : arena.Below root id) {stmt : Stmt}
    (found : arena.stmt? id = some stmt) (target : var ∈ stmt.target?) :
    var ∈ arena.variablesWritten root := by
  obtain ⟨above, down, nodup⟩ := below.descent
  have inside : id :: above ⊆ List.range arena.size :=
    fun other mem => List.mem_range.2 (down.lt_size rfl found other mem)
  have short : (id :: above).length ≤ arena.size := by
    simpa using (List.subperm_of_subset nodup inside).length_le
  have here : arena.WritesWithin var 1 id := ⟨stmt, found, .inl target⟩
  have deep := down.writesWithin rfl here
  rw [mem_variablesWritten]
  exact deep.mono (by rwa [Nat.add_comm])

end Arena

end ValueFlow
