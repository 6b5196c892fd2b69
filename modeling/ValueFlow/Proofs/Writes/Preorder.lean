import Mathlib.Data.Finset.Dedup
import ValueFlow.Proofs.Completion.Executions

/-!
# The scan for writes goes in preorder

Going down from a statement recursively, each node before its children and the children as they
stand, one meets targets of assignments and deletes, some of them several times
(`Arena.targetsBelow`). The recursion ends on every arena in which nothing lies below itself,
however nodes are shared. The scan finds these targets, each where it is met first
(`Acyclic.variablesWritten_eq`).

The scan is a loop over one stack, to which the children of a node are pushed in reverse, with a set
of the variables seen so far (`Scan.round?`). It has no bound, and comes to its end with what
`scanWrites` tells, whose levels such an arena does not use up (`Acyclic.reaches_scanWrites`). What
ties the two to the recursion is that the stack holds what is still to be gone through, its top
first: the targets found so far and those below the stack are always the same row, but for
repetitions (`Acyclic.scanWrites_eq`).
-/

namespace ValueFlow
set_option autoImplicit false

/-- A scan under way: the nodes to visit, the last one next, the variables that were seen, and those
that were found. -/
structure Scan where
  stack : List NodeId
  seen : Finset VarId
  written : List VarId

namespace Scan

/-- A target is found when it is seen for the first time. -/
def note (scan : Scan) (target : VarId) : Scan :=
  if target ∈ scan.seen then scan else { scan with seen := insert target scan.seen, written := scan.written ++ [target] }

/-- Nodes are put on the stack, the last one on top. -/
def push (scan : Scan) (nodes : List NodeId) : Scan := { scan with stack := scan.stack ++ nodes }

/-- What is done at a statement. The arm that is taken if the condition holds is pushed last, so as
to be visited first. -/
def visit (scan : Scan) : Stmt → Scan
  | .assign target _ _ => scan.note target
  | .delete target _ _ => scan.note target
  | .block stmts => scan.push stmts.reverse
  | .branch _ yes no => (scan.push no.toList).push yes.toList
  | .loop body => scan.push body.toList
  | _ => scan

/-- One round of the loop: the last node is taken from the stack, if there is one, and is passed
over if it is no statement. -/
def round? (arena : Arena) (scan : Scan) : Option Scan :=
  scan.stack.getLast?.map fun id =>
    (arena.stmt? id).elim { scan with stack := scan.stack.dropLast } { scan with stack := scan.stack.dropLast }.visit

/-- The loop comes to its end, with these variables found. -/
def Finds (arena : Arena) (scan : Scan) (found : List VarId) : Prop :=
  ∃ seen, Relation.ReflTransGen (fun before after => before.round? arena = some after) scan ⟨[], seen, found⟩

/-- The scan that has these nodes to visit, the first one next, and has seen just what it has
found. -/
def under (nodes : List NodeId) (written : List VarId) : Scan := ⟨nodes.reverse, written.toFinset, written⟩

variable {arena : Arena} {id : NodeId} {nodes : List NodeId} {written : List VarId}

theorem note_under (target : VarId) :
    (under nodes written).note target = under nodes (Arena.addWritten written (some target)) := by
  simp only [note, under, Arena.addWritten, List.mem_toFinset]
  split
  · rfl
  · simp [List.toFinset_append]

theorem push_under (more : List NodeId) :
    (under nodes written).push more.reverse = under (more ++ nodes) written := by
  simp [push, under]

/-- An arm or a body is no more than one node, and is pushed as it is. -/
theorem push_toList_under (child : Option NodeId) :
    (under nodes written).push child.toList = under (child.toList ++ nodes) written := by
  cases child <;> simp [push, under]

/-- The children of a statement go on top, and the first one is next. -/
theorem visit_under (stmt : Stmt) :
    (under nodes written).visit stmt = under (stmt.children ++ nodes)
      (Arena.addWritten written stmt.target?) := by
  cases stmt with
  | assign target | delete target => exact note_under target
  | block stmts => exact push_under stmts
  | branch cond yes no =>
    simp only [visit, push_toList_under, Stmt.children, List.append_assoc]; rfl
  | loop body => exact push_toList_under body
  | _ => rfl

theorem round?_under : (under (id :: nodes) written).round? arena =
    some ((arena.stmt? id).elim (under nodes written) (under nodes written).visit) := by
  simp [round?, under]

/-- What is found behind a round was to be found before it. -/
theorem Finds.head {scan next : Scan} {found : List VarId} (finds : next.Finds arena found)
    (round : scan.round? arena = some next) :
    scan.Finds arena found := by
  obtain ⟨seen, reaches⟩ := finds
  exact ⟨seen, .head round reaches⟩

end Scan

namespace Arena

variable {arena : Arena} {id root : NodeId} {var : VarId}

/-- A target is appended to a row without repetitions so as to keep it one. -/
theorem addWritten_eraseDups (before : List VarId) (target : Option VarId) :
    addWritten before.eraseDups target = (before ++ target.toList).eraseDups := by
  cases target with
  | none => simp [addWritten]
  | some var =>
    simp only [addWritten, List.mem_eraseDups, Option.toList_some, List.eraseDups_append]
    by_cases known : var ∈ before <;> simp [known, List.removeAll, List.eraseDups_cons]

theorem nodup_addWritten {written : List VarId} (nodup : written.Nodup) (target : Option VarId) :
    (addWritten written target).Nodup := by
  unfold addWritten
  split
  · split
    · exact nodup
    · exact nodup.append (List.nodup_singleton _) (by simpa using ‹_ ∉ written›)
  · exact nodup

theorem nodup_scanWrites {stack : List (Nat × NodeId)} {written : List VarId}
    (nodup : written.Nodup) : (arena.scanWrites stack written).Nodup := by
  fun_induction scanWrites arena stack written with
  | case1 => exact nodup
  | case2 id rest written ih => exact ih nodup
  | case3 depth id rest written absent ih => exact ih nodup
  | case4 depth id rest written stmt found ih => exact ih (nodup_addWritten nodup stmt.target?)

/-- Where nothing lies below itself, every way down comes to an end. -/
theorem Acyclic.wellFounded (acyclic : arena.Acyclic) :
    WellFounded fun other id => arena.Leads id other := by
  have lower {id other : NodeId} (leads : arena.Leads id other) :
      (if other < arena.size then (arena.allBelow other).card + 1 else 0) < if id < arena.size then
        (arena.allBelow id).card + 1 else 0 := by
    obtain ⟨node, class_, found, mem⟩ := leads
    rw [if_pos (lt_size_of_node? found)]
    split
    · rename_i inside
      exact Nat.succ_lt_succ (card_allBelow_lt ⟨node, class_, found, mem⟩ inside (acyclic other))
    · exact Nat.succ_pos _
  exact Subrelation.wf lower (measure _).wf

/-- The targets of the assignments and deletes below a statement, as a recursive descent meets
them. -/
def targetsBelow (arena : Arena) (acyclic : arena.Acyclic) (id : NodeId) : List VarId :=
  match _ : arena.stmt? id with
  | some (.assign target _ _) => [target]
  | some (.delete target _ _) => [target]
  | some (.block stmts) => stmts.attach.flatMap fun ⟨stmt, _⟩ => arena.targetsBelow acyclic stmt
  | some (.branch _ yes no) =>
    (yes.toList.attach.flatMap fun ⟨arm, _⟩ => arena.targetsBelow acyclic arm) ++
      no.toList.attach.flatMap fun ⟨arm, _⟩ => arena.targetsBelow acyclic arm
  | some (.loop body) => body.toList.attach.flatMap fun ⟨inner, _⟩ => arena.targetsBelow acyclic inner
  | _ => []
termination_by acyclic.wellFounded.wrap id
decreasing_by all_goals exact leads_of_mem_children ‹_› (by simp_all [Stmt.children])

namespace Acyclic

variable (acyclic : arena.Acyclic)

include acyclic

theorem targetsBelow_of_absent (absent : arena.stmt? id = none) :
    arena.targetsBelow acyclic id = [] := by
  rw [targetsBelow]
  split <;> simp_all

/-- A statement is met before its children, and these as they stand. -/
theorem targetsBelow_of_stmt {stmt : Stmt} (found : arena.stmt? id = some stmt) :
    arena.targetsBelow acyclic id = stmt.target?.toList ++ stmt.children.flatMap
      (arena.targetsBelow acyclic) := by
  rw [targetsBelow]
  split
  case h_6 => cases stmt <;> simp_all [Stmt.target?, Stmt.children]
  all_goals
    rename_i held
    obtain rfl := Option.some.inj (found.symm.trans held)
    simp [Stmt.target?, Stmt.children, -Option.attach_toList]

/-- The unbounded loop finds what the scan finds that is told how many levels to go down, if these
are not used up. -/
theorem reaches_scanWrites {stack : List (Nat × NodeId)} (written : List VarId)
    (shallow : ∀ entry ∈ stack, arena.Shallow entry.1 entry.2) :
    (Scan.under (stack.map (·.2)) written).Finds arena (arena.scanWrites stack written) := by
  fun_induction scanWrites arena stack written with
  | case1 written => exact ⟨written.toFinset, .refl⟩
  | case2 id rest written ih =>
    -- where no levels are left there is no statement, so the loop passes over the node as well
    obtain ⟨here, below⟩ := List.forall_mem_cons.1 shallow
    refine (ih below).head ?_
    rw [List.map_cons, Scan.round?_under, here.absent, Option.elim_none]
  | case3 depth id rest written absent ih =>
    refine (ih (List.forall_mem_cons.1 shallow).2).head ?_
    rw [List.map_cons, Scan.round?_under, absent, Option.elim_none]
  | case4 depth id rest written stmt found ih =>
    obtain ⟨here, below⟩ := List.forall_mem_cons.1 shallow
    refine (ih (List.forall_mem_append.2 ⟨?_, below⟩)).head ?_
    · exact List.forall_mem_map.2 (acyclic.shallow_child found here)
    · rw [List.map_cons, Scan.round?_under, found, Option.elim_some, Scan.visit_under]
      simp [Function.comp_def]

/-- What was found before and what is met below the stack, each where it comes first, is what the
scan finds. -/
theorem scanWrites_eq {stack : List (Nat × NodeId)} {written : List VarId} (before : List VarId)
    (known : written = before.eraseDups)
    (shallow : ∀ entry ∈ stack, arena.Shallow entry.1 entry.2) :
    arena.scanWrites stack written =
      (before ++ stack.flatMap fun entry => arena.targetsBelow acyclic entry.2).eraseDups := by
  fun_induction scanWrites arena stack written generalizing before with
  | case1 written => simpa using known
  | case2 id rest written ih =>
    obtain ⟨here, below⟩ := List.forall_mem_cons.1 shallow
    rw [ih before known below, List.flatMap_cons, acyclic.targetsBelow_of_absent here.absent,
      List.nil_append]
  | case3 depth id rest written absent ih =>
    rw [ih before known (List.forall_mem_cons.1 shallow).2, List.flatMap_cons,
      acyclic.targetsBelow_of_absent absent, List.nil_append]
  | case4 depth id rest written stmt found ih =>
    obtain ⟨here, below⟩ := List.forall_mem_cons.1 shallow
    have children : ∀ entry ∈ stmt.children.map (depth, ·), arena.Shallow entry.1 entry.2 :=
      List.forall_mem_map.2 (acyclic.shallow_child found here)
    -- the target goes to what was found before, and the children stand on the stack for what the
    -- descent meets next
    rw [ih (before ++ stmt.target?.toList) (by rw [known, addWritten_eraseDups])
      (List.forall_mem_append.2 ⟨children, below⟩), List.flatMap_cons,
      acyclic.targetsBelow_of_stmt found]
    simp [List.flatMap_map]

theorem shallow_root (root : NodeId) :
    ∀ entry ∈ [(arena.size, root)], arena.Shallow entry.1 entry.2 :=
  List.forall_mem_singleton.2 acyclic.shallow_size

/-- The loop finds what may be written below a node. -/
theorem finds_variablesWritten (root : NodeId) :
    (⟨[root], ∅, []⟩ : Scan).Finds arena (arena.variablesWritten root) :=
  acyclic.reaches_scanWrites [] (acyclic.shallow_root root)

/-- What may be written below a node is what a descent meets, each target where it is met first. -/
theorem variablesWritten_eq (root : NodeId) :
    arena.variablesWritten root = (arena.targetsBelow acyclic root).eraseDups :=
  (acyclic.scanWrites_eq [] rfl (acyclic.shallow_root root)).trans (by simp)

end Acyclic

end Arena

end ValueFlow
