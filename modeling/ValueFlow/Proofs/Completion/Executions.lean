import ValueFlow.Arena.Completion
import ValueFlow.Proofs.WellFormed.Basic

/-!
# Executions and the ways to leave a statement

A statement is executed without a store: simple statements run to their end, a condition goes either
way, a block stops at the first statement that is left early, and a loop starts over at its end and
at a continue, ends at a break and passes a return on (`Arena.Finishes`). There are only finite
executions here, of any number of rounds. A loop without a body has none.

What `Arena.isAborting` and `Arena.mayExit` read off the shape of the nodes covers all of these, on
every arena in which nothing lies below itself (`Finishes.allowed`, `queries_cover_executions`).
Nodes may be shared, and ids may be past the end or those of expressions. The recursion of the
queries is bounded by the size of such an arena and does not feel that bound (`Acyclic.mayExit_eq`,
`Acyclic.isAborting_eq`).
-/

namespace ValueFlow
set_option autoImplicit false

/-- The statement runs to its end, whatever is below it. -/
def Stmt.isSimple : Stmt → Bool
  | .assign _ _ _ => true
  | .delete _ _ _ => true
  | .release _ => true
  | .effect _ => true
  | _ => false

/-- A statement may be left by the exit if the ways out of what is below it are as given. -/
def Stmt.mayExit (kind : ExitKind) (below : NodeId → Bool) : Stmt → Bool
  | .brk => kind == .brk
  | .cont => kind == .cont
  | .ret _ => kind == .ret
  | .block stmts => stmts.any below
  | .branch _ yes no => yes.any below || no.any below
  | .loop body => kind == .ret && body.any below
  | _ => false

/-- Control never runs past the statement if what is below it breaks and aborts as given. -/
def Stmt.isAborting (breaks below : NodeId → Bool) : Stmt → Bool
  | .brk => true
  | .cont => true
  | .ret _ => true
  | .block stmts => stmts.any below
  | .branch _ (some yes) (some no) => below yes && below no
  | .loop body => !body.any breaks
  | _ => false

theorem any_eq_of_forall_mem {nodes : List NodeId} {below other : NodeId → Bool}
    (same : ∀ node ∈ nodes, below node = other node) :
    nodes.any below = nodes.any other := by
  rw [Bool.eq_iff_iff, List.any_eq_true, List.any_eq_true]
  exact exists_congr fun node => and_congr_right fun mem => by rw [same node mem]

theorem Stmt.mayExit_congr {kind : ExitKind} {below other : NodeId → Bool} {stmt : Stmt}
    (same : ∀ child ∈ stmt.children, below child = other child) :
    stmt.mayExit kind below = stmt.mayExit kind other := by
  cases stmt with
  | block stmts => exact any_eq_of_forall_mem same
  | branch cond yes no =>
    cases yes <;> cases no <;> simp_all [Stmt.mayExit, Stmt.children]
  | loop body => cases body <;> simp_all [Stmt.mayExit, Stmt.children]
  | _ => rfl

theorem Stmt.isAborting_congr {breaks below other : NodeId → Bool} {stmt : Stmt}
    (same : ∀ child ∈ stmt.children, below child = other child) :
    stmt.isAborting breaks below = stmt.isAborting breaks other := by
  cases stmt with
  | block stmts => exact any_eq_of_forall_mem same
  | branch cond yes no =>
    cases yes <;> cases no <;> simp_all [Stmt.isAborting, Stmt.children]
  | _ => rfl

/-- How an execution of a statement ends: past its end, or by an early exit. -/
inductive Completion where
  | past
  | early (kind : ExitKind)
deriving DecidableEq, Repr

/-- A loop starts its next round after such an ending of its body. -/
def Completion.repeats : Completion → Bool
  | .past => true
  | .early kind => kind == .cont

namespace Arena

variable {arena : Arena} {kind : ExitKind} {ending : Completion} {depth : Nat} {id other : NodeId}

/-- Nothing lies below itself. -/
def Acyclic (arena : Arena) : Prop := ∀ id, ¬ Relation.TransGen arena.Leads id id

/-- A finite execution of what stands under an id comes to this ending. -/
inductive Finishes (arena : Arena) : NodeId → Completion → Prop
  | vacant {id : NodeId} (found : arena.stmt? id = none) : Finishes arena id .past
  | simple {id : NodeId} {stmt : Stmt} (found : arena.stmt? id = some stmt) (simple : stmt.isSimple = true) :
      Finishes arena id .past
  | brk {id : NodeId} (found : arena.stmt? id = some .brk) : Finishes arena id (.early .brk)
  | cont {id : NodeId} (found : arena.stmt? id = some .cont) : Finishes arena id (.early .cont)
  | ret {id : NodeId} {value : Option NodeId} (found : arena.stmt? id = some (.ret value)) :
      Finishes arena id (.early .ret)
  | block {id : NodeId} {stmts : List NodeId} (found : arena.stmt? id = some (.block stmts))
      (all : ∀ stmt ∈ stmts, Finishes arena stmt .past) : Finishes arena id .past
  | leaveBlock {id last : NodeId} {done rest : List NodeId} {kind : ExitKind}
      (found : arena.stmt? id = some (.block (done ++ last :: rest)))
      (all : ∀ stmt ∈ done, Finishes arena stmt .past) (left : Finishes arena last (.early kind)) :
      Finishes arena id (.early kind)
  | arm {id cond arm : NodeId} {yes no : Option NodeId} {ending : Completion}
      (found : arena.stmt? id = some (.branch cond yes no)) (mem : arm ∈ yes ∨ arm ∈ no)
      (taken : Finishes arena arm ending) : Finishes arena id ending
  | noArm {id cond : NodeId} {yes no : Option NodeId} (found : arena.stmt? id = some (.branch cond yes no))
      (absent : yes = none ∨ no = none) : Finishes arena id .past
  | round {id body : NodeId} {first ending : Completion} (found : arena.stmt? id = some (.loop (some body)))
      (runs : Finishes arena body first) (again : first.repeats = true) (rest : Finishes arena id ending) :
      Finishes arena id ending
  | leaveLoop {id body : NodeId} (found : arena.stmt? id = some (.loop (some body)))
      (left : Finishes arena body (.early .brk)) : Finishes arena id .past
  | passReturn {id body : NodeId} (found : arena.stmt? id = some (.loop (some body)))
      (left : Finishes arena body (.early .ret)) : Finishes arena id (.early .ret)

section Depth

/-- Where every node has a higher id than the nodes below it, nothing lies below itself. There is
nothing below an id past the end. -/
theorem acyclic_of_descends_inside
    (descends : ∀ id < arena.size, ∀ node ∈ arena.node? id, ∀ place ∈ node.below,
      place.2 < arena.size → place.2 < id) :
    arena.Acyclic := by
  have lower {id other : NodeId} (below : Relation.TransGen arena.Leads id other) :
      other < arena.size → other < id := by
    induction below with
    | single leads =>
      obtain ⟨node, class_, found, mem⟩ := leads
      exact descends _ (lt_size_of_node? found) node found (class_, _) mem
    | tail _ leads ih =>
      obtain ⟨node, class_, found, mem⟩ := leads
      have inside := lt_size_of_node? found
      exact fun lower =>
        Nat.lt_trans (descends _ inside node found (class_, _) mem lower) (ih inside)
  intro id below
  obtain ⟨_, ⟨_, _, found, _⟩, _⟩ := Relation.TransGen.head'_iff.1 below
  exact Nat.lt_irrefl id (lower below (lt_size_of_node? found))

theorem acyclic_of_descends
    (descends : ∀ id < arena.size, ∀ node ∈ arena.node? id, ∀ place ∈ node.below, place.2 < id) :
    arena.Acyclic :=
  acyclic_of_descends_inside fun id inside node found place mem _ =>
    descends id inside node found place mem

/-- Fewer than `depth` nodes lie below the id, or there is nothing under it. -/
def Shallow (arena : Arena) (depth : Nat) (id : NodeId) : Prop := id < arena.size → (arena.allBelow id).card < depth

theorem leads_of_mem_children {stmt : Stmt} (found : arena.stmt? id = some stmt)
    (mem : other ∈ stmt.children) :
    arena.Leads id other :=
  ⟨.stmt stmt, .stmt, stmt?_eq_some.1 found, List.mem_append_left _ (List.mem_map_of_mem mem)⟩

theorem Shallow.absent (shallow : arena.Shallow 0 id) : arena.stmt? id = none := by
  cases found : arena.stmt? id with
  | none => rfl
  | some stmt => exact absurd (shallow (lt_size_of_stmt? found)) (Nat.not_lt_zero _)

theorem mayExitWithin_step : arena.mayExitWithin kind (depth + 1) id =
    (arena.stmt? id).any (·.mayExit kind (arena.mayExitWithin kind depth)) := by
  rw [mayExitWithin]
  cases arena.stmt? id with
  | none => rfl
  | some stmt => cases stmt <;> rfl

theorem isAbortingWithin_step : arena.isAbortingWithin (depth + 1) id =
    (arena.stmt? id).any (·.isAborting arena.mayBreak (arena.isAbortingWithin depth)) := by
  rw [isAbortingWithin]
  cases arena.stmt? id with
  | none => rfl
  | some stmt =>
    cases stmt with
    | branch cond yes no => cases yes <;> cases no <;> rfl
    | _ => rfl

theorem mayExitWithin_of_absent (absent : arena.stmt? id = none) :
    arena.mayExitWithin kind depth id = false := by
  cases depth with
  | zero => rfl
  | succ depth => rw [mayExitWithin_step, absent]; rfl

theorem isAbortingWithin_of_absent (absent : arena.stmt? id = none) :
    arena.isAbortingWithin depth id = false := by
  cases depth with
  | zero => rfl
  | succ depth => rw [isAbortingWithin_step, absent]; rfl

namespace Acyclic

variable (acyclic : arena.Acyclic)

include acyclic

theorem shallow_size : arena.Shallow arena.size id := by
  intro inside
  refine Nat.lt_of_lt_of_eq (Finset.card_lt_card (t := Finset.range arena.size) ?_)
    (Finset.card_range _)
  refine Finset.ssubset_iff_of_subset (fun last mem => Finset.mem_range.2 (mem_allBelow.1 mem).1)
    |>.2 ⟨id, ?_, ?_⟩
  · exact Finset.mem_range.2 inside
  · exact fun mem => acyclic id (mem_allBelow.1 mem).2

theorem shallow_child {stmt : Stmt} (found : arena.stmt? id = some stmt)
    (shallow : arena.Shallow (depth + 1) id) :
    ∀ child ∈ stmt.children, arena.Shallow depth child := by
  intro child mem inside
  exact Nat.lt_of_lt_of_le
    (card_allBelow_lt (leads_of_mem_children found mem) inside (acyclic child))
    (Nat.le_of_lt_succ (shallow (lt_size_of_stmt? found)))

/-- A query that goes deeper than anything below the node answers no differently. -/
theorem mayExitWithin_succ (shallow : arena.Shallow depth id) :
    arena.mayExitWithin kind (depth + 1) id = arena.mayExitWithin kind depth id := by
  induction depth generalizing id with
  | zero =>
    rw [mayExitWithin_of_absent shallow.absent]
    rfl
  | succ depth ih =>
    rw [mayExitWithin_step, mayExitWithin_step]
    cases found : arena.stmt? id with
    | none => rfl
    | some stmt =>
      exact Stmt.mayExit_congr fun child mem => ih (acyclic.shallow_child found shallow child mem)

theorem isAbortingWithin_succ (shallow : arena.Shallow depth id) :
    arena.isAbortingWithin (depth + 1) id = arena.isAbortingWithin depth id := by
  induction depth generalizing id with
  | zero =>
    rw [isAbortingWithin_of_absent shallow.absent]
    rfl
  | succ depth ih =>
    rw [isAbortingWithin_step, isAbortingWithin_step]
    cases found : arena.stmt? id with
    | none => rfl
    | some stmt =>
      exact Stmt.isAborting_congr fun child mem =>
        ih (acyclic.shallow_child found shallow child mem)

/-- The ways out of a statement are those that its kind makes of the ways out of what is directly
below. -/
theorem mayExit_eq {stmt : Stmt} (found : arena.stmt? id = some stmt) :
    arena.mayExit kind id = stmt.mayExit kind (arena.mayExit kind) := by
  rw [mayExit, ← acyclic.mayExitWithin_succ acyclic.shallow_size, mayExitWithin_step, found]
  rfl

/-- Whether control runs past the end of a statement is decided by its kind and by what is directly
below. -/
theorem isAborting_eq {stmt : Stmt} (found : arena.stmt? id = some stmt) :
    arena.isAborting id = stmt.isAborting arena.mayBreak arena.isAborting := by
  rw [isAborting, ← acyclic.isAbortingWithin_succ acyclic.shallow_size,
    isAbortingWithin_step, found]
  rfl

end Acyclic

end Depth

/-- The queries allow a statement to end so. -/
def allows (arena : Arena) (id : NodeId) : Completion → Bool
  | .past => !arena.isAborting id
  | .early kind => arena.mayExit kind id

/-- Every finite execution ends in a way that the queries allow. -/
theorem Finishes.allowed (acyclic : arena.Acyclic) (finishes : arena.Finishes id ending) :
    arena.allows id ending = true := by
  induction finishes with
  | vacant found => simp [allows, isAborting, isAbortingWithin_of_absent found]
  | @simple id stmt found simple =>
    rw [allows, acyclic.isAborting_eq found]
    cases stmt <;> first | rfl | cases simple
  | brk found => rw [allows, acyclic.mayExit_eq found]; rfl
  | cont found => rw [allows, acyclic.mayExit_eq found]; rfl
  | ret found => rw [allows, acyclic.mayExit_eq found]; rfl
  | block found all ih =>
    simpa [allows, acyclic.isAborting_eq found, Stmt.isAborting] using ih
  | leaveBlock found all left _ ih =>
    rw [allows] at ih
    simp [allows, acyclic.mayExit_eq found, Stmt.mayExit, ih]
  | @arm id cond arm yes no ending found mem taken ih =>
    cases ending with
    | past =>
      simp only [allows, acyclic.isAborting_eq found, Bool.not_eq_true'] at ih ⊢
      rcases mem with rfl | rfl
      · cases no <;> simp [Stmt.isAborting, ih]
      · cases yes <;> simp [Stmt.isAborting, ih]
    | early kind =>
      rw [allows] at ih
      rw [allows, acyclic.mayExit_eq found]
      rcases mem with rfl | rfl <;> simp [Stmt.mayExit, ih]
  | @noArm id cond yes no found absent =>
    rw [allows, acyclic.isAborting_eq found]
    rcases absent with rfl | rfl
    · rfl
    · cases yes <;> rfl
  | round found runs again rest first ih => exact ih
  | leaveLoop found left ih =>
    rw [allows] at ih
    simp [allows, acyclic.isAborting_eq found, Stmt.isAborting, mayBreak, ih]
  | passReturn found left ih =>
    rw [allows] at ih
    simp [allows, acyclic.mayExit_eq found, Stmt.mayExit, ih]

/-- No execution runs past the end of an aborting statement, and none leaves a statement by an exit
that the queries rule out. -/
theorem queries_cover_executions (acyclic : arena.Acyclic) (id : NodeId) :
    (arena.isAborting id = true → ¬ arena.Finishes id .past) ∧
      (arena.mayBreak id = false → ¬ arena.Finishes id (.early .brk)) ∧
      (arena.mayContinue id = false → ¬ arena.Finishes id (.early .cont)) ∧
      (arena.mayReturn id = false → ¬ arena.Finishes id (.early .ret)) := by
  refine ⟨fun aborts finishes => ?_, fun never finishes => ?_, fun never finishes => ?_, fun never finishes => ?_⟩
  · have allowed := finishes.allowed acyclic
    rw [allows, aborts] at allowed
    cases allowed
  all_goals exact Bool.false_ne_true (never.symm.trans (finishes.allowed acyclic))

/-- A loop that runs another one twice in each round. The inner one breaks or continues, and both
share their release. -/
def endlessRounds : Arena :=
  let plain (node : Node) : Slot := ⟨node, .synthetic⟩
  ⟨#[plain (.stmt (.release 0)), plain (.stmt .brk), plain (.stmt .cont), plain (.expr (.read 0 none)),
    plain (.stmt (.branch 3 (some 1) (some 2))), plain (.stmt (.block [0, 4])), plain (.stmt (.loop (some 5))),
    plain (.stmt (.block [6, 0, 6])), plain (.stmt (.loop (some 7)))]⟩

/-- The inner loop is left at its break; the outer one absorbs nothing that ends it, and has no
ending at all. -/
theorem endlessRounds_covered :
    endlessRounds.Acyclic ∧ endlessRounds.Finishes 6 .past ∧ ∀ ending, ¬ endlessRounds.Finishes 8 ending := by
  have acyclic : endlessRounds.Acyclic := acyclic_of_descends (by decide)
  obtain ⟨past, brk, cont, ret⟩ := queries_cover_executions acyclic 8
  refine ⟨acyclic, ?_, fun ending => ?_⟩
  · have round : endlessRounds.Finishes 0 .past := .simple rfl rfl
    have inner : endlessRounds.stmt? 5 = some (.block ([0] ++ 4 :: [])) := rfl
    exact .leaveLoop rfl (.leaveBlock inner (by simpa using round) (.arm rfl (.inl rfl) (.brk rfl)))
  · cases ending with
    | past => exact past (by decide)
    | early kind =>
      cases kind with
      | brk => exact brk (by decide)
      | cont => exact cont (by decide)
      | ret => exact ret (by decide)

end Arena

end ValueFlow
