import ValueFlow.Proofs.Discipline.Habit
import ValueFlow.Proofs.Discipline.Walk
import ValueFlow.Proofs.Writes.Preorder

/-!
# What a walk writes

Wherever the walk of a statement ends, all assignments and deletes that it has recorded are of
variables that the scan for writes finds below the statement (`Walk.ends_walkStmt_writesOnly`). The
bodies of loops are walked in other forms than the scan has seen, but a rewrite adds no statement
that writes (`Arena.regionBelow_encloses`). What is recorded at entries, escapes and joins is a
habit that writes nothing (`writesOnly_idle`).
-/

namespace ValueFlow
set_option autoImplicit false

/-- The version was made by an assignment or a delete. -/
def Origin.isWritten : Origin → Bool
  | .assigned _ _ => true
  | .unbound (some _) => true
  | _ => false

/-- The assignments and deletes that only the newer table has are of these variables. -/
def Traces.WritesOnly (vars : List VarId) (older newer : Traces) : Prop :=
  ∀ key origin, newer.origin? key = some origin → origin.isWritten = true → older.origin? key = some origin ∨ key.var ∈ vars

namespace Traces.WritesOnly

variable {vars : List VarId} {older newer newest : Traces} {key : TraceKey} {trace : Trace}

theorem of_same (same : older.SameOrigins newer) : older.WritesOnly vars newer :=
  fun key _ known _ => .inl ((same key).symm.trans known)

theorem refl (traces : Traces) : traces.WritesOnly vars traces := of_same (.refl traces)

theorem trans (early : older.WritesOnly vars newer) (late : newer.WritesOnly vars newest) :
    older.WritesOnly vars newest :=
  fun key origin known written => (late key origin known written).elim
    (fun before => early key origin before written) .inr

/-- A version may be recorded, if it was not written or is one of these variables. -/
theorem insert (allowed : trace.origin.isWritten = true → key.var ∈ vars) :
    older.WritesOnly vars (older.insert key trace) := by
  intro other origin known written
  rw [origin?_insert] at known
  split at known
  · rename_i same
    obtain rfl := Option.some.inj known
    exact .inr (same ▸ allowed written)
  · exact .inl known

end Traces.WritesOnly

@[simp] theorem Analysis.isWritten_entryOrigin (storage : Storage) :
    (entryOrigin storage).isWritten = false := by
  cases storage <;> rfl

/-- The record of a version may be one of an assignment or a delete, if the variable is one of
these. -/
theorem Analysis.keeps_recordNext_writesOnly {vars : List VarId} {var : VarId} {origin : Origin}
    (allowed : origin.isWritten = true → var ∈ vars) :
    Keeps (fun before after => before.traces.WritesOnly vars after.traces)
      (recordNext var origin) :=
  fun _ => ends_recordNext_of (.refl _) fun _ _ _ => ⟨.refl _, fun _ => .insert allowed⟩

theorem Analysis.keeps_recordNext_unwritten {vars : List VarId} {var : VarId} {origin : Origin}
    (unwritten : origin.isWritten = false) :
    Keeps (fun before after => before.traces.WritesOnly vars after.traces)
      (recordNext var origin) :=
  keeps_recordNext_writesOnly fun written =>
    absurd (unwritten.symm.trans written) Bool.false_ne_true

/-- What neither writes a variable nor counts a read records no assignment and no delete. -/
theorem writesOnly_idle (vars : List VarId) :
    Analysis.IdleHabit fun before after => before.traces.WritesOnly vars after.traces where
  refl _ := .refl _
  trans := .trans
  recordEntry _ _ := Analysis.ends_recordEntry_of (.refl _) fun slot _ _ =>
    .insert (by simp [Trace.ofOrigin])
  recordUnknown _ _ := Analysis.keeps_recordNext_unwritten rfl
  recordJoined _ _ := Analysis.keeps_recordNext_unwritten rfl _
  noteRelease := Analysis.keeps_noteRelease .of_same
  noteEscape := Analysis.keeps_noteEscape .of_same

/-- To write only what the scan finds below a statement is a discipline of the walks there. -/
def Discipline.writing (arena : Arena) (root : NodeId) : Discipline where
  good _ _ := True
  grows before after := before.traces.WritesOnly (arena.variablesWritten root) after.traces
  fault _ := True
  region := arena.regionBelow root

theorem writing_law (arena : Arena) (root : NodeId) : (Discipline.writing arena root).Law :=
  (writesOnly_idle (arena.variablesWritten root)).law (Analysis.keeps_noteRead .of_same)
    (fun found _ _ => Analysis.keeps_recordNext_writesOnly fun _ => found) (fun _ _ => trivial)
    (fun _ => trivial) (fun _ grows => grows) (.refl _) fun _ _ => .refl _

/-- Wherever the walk of a statement ends, it has assigned and deleted only variables that the scan
finds. -/
theorem Walk.ends_walkStmt_writesOnly (arena : Arena) (root : NodeId) (site : Site) :
    Ends (walkStmt root) ⟨site, arena⟩
    (fun _ after => site.analysis.traces.WritesOnly (arena.variablesWritten root)
      after.analysis.traces)
    fun _ after => site.analysis.traces.WritesOnly (arena.variablesWritten root)
      after.analysis.traces := by
  have inside : (Discipline.writing arena root).region.stmts root := .inl .root
  exact Ends.mono
    (Discipline.yields_walkStmt (writing_law arena root) inside ⟨site, arena⟩
      ⟨trivial, arena.regionBelow_encloses root⟩) (fun _ _ told => told.1.grows)
    fun _ _ fell => fell.1.grows

namespace Arena

/-- The scan for writes goes through a statement as a recursive descent does. On every arena in
which nothing lies below itself, however nodes are shared and whatever stands under the ids, its
loop comes to an end, and what it has found then are the targets of the assignments and deletes
below the statement, as the descent meets them, each where it is met first. The targets of all
statements below are there, and nothing else; and a walk of the statement, wherever it ends, has
assigned and deleted no other variable. -/
theorem scan_finds_preorder {arena : Arena} (acyclic : arena.Acyclic) (root : NodeId) :
    (⟨[root], ∅, []⟩ : Scan).Finds arena (arena.variablesWritten root) ∧
      arena.variablesWritten root = (arena.targetsBelow acyclic root).eraseDups ∧ (arena.variablesWritten root).Nodup ∧
      (∀ var, var ∈ arena.variablesWritten root ↔ ∃ id stmt, arena.Below root id ∧ arena.stmt? id = some stmt ∧ var ∈ stmt.target?) ∧
      ∀ site, Ends (Walk.walkStmt root) ⟨site, arena⟩
        (fun _ after => site.analysis.traces.WritesOnly (arena.variablesWritten root) after.analysis.traces)
        fun _ after => site.analysis.traces.WritesOnly (arena.variablesWritten root) after.analysis.traces := by
  refine ⟨acyclic.finds_variablesWritten root, acyclic.variablesWritten_eq root, nodup_scanWrites .nil, fun var => ⟨fun found => ?_, ?_⟩,
    Walk.ends_walkStmt_writesOnly arena root⟩
  · exact (mem_variablesWritten.1 found).exists_below .root
  · rintro ⟨id, stmt, below, found, target⟩
    exact mem_variablesWritten_of_below below found target

/-- A block that names an arm twice, a statement of the arm once more by itself, an expression, and
an id past the end. -/
def writesShared : Arena :=
  let plain (node : Node) : Slot := ⟨node, .synthetic⟩
  ⟨#[plain (.expr (.literal .none)), plain (.stmt (.assign 4 0 none)), plain (.stmt (.delete 1 true none)), plain (.stmt (.assign 3 0 none)),
    plain (.stmt (.branch 0 (some 2) (some 1))), plain (.stmt (.loop (some 3))), plain (.stmt (.block [4, 0, 1, 5, 99, 4]))]⟩

/-- The arm that is taken if the condition holds comes first, and nothing comes twice. -/
theorem writesShared_scanned : ∃ acyclic : writesShared.Acyclic,
    (⟨[6], ∅, []⟩ : Scan).Finds writesShared [1, 4, 3] ∧ (writesShared.targetsBelow acyclic 6).eraseDups = [1, 4, 3] := by
  have acyclic : writesShared.Acyclic := acyclic_of_descends_inside (by decide)
  obtain ⟨finds, preorder, -⟩ := scan_finds_preorder acyclic 6
  have written : writesShared.variablesWritten 6 = [1, 4, 3] := by decide +kernel
  exact ⟨acyclic, written ▸ finds, preorder.symm.trans written⟩

end Arena

end ValueFlow
