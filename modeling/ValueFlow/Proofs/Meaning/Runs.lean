import ValueFlow.Proofs.Meaning.Behaviour
import ValueFlow.Proofs.Tree.Code

/-!
# What code does

A tree of nodes runs against a world, which says what the code elsewhere does when it is called. A
condition of known value goes its way and any other may go either way. A read or a strict delete of
an unbound variable raises; a read that has a fallback may use that instead. A call and an
evaluation of source text may raise, and may rebind the variables that are not private, but no
others.

The laws say what the functions on trees in `Tree/Code` do to the runs.
-/

namespace ValueFlow
set_option autoImplicit false

/-- The variable is neither a global nor captured by a closure, so that only the code under analysis
binds or unbinds it. -/
def Variables.IsPrivate (vars : Variables) (var : VarId) : Prop :=
  ∀ slot, vars.get? var = some slot → slot.isGlobal = false ∧ slot.captured = false

/-- A read of the variable may go on although it is unbound. -/
def Variables.FallsBack (vars : Variables) (var : VarId) : Prop :=
  ∃ slot fallback, vars.get? var = some slot ∧ slot.storage = .maybeLocal fallback

/-- What is known of the surroundings of the code under analysis. -/
structure Setting where
  vars : Variables
  options : Options

/-- The code elsewhere. When a node calls it in a store it may have an outcome: whether it raises,
and the store behind it. -/
structure World (setting : Setting) where
  outcome : NodeId → Store → Bool → Store → Prop
  frame : ∀ {node before raises after}, outcome node before raises after →
    ∀ var, setting.vars.IsPrivate var → after var = before var

/-- A store in which a body may be entered: parameters are bound, locals and temporaries are not. Of
variables that are not private nothing is asked. -/
def Variables.OnEntry (vars : Variables) (store : Store) : Prop :=
  ∀ var slot, vars.get? var = some slot → vars.IsPrivate var →
    (slot.storage = .parameter → store var = true) ∧
      (slot.storage = .localSlot ∨ slot.storage = .temporary → store var = false)

namespace World

variable {setting : Setting}

/-- Reads a variable. -/
def reads (setting : Setting) (id : NodeId) (var : VarId) : Behaviour :=
  .atom (fun _ => [.read id var]) fun before ending after => after = before ∧
    (ending = .done ∧ (before var = true ∨ setting.vars.FallsBack var) ∨ ending = .raised ∧ before var = false)

/-- Looks a built-in name up, which may not be there. -/
def looksUp : Behaviour := .either .skip (.stop .raised)

/-- Runs code that is not under analysis. -/
def calls (world : World setting) (id : NodeId) : Behaviour :=
  .atom (fun before => [.call id before]) fun before ending after =>
    ∃ raises, world.outcome id before raises after ∧ ending = if raises then .raised else .done

/-- Binds a variable. -/
def binds (id : NodeId) (var : VarId) : Behaviour :=
  .atom (fun _ => [.write id var]) fun before ending after => after = before.set var true ∧ ending = .done

/-- Unbinds a variable, which a strict delete demands to be bound. -/
def unbinds (id : NodeId) (var : VarId) (tolerant : Bool) : Behaviour :=
  .atom (fun _ => [.write id var]) fun before ending after => after = before.set var false ∧
    ending = if before var || tolerant then .done else .raised

end World

/-- What code does in a world. -/
def Code.runs {setting : Setting} (world : World setting) : Code → Behaviour
  | literal _ _ => .skip
  | read id var _ => World.reads setting id var
  | builtin _ name => if (builtinValue? setting.options name).isSome then .skip else World.looksUp
  | call id callee args => .seq (callee.runs world) (.seq (args.runs world) (world.calls id))
  | eval id source => .seq (source.runs world) (world.calls id)
  | block _ row => row.runs world
  | assign id target value _ => .seq (value.runs world) (World.binds id target)
  | delete id target tolerant _ => World.unbinds id target tolerant
  | release _ _ => .skip
  | effect _ expr => expr.runs world
  | branch _ cond yes no => .seq (cond.runs world) <|
    match cond.constant? setting.options with
    | some value => if value.isTruthy then yes.runs world else no.runs world
    | none => .either (yes.runs world) (no.runs world)
  | loop id body => .Loop id (body.runs world)
  | brk _ => .stop .brk
  | cont _ => .stop .cont
  | ret _ value => .seq (value.runs world) (.stop .ret)
  | hole _ => .stuck
  | nil => .skip
  | cons head tail => .seq (head.runs world) (tail.runs world)

namespace Code

variable {setting : Setting} {world : World setting} {code : Code}

open Behaviour

/-- Any run of code may be cut off. -/
theorem cuttable (world : World setting) (code : Code) : Cuttable (code.runs world) := by
  induction code with
  | literal | release | nil => exact cuttable_skip
  | read | delete | brk | cont | hole => exact cuttable_atom _ _
  | builtin id name =>
    unfold runs
    split
    · exact cuttable_skip
    · exact cuttable_skip.either (cuttable_atom _ _)
  | call id callee args first second => exact first.seq (second.seq (cuttable_atom _ _))
  | eval id source ih | assign id target source version ih | ret id source ih =>
    exact ih.seq (cuttable_atom _ _)
  | block id inner ih | effect id inner ih => exact ih
  | branch id cond yes no first second third =>
    refine first.seq ?_
    split
    · split
      · exact second
      · exact third
    · exact second.either third
  | loop id body ih => exact ih.loop
  | cons head tail first second => exact first.seq second

theorem runs_append (world : World setting) (code rest : Code) :
    (code.append rest).runs world = .seq (code.runs world) (rest.runs world) := by
  induction code with
  | nil => exact (skip_seq (rest.cuttable world)).symm
  | cons head tail _ ih =>
    rw [append_cons, runs, runs, ih, seq_assoc]
  | _ => rfl

@[simp] theorem runs_contents (world : World setting) (code : Code) :
    code.contents.runs world = code.runs world := by
  cases code <;> rfl

@[simp] theorem runs_wrap (world : World setting) (id : NodeId) (row : Code) :
    (wrap id row).runs world = row.runs world := by
  cases row <;> rfl

/-- A constant does nothing. -/
theorem runs_of_constant {value : Literal}
    (constant : code.constant? setting.options = some value) : code.runs world = .skip := by
  cases code with
  | literal id value => rfl
  | builtin id name =>
    have known : builtinValue? setting.options name = some value := constant
    simp [runs, known]
  | _ => cases constant

/-- A condition of known value goes its way. -/
theorem runs_branch_known (world : World setting) (id : NodeId) {cond : Code} {value : Literal}
    (known : cond.constant? setting.options = some value) (yes no : Code) :
    (branch id cond yes no).runs world = (if value.isTruthy then yes else no).runs world := by
  simp only [runs, known, runs_of_constant known]
  split
  · exact skip_seq (yes.cuttable world)
  · exact skip_seq (no.cuttable world)

/-- Any other condition may go either way. -/
theorem runs_branch_unknown (world : World setting) (id : NodeId) {cond : Code}
    (unknown : cond.constant? setting.options = none) (yes no : Code) :
    (branch id cond yes no).runs world =
      .seq (cond.runs world) (.either (yes.runs world) (no.runs world)) := by
  simp only [runs, unknown]

theorem runs_choice (world : World setting) (id added : NodeId) {cond : Code}
    (unknown : cond.constant? setting.options = none) (yes no : Code) :
    (choice id added cond yes no).runs world =
      .seq (cond.runs world) (.either (yes.runs world) (no.runs world)) := by
  rcases choice_cases id added cond yes no with ⟨same, rfl, rfl⟩ | same
  · rw [same]
    change cond.runs world = .seq (cond.runs world) (.either .skip .skip)
    rw [either_self, seq_skip (cond.cuttable world)]
  · rw [same, runs_branch_unknown world id unknown]

/-- A continue at the end of a loop's body does nothing. -/
theorem loop_trim (world : World setting) (id : NodeId) (body : Code) :
    Loop id (body.trim.runs world) = Loop id (body.runs world) := by
  rcases body.trim_cases with same | ⟨block, row, kept, rfl, ends, same⟩
  · rw [same]
  · obtain ⟨last, whole, -⟩ := eq_append_of_withoutCont? ends
    have onward : (cons (cont last) nil).runs world = .stop .cont := seq_skip (cuttable_stop _)
    rw [same, runs_wrap, whole]
    change _ = Loop id ((kept.append (cons (cont last) nil)).runs world)
    rw [runs_append, onward, loop_seq_cont (kept.cuttable world)]

theorem runs_cycle (world : World setting) (id : NodeId) (body : Code) :
    (cycle id body).runs world = .Loop id (body.runs world) := by
  unfold cycle
  split
  · rename_i lone
    unfold isLoneBreak at lone
    split at lone
    · change Behaviour.skip = Loop id (.seq (.stop .brk) .skip)
      rw [seq_skip (cuttable_stop _), loop_stop_brk]
    · cases lone
  · rfl

/-- The writes of a run are done by those nodes that stand for writes. -/
theorem writes_writes (world : World setting) (code : Code) :
    Writes (code.runs world) fun node var => ∃ binds, (node, var, binds) ∈ code.writes := by
  induction code with
  | literal | release | brk | cont | nil => exact writes_stop _
  | read | hole => exact writes_atom (by simp)
  | builtin id name =>
    unfold runs
    split
    · exact writes_stop _
    · exact (writes_stop _).either (writes_stop _)
  | call id callee args first second =>
    exact (first.mono fun _ _ => .imp fun _ => List.mem_append_left _).seq
      ((second.mono fun _ _ => .imp fun _ => List.mem_append_right _).seq (writes_atom (by simp)))
  | eval id source ih => exact ih.seq (writes_atom (by simp))
  | assign id target value version ih =>
    exact (ih.mono fun _ _ => .imp fun _ => List.mem_append_left _).seq
      (writes_atom (by simp [writes]))
  | delete => exact writes_atom (by simp [writes])
  | ret id value ih => exact ih.seq (writes_stop _)
  | block id inner ih | effect id inner ih => exact ih
  | branch id cond yes no first second third =>
    have yesOnly : Writes (yes.runs world) fun node var => ∃ binds,
        (node, var, binds) ∈ (branch id cond yes no).writes := second.mono fun _ _ => .imp
      fun _ mem => List.mem_append_right _ (List.mem_append_left _ mem)
    have noOnly : Writes (no.runs world) fun node var => ∃ binds,
        (node, var, binds) ∈ (branch id cond yes no).writes := third.mono fun _ _ => .imp
      fun _ mem => List.mem_append_right _ (List.mem_append_right _ mem)
    refine (first.mono fun _ _ => .imp fun _ => List.mem_append_left _).seq ?_
    split
    · split
      · exact yesOnly
      · exact noOnly
    · exact yesOnly.either noOnly
  | loop id body ih => exact ih.loop
  | cons head tail first second =>
    exact (first.mono fun _ _ => .imp fun _ => List.mem_append_left _).seq
      (second.mono fun _ _ => .imp fun _ => List.mem_append_right _)

/-- Code writes its targets only. -/
theorem writes_targets (world : World setting) (code : Code) :
    Writes (code.runs world) fun _ var => var ∈ code.targets :=
  (code.writes_writes world).mono fun _ _ ⟨_, mem⟩ => mem_targets_of_writes mem

end Code

end ValueFlow
