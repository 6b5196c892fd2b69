import ValueFlow.Proofs.Meaning.Runs
import ValueFlow.Proofs.Tree.Shows

/-!
# Where a run comes to a delete

A run that comes to a delete has a log so far and a store at that moment (`Arrives`). What it did
before is told by whole runs of the code in front, and in a loop by whole rounds (`Turns`). These
are all runs that do the delete: a run comes to it exactly if it may do it next
(`Arena.Shows.arrives_iff`).

The worlds here are those in which source text that is evaluated at run time may bind and unbind any
variable of the table, locals included, and nothing else changes a variable behind the code's back
(`Variables.exposed`, `World.OnlyAt`). Whether an evaluation ran behind the last write of a variable
can be told from the log (`Stirred`).
-/

namespace ValueFlow
set_option autoImplicit false

/-- The nodes that evaluate source text. -/
def Code.evals : Code → List NodeId
  | call _ callee args => callee.evals ++ args.evals
  | eval id source => id :: source.evals
  | block _ row => row.evals
  | assign _ _ value _ => value.evals
  | effect _ expr => expr.evals
  | branch _ cond yes no => cond.evals ++ (yes.evals ++ no.evals)
  | loop _ body => body.evals
  | ret _ value => value.evals
  | cons head tail => head.evals ++ tail.evals
  | _ => []

/-- A delete of the variable stands at the node. -/
def Code.HasDelete (code : Code) (target : NodeId) (var : VarId) : Prop := ∃ version, (target, var, some false, version) ∈ code.notes

namespace Variables

/-- The table in which code elsewhere may reach every variable. -/
def exposed (vars : Variables) : Variables := ⟨vars.entries.map ({ · with captured := true })⟩

/-- A store in which a body may be entered, whatever code elsewhere may reach: parameters are bound,
locals and temporaries are not. -/
def Enters (vars : Variables) (store : Store) : Prop :=
  ∀ var slot, vars.get? var = some slot →
    (slot.storage = .parameter → store var = true) ∧ (slot.storage = .localSlot ∨ slot.storage = .temporary → store var = false)

variable {vars : Variables} {var : VarId}

theorem get?_exposed :
    vars.exposed.get? var = (vars.get? var).map ({ · with captured := true }) := by
  simp [exposed, get?]

/-- In the exposed table no variable is private. -/
theorem not_isPrivate_exposed {slot : Variable} (found : vars.get? var = some slot) :
    ¬ vars.exposed.IsPrivate var := by
  intro isPrivate
  have reached := (isPrivate _ (get?_exposed.trans (congrArg _ found))).2
  cases reached

end Variables

/-- Code elsewhere changes variables only where it is run by one of these nodes. -/
def World.OnlyAt {setting : Setting} (world : World setting) (nodes : List NodeId) : Prop :=
  ∀ {node before raises after}, world.outcome node before raises after → node ∉ nodes → after = before

/-- In the log one of these nodes ran code elsewhere, and the variable was not written since. -/
def Stirred (nodes : List NodeId) (var : VarId) (log : List Event) : Prop :=
  ∃ early node store late, log = early ++ .call node store :: late ∧ node ∈ nodes ∧ ∀ writer, .write writer var ∉ late

section Stirred

variable {nodes : List NodeId} {var : VarId} {early late log : List Event}

theorem not_stirred_nil : ¬ Stirred nodes var [] := by
  rintro ⟨_, _, _, _, impossible, -⟩
  simp at impossible

theorem stirred_append :
    Stirred nodes var (early ++ late) ↔ Stirred nodes var late ∨ Stirred nodes var early ∧ ∀ writer,
      .write writer var ∉ late := by
  constructor
  · rintro ⟨front, node, store, back, same, mem, unwritten⟩
    rcases List.append_eq_append_iff.1 same with ⟨rest, rfl, rfl⟩ | ⟨rest, rfl, behind⟩
    · exact .inl ⟨rest, node, store, back, rfl, mem, unwritten⟩
    · cases rest with
      | nil => exact .inl ⟨[], node, store, back, behind.symm, mem, unwritten⟩
      | cons event rest =>
        obtain ⟨rfl, rfl⟩ := List.cons.inj behind
        exact .inr ⟨⟨front, node, store, rest, rfl, mem,
          fun writer held => unwritten writer (List.mem_append_left _ held)⟩,
          fun writer held => unwritten writer (List.mem_append_right _ held)⟩
  · rintro (⟨front, node, store, back, rfl, mem, unwritten⟩ |
      ⟨⟨front, node, store, back, rfl, mem, unwritten⟩, silent⟩)
    · exact ⟨early ++ front, node, store, back, by simp, mem, unwritten⟩
    · refine ⟨front, node, store, back ++ late, by simp, mem, fun writer held => ?_⟩
      exact (List.mem_append.1 held).elim (unwritten writer) (silent writer)

theorem stirred_single {event : Event} :
    Stirred nodes var [event] ↔ ∃ node store, event = .call node store ∧ node ∈ nodes := by
  constructor
  · rintro ⟨front, node, store, back, same, mem, -⟩
    cases front with
    | nil => exact ⟨node, store, (List.cons.inj same).1, mem⟩
    | cons _ front => simp at same
  · rintro ⟨node, store, rfl, mem⟩
    exact ⟨[], node, store, [], rfl, mem, nofun⟩

/-- What was stirred stays so until its next write. -/
theorem Stirred.snoc (stirred : Stirred nodes var log) {event : Event}
    (other : ∀ writer, event ≠ .write writer var) :
    Stirred nodes var (log ++ [event]) :=
  stirred_append.2 (.inr ⟨stirred, fun writer mem => other writer (List.mem_singleton.1 mem).symm⟩)

end Stirred

/-- Some whole rounds of a loop, each of which came back to the head. -/
inductive Turns (id : NodeId) (body : Behaviour) : Store → List Event → Store → Prop
  | none (store : Store) : Turns id body store [] store
  | again {before middle after : Store} {early late : List Event} {ending : Ending} (turns : Turns id body before early middle)
      (round : body middle late ending after) (back : ending = .done ∨ ending = .cont) :
      Turns id body before (early ++ (late ++ [.turn id])) after

/-- A run of the code that begins with the first store comes, with this log, to the delete of a
variable at a node, and the last store is the one before the delete. -/
inductive Arrives {setting : Setting} (world : World setting) (target : NodeId) (var : VarId) :
    Code → Store → List Event → Store → Prop
  | here {tolerant : Bool} {version : Option Version} {store : Store} :
    Arrives world target var (.delete target var tolerant version) store [] store
  | block {id : NodeId} {row : Code} {store here : Store} {log : List Event} (inside : Arrives world target var row store log here) :
    Arrives world target var (.block id row) store log here
  | head {head tail : Code} {store here : Store} {log : List Event} (inside : Arrives world target var head store log here) :
    Arrives world target var (.cons head tail) store log here
  | tail {head tail : Code} {store middle here : Store} {early late : List Event} (run : head.runs world store early .done middle)
    (inside : Arrives world target var tail middle late here) : Arrives world target var (.cons head tail) store (early ++ late) here
  | known {id : NodeId} {cond yes no : Code} {value : Literal} {store here : Store} {log : List Event}
    (known : cond.constant? setting.options = some value)
    (inside : Arrives world target var (if value.isTruthy then yes else no) store log here) :
    Arrives world target var (.branch id cond yes no) store log here
  | arm {id : NodeId} {cond yes no arm : Code} {store middle here : Store} {early late : List Event}
    (unknown : cond.constant? setting.options = none) (taken : arm = yes ∨ arm = no) (run : cond.runs world store early .done middle)
    (inside : Arrives world target var arm middle late here) :
    Arrives world target var (.branch id cond yes no) store (early ++ late) here
  | round {id : NodeId} {body : Code} {store middle here : Store} {early late : List Event}
    (turns : Turns id (body.runs world) store early middle) (inside : Arrives world target var body middle late here) :
    Arrives world target var (.loop id body) store (early ++ late) here

section Behaviours

open Behaviour

variable {first second body : Behaviour} {id : NodeId} {before middle after : Store}
  {early late : List Event} {event : Event} {ending : Ending}

/-- A step does one thing. -/
theorem Behaviour.atom_only {step : Store → Ending → Store → Prop} {only : Event}
    (run : atom (fun _ => [only]) step before (early ++ event :: late) ending after) :
    early = [] ∧ event = only := by
  rcases run with ⟨none, -⟩ | ⟨one, -⟩
  · exact absurd none (List.append_ne_nil_of_right_ne_nil _ (List.cons_ne_nil _ _))
  · rcases List.append_eq_singleton_iff.1 one with ⟨rfl, same⟩ | ⟨-, none⟩
    · exact ⟨rfl, (List.cons.inj same).1⟩
    · cases none

/-- What happens in a run of two programs happens in the first one, or behind it in the second
one. -/
theorem Behaviour.seq_split (run : first.seq second before (early ++ event :: late) ending after) :
    (∃ rest reached left, first before (early ++ event :: rest) reached left) ∨
      ∃ front back middle, early = front ++ back ∧ first before front .done middle ∧
        second middle (back ++ event :: late) ending after := by
  rcases run with ⟨run, -⟩ | ⟨front, middle, back, run, rest, same⟩
  · exact .inl ⟨_, _, _, run⟩
  · rcases List.append_eq_append_iff.1 same with ⟨gap, rfl, behind⟩ | ⟨gap, rfl, rfl⟩
    · cases gap with
      | nil => exact .inr ⟨early ++ [], [], middle, by simp, run, behind ▸ rest⟩
      | cons other gap =>
        obtain ⟨rfl, rfl⟩ := List.cons.inj behind
        exact .inl ⟨_, _, _, run⟩
    · exact .inr ⟨front, gap, middle, rfl, run, rest⟩

/-- A round in front of whole rounds. -/
theorem Turns.behind (round : body before early ending middle)
    (back : ending = .done ∨ ending = .cont) (turns : Turns id body middle late after) :
    Turns id body before (early ++ .turn id :: late) after := by
  induction turns with
  | none => exact .again (.none before) round back
  | again _ next goes ih =>
    have gone := ih.again next goes
    simpa using gone

/-- What happens in a run of a loop happens in some round, behind whole rounds. -/
theorem Turns.of_loop (run : Loop id body before (early ++ event :: late) ending after)
    (other : event ≠ .turn id) :
    ∃ front back middle, early = front ++ back ∧ Turns id body before front middle ∧
      ∃ rest reached left, body middle (back ++ event :: rest) reached left := by
  generalize same : early ++ event :: late = log at run
  induction run generalizing early late with
  | @again before middle after front behind reached ending round back _ ih =>
    rcases List.append_eq_append_iff.1 same with ⟨gap, rfl, whole⟩ | ⟨gap, rfl, whole⟩
    · cases gap with
      | nil => exact absurd (List.cons.inj whole).1 other
      | cons head gap =>
        obtain ⟨rfl, -⟩ := List.cons.inj whole
        exact ⟨[], early, before, rfl, .none before, _, _, _, round⟩
    · cases gap with
      | nil => exact absurd (List.cons.inj whole).1.symm other
      | cons head gap =>
        obtain ⟨rfl, rfl⟩ := List.cons.inj whole
        obtain ⟨first, second, stop, rfl, turns, inside⟩ := ih rfl
        exact ⟨front ++ .turn id :: first, second, stop, by simp, turns.behind round back, inside⟩
  | broken round | left round _ =>
    subst same
    exact ⟨[], early, _, rfl, .none _, _, _, _, round⟩

/-- Behind whole rounds a loop goes on like one that begins there. -/
theorem Turns.onward (turns : Turns id body before early middle)
    (rest : Loop id body middle late ending after) :
    Loop id body before (early ++ late) ending after := by
  induction turns generalizing late with
  | none => exact rest
  | again _ round back ih =>
    have gone := ih (.again round back rest)
    simpa using gone

end Behaviours

section Arrivals

open Behaviour

variable {setting : Setting} {world : World setting} {target : NodeId} {var : VarId} {code : Code}
  {store after here : Store} {early late log : List Event} {ending : Ending} {arena : Arena}
  {place : Place}

/-- What comes to a delete may do it next. -/
theorem Arrives.deletes (arrives : Arrives world target var code store log here) :
    code.runs world store (log ++ [.write target var]) .cut (here.set var false) := by
  induction arrives with
  | here => exact .inr ⟨rfl, _, ⟨rfl, rfl⟩, .inr rfl⟩
  | block _ ih => exact ih
  | head _ ih => exact seq_stops ih nofun
  | tail run _ ih =>
    rw [List.append_assoc]
    exact seq_goes run ih
  | known known _ ih =>
    rw [Code.runs_branch_known world _ known]
    exact ih
  | arm unknown taken run _ ih =>
    rw [Code.runs_branch_unknown world _ unknown, List.append_assoc]
    refine seq_goes run ?_
    rcases taken with rfl | rfl
    · exact .inl ih
    · exact .inr ih
  | round turns _ ih =>
    rw [List.append_assoc]
    exact turns.onward (.left ih (.inr (.inr rfl)))

/-- Expressions write nothing. -/
theorem Arena.Shows.silent (shows_ : arena.Shows place code) (expr : place.stmts = [])
    (run : code.runs world store log ending after) (writer : NodeId) (var : VarId) :
    .write writer var ∉ log := by
  intro mem
  obtain ⟨_, held, _⟩ :=
    shows_.writesWithin (Nat.le_refl _) ((code.writes_targets world).only run writer var mem)
  rw [expr] at held
  cases held

/-- What does a delete came to it. -/
theorem Arena.Shows.arrives (shows_ : arena.Shows place code)
    (unassigned : (target, var, true) ∉ code.writes)
    (run : code.runs world store (early ++ .write target var :: late) ending after) :
    ∃ here, Arrives world target var code store early here := by
  have here {front back : List Event} : .write target var ∈ front ++ .write target var :: back :=
    List.mem_append_right _ List.mem_cons_self
  induction shows_ generalizing store early late ending after with
  | literal | read | builtin | release | brk | cont | hole | nil | absent =>
    obtain ⟨_, held⟩ := (Code.writes_writes world _).only run target var here
    cases held
  | call found callee args => exact absurd here ((Shows.call found callee args).silent rfl run _ _)
  | eval found source => exact absurd here ((Shows.eval found source).silent rfl run _ _)
  | block _ _ ih => exact (ih unassigned run).imp fun _ => .block
  | assign _ value _ =>
    rcases seq_split run with ⟨_, _, _, run⟩ | ⟨_, _, _, -, -, run⟩
    · exact absurd here (value.silent rfl run _ _)
    · obtain ⟨-, same⟩ := atom_only run
      obtain ⟨rfl, rfl⟩ := Event.write.inj same
      exact absurd (List.mem_append_right _ List.mem_cons_self) unassigned
  | delete =>
    unfold Code.runs World.unbinds at run
    obtain ⟨rfl, same⟩ := atom_only run
    obtain ⟨rfl, rfl⟩ := Event.write.inj same
    exact ⟨store, .here⟩
  | effect _ expr _ => exact absurd here (expr.silent rfl run _ _)
  | @branch _ _ _ _ cond yes no _ condShown _ _ _ second third =>
    have arms {arm : Code} (taken : arm = yes ∨ arm = no) {before last : Store}
        {front back : List Event} {stop : Ending}
        (inside : arm.runs world before (front ++ .write target var :: back) stop last) :
        ∃ here, Arrives world target var arm before front here := by
      rcases taken with rfl | rfl
      · exact second
          (fun mem => unassigned (List.mem_append_right _ (List.mem_append_left _ mem))) inside
      · exact third (fun mem => unassigned (List.mem_append_right _ (List.mem_append_right _ mem)))
          inside
    cases known : cond.constant? setting.options with
    | some value =>
      rw [Code.runs_branch_known world _ known] at run
      exact (arms (ite_eq_or_eq _ _ _) run).imp fun _ => .known known
    | none =>
      rw [Code.runs_branch_unknown world _ known] at run
      rcases seq_split run with ⟨_, _, _, run⟩ | ⟨front, back, middle, rfl, run, rest | rest⟩
      · exact absurd here (condShown.silent rfl run _ _)
      · exact (arms (.inl rfl) rest).imp fun _ => .arm known (.inl rfl) run
      · exact (arms (.inr rfl) rest).imp fun _ => .arm known (.inr rfl) run
  | loop _ _ ih =>
    obtain ⟨front, back, middle, rfl, turns, _, _, _, round⟩ := Turns.of_loop run (by simp)
    exact (ih unassigned round).imp fun _ => .round turns
  | ret _ value _ =>
    rcases seq_split run with ⟨_, _, _, run⟩ | ⟨_, _, _, -, -, run⟩
    · exact absurd here (value.silent rfl run _ _)
    · exact absurd (stop_iff.1 run).1 (List.append_ne_nil_of_right_ne_nil _ (List.cons_ne_nil _ _))
  | cons _ _ first second =>
    rcases seq_split run with ⟨_, _, _, run⟩ | ⟨front, back, middle, rfl, run, rest⟩
    · exact (first (fun mem => unassigned (List.mem_append_left _ mem)) run).imp fun _ => .head
    · exact (second (fun mem => unassigned (List.mem_append_right _ mem)) rest).imp
        fun _ => .tail run
  | present _ ih => exact ih unassigned run

/-- A run comes to a delete exactly if the delete may be what it does next. -/
theorem Arena.Shows.arrives_iff (shows_ : arena.Shows place code)
    (unassigned : (target, var, true) ∉ code.writes) :
    (∃ here, Arrives world target var code store log here) ↔
      ∃ late ending after, code.runs world store (log ++ .write target var :: late)
        ending after := by
  constructor
  · rintro ⟨here, arrives⟩
    exact ⟨[], _, _, arrives.deletes⟩
  · rintro ⟨late, ending, after, run⟩
    exact shows_.arrives unassigned run

theorem Code.HasDelete.mono {whole : Code} (stands : code.HasDelete target var)
    (sub : code.notes ⊆ whole.notes) : whole.HasDelete target var :=
  stands.imp fun _ mem => sub mem

/-- The delete to which a run comes stands in the code. -/
theorem Arrives.hasDelete (arrives : Arrives world target var code store log here) :
    code.HasDelete target var := by
  induction arrives with
  | here => exact ⟨_, List.mem_cons_self⟩
  | block _ ih | round _ _ ih => exact ih
  | head _ ih => exact ih.mono (List.subset_append_left _ _)
  | tail _ _ ih => exact ih.mono (List.subset_append_right _ _)
  | known _ _ ih =>
    refine ih.mono fun _ mem => List.mem_append_right _ ?_
    split at mem
    · exact List.mem_append_left _ mem
    · exact List.mem_append_right _ mem
  | arm _ taken _ _ ih =>
    refine ih.mono fun _ mem => List.mem_append_right _ ?_
    rcases taken with rfl | rfl
    · exact List.mem_append_left _ mem
    · exact List.mem_append_right _ mem

end Arrivals

end ValueFlow
