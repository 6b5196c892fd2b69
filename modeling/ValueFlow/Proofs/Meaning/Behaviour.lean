import ValueFlow.Variable
import ValueFlow.Syntax

/-!
# Behaviours

What a program may do, as a relation: from a store, with a log of events, it may end in one of some
ways and leave another store. The store says which variables are bound, and nothing more is kept of
their values.

A run need not be whole. `Ending.cut` ends a run at any moment, so that a program which never ends
has runs all the same, one for each moment (`Behaviour.Cuttable`). What is said of all runs is said
of infinite ones too, and two programs with the same runs do the same for as long as one looks.
-/

namespace ValueFlow
set_option autoImplicit false

/-- Which variables are bound. -/
abbrev Store := VarId → Bool

/-- Binds or unbinds a variable. -/
def Store.set (store : Store) (var : VarId) (bound : Bool) : Store :=
  fun other => if other = var then bound else store other

/-- How a run ends: past the end of the program, by an exit, by an exception, or because it was cut
off. -/
inductive Ending where
  | done
  | brk
  | cont
  | ret
  | raised
  | cut
deriving DecidableEq, Repr

/-- What can be told of a run: a node read a variable, a node wrote one, a node ran code that is not
under analysis, which saw the store, or a loop came back to its head. -/
inductive Event where
  | read (node : NodeId) (var : VarId)
  | write (node : NodeId) (var : VarId)
  | call (node : NodeId) (store : Store)
  | turn (loop : NodeId)

/-- Reads and calls are visible for themselves. Writes show in what they leave behind, and how far a
program has come in its loops does not show. -/
def Event.isVisible : Event → Bool
  | .read _ _ => true
  | .write _ _ => false
  | .call _ _ => true
  | .turn _ => false

/-- What a program may do: the store before, the events in order, the ending, the store after. -/
abbrev Behaviour := Store → List Event → Ending → Store → Prop

namespace Behaviour

/-- One step with its events, which can be cut off before and behind them. -/
def atom (events : Store → List Event) (step : Store → Ending → Store → Prop) : Behaviour :=
  fun before log ending after =>
    log = [] ∧ ending = .cut ∧ after = before ∨
      log = events before ∧ ∃ reached, step before reached after ∧ (ending = reached ∨ ending = .cut)

/-- Does nothing but end in one way. -/
def stop (ending : Ending) : Behaviour := atom (fun _ => []) fun before reached after => reached = ending ∧ after = before

/-- Does nothing. -/
def skip : Behaviour := stop .done

/-- Has no first step. -/
def stuck : Behaviour := atom (fun _ => []) fun _ _ _ => False

/-- One program, and behind its end another one. -/
def seq (first second : Behaviour) : Behaviour := fun before log ending after =>
  first before log ending after ∧ ending ≠ .done ∨
    ∃ early middle late, first before early .done middle ∧ second middle late ending after ∧ log = early ++ late

/-- One of two programs. -/
def either (first second : Behaviour) : Behaviour := fun before log ending after =>
  first before log ending after ∨ second before log ending after

/-- Round after round of the body of a loop until something leaves it. -/
inductive Loop (id : NodeId) (body : Behaviour) : Behaviour
  | again {before middle after : Store} {early late : List Event} {roundEnd ending : Ending}
      (round : body before early roundEnd middle) (back : roundEnd = .done ∨ roundEnd = .cont)
      (onward : Loop id body middle late ending after) : Loop id body before (early ++ .turn id :: late) ending after
  | broken {before after : Store} {log : List Event} (round : body before log .brk after) :
      Loop id body before log .done after
  | left {before after : Store} {log : List Event} {ending : Ending} (round : body before log ending after)
      (out : ending = .ret ∨ ending = .raised ∨ ending = .cut) : Loop id body before log ending after

/-- A run may be cut off before it has begun, and just before its end. -/
structure Cuttable (behaviour : Behaviour) : Prop where
  start : ∀ store, behaviour store [] .cut store
  early : ∀ {before log ending after}, behaviour before log ending after → behaviour before log .cut after

variable {first second third body : Behaviour} {before after : Store} {log : List Event}
  {ending : Ending} {id : NodeId}

theorem atom_step {events : Store → List Event} {step : Store → Ending → Store → Prop}
    (taken : step before ending after) :
    atom events step before (events before) ending after :=
  .inr ⟨rfl, ending, taken, .inl rfl⟩

theorem stop_iff {reached : Ending} : stop reached before log ending after ↔
    log = [] ∧ after = before ∧ (ending = reached ∨ ending = .cut) := by
  unfold stop atom
  constructor
  · rintro (⟨rfl, rfl, rfl⟩ | ⟨rfl, _, ⟨rfl, rfl⟩, ends⟩)
    · exact ⟨rfl, rfl, .inr rfl⟩
    · exact ⟨rfl, rfl, ends⟩
  · rintro ⟨rfl, rfl, ends⟩
    exact .inr ⟨rfl, reached, ⟨rfl, rfl⟩, ends⟩

theorem skip_iff :
    skip before log ending after ↔ log = [] ∧ after = before ∧ (ending = .done ∨ ending = .cut) :=
  stop_iff

theorem seq_stops (run : first before log ending after) (stops : ending ≠ .done) :
    first.seq second before log ending after :=
  .inl ⟨run, stops⟩

theorem seq_goes {middle : Store} {early late : List Event}
    (run : first before early .done middle) (rest : second middle late ending after) :
    first.seq second before (early ++ late) ending after :=
  .inr ⟨early, middle, late, run, rest, rfl⟩

section Cuttable

theorem cuttable_atom (events : Store → List Event) (step : Store → Ending → Store → Prop) :
    Cuttable (atom events step) where
  start _ := .inl ⟨rfl, rfl, rfl⟩
  early := by
    rintro before log ending after (⟨rfl, -, rfl⟩ | ⟨rfl, reached, taken, -⟩)
    · exact .inl ⟨rfl, rfl, rfl⟩
    · exact .inr ⟨rfl, reached, taken, .inr rfl⟩

theorem cuttable_stop (ending : Ending) : Cuttable (stop ending) := cuttable_atom _ _

theorem cuttable_skip : Cuttable skip := cuttable_stop _

theorem Cuttable.seq (cutFirst : Cuttable first) (cutSecond : Cuttable second) :
    Cuttable (first.seq second) where
  start store := seq_stops (cutFirst.start store) nofun
  early := by
    rintro before log ending after (⟨run, -⟩ | ⟨early, middle, late, run, rest, rfl⟩)
    · exact seq_stops (cutFirst.early run) nofun
    · exact seq_goes run (cutSecond.early rest)

theorem Cuttable.either (cutFirst : Cuttable first) (cutSecond : Cuttable second) :
    Cuttable (first.either second) where
  start store := .inl (cutFirst.start store)
  early run := run.imp cutFirst.early cutSecond.early

theorem Cuttable.loop (cutBody : Cuttable body) : Cuttable (Loop id body) where
  start store := .left (cutBody.start store) (.inr (.inr rfl))
  early := by
    intro before log ending after run
    induction run with
    | again round back _ ih => exact .again round back ih
    | broken round => exact .left (cutBody.early round) (.inr (.inr rfl))
    | left round _ => exact .left (cutBody.early round) (.inr (.inr rfl))

end Cuttable

section Writes

/-- No node of the program writes a variable but those allowed. -/
structure Writes (behaviour : Behaviour) (allowed : NodeId → VarId → Prop) : Prop where
  only : ∀ {before log ending after}, behaviour before log ending after →
    ∀ node var, .write node var ∈ log → allowed node var

variable {allowed more : NodeId → VarId → Prop}

theorem Writes.mono (writes : Writes first allowed)
    (sub : ∀ node var, allowed node var → more node var) : Writes first more :=
  ⟨fun run node var mem => sub node var (writes.only run node var mem)⟩

theorem writes_atom {events : Store → List Event} {step : Store → Ending → Store → Prop}
    (each : ∀ store node var, .write node var ∈ events store → allowed node var) :
    Writes (atom events step) allowed := by
  constructor
  rintro before log ending after (⟨rfl, -⟩ | ⟨rfl, -⟩) node var mem
  · cases mem
  · exact each before node var mem

theorem writes_stop (ending : Ending) : Writes (stop ending) allowed := writes_atom nofun

theorem Writes.seq (writesFirst : Writes first allowed) (writesSecond : Writes second allowed) :
    Writes (first.seq second) allowed := by
  constructor
  rintro before log ending after (⟨run, -⟩ | ⟨early, middle, late, run, rest, rfl⟩) node var mem
  · exact writesFirst.only run node var mem
  · rcases List.mem_append.1 mem with mem | mem
    · exact writesFirst.only run node var mem
    · exact writesSecond.only rest node var mem

theorem Writes.either (writesFirst : Writes first allowed) (writesSecond : Writes second allowed) :
    Writes (first.either second) allowed := by
  constructor
  rintro before log ending after (run | run) node var mem
  · exact writesFirst.only run node var mem
  · exact writesSecond.only run node var mem

theorem Writes.loop (writesBody : Writes body allowed) : Writes (Loop id body) allowed := by
  constructor
  intro before log ending after run node var mem
  induction run with
  | again round _ _ ih =>
    rcases List.mem_append.1 mem with mem | mem
    · exact writesBody.only round node var mem
    · exact ih (by simpa using mem)
  | broken round | left round _ => exact writesBody.only round node var mem

end Writes

section Laws

/-- Nothing in front of a program. -/
theorem skip_seq (cut : Cuttable second) : skip.seq second = second := by
  funext before log ending after
  apply propext
  constructor
  · rintro (⟨run, stops⟩ | ⟨early, middle, late, run, rest, rfl⟩)
    · obtain ⟨rfl, rfl, ends⟩ := skip_iff.1 run
      rw [ends.resolve_left stops]
      exact cut.start _
    · obtain ⟨rfl, rfl, -⟩ := skip_iff.1 run
      exact rest
  · intro run
    exact seq_goes (skip_iff.2 ⟨rfl, rfl, .inl rfl⟩) run

/-- Nothing behind a program. -/
theorem seq_skip (cut : Cuttable first) : first.seq skip = first := by
  funext before log ending after
  apply propext
  constructor
  · rintro (⟨run, -⟩ | ⟨early, middle, late, run, rest, rfl⟩)
    · exact run
    · obtain ⟨rfl, rfl, rfl | rfl⟩ := skip_iff.1 rest
      · rwa [List.append_nil]
      · rw [List.append_nil]
        exact cut.early run
  · intro run
    by_cases ends : ending = .done
    · subst ends
      rw [← List.append_nil log]
      exact seq_goes run (skip_iff.2 ⟨rfl, rfl, .inl rfl⟩)
    · exact seq_stops run ends

theorem seq_assoc : (first.seq second).seq third = first.seq (second.seq third) := by
  funext before log ending after
  apply propext
  constructor
  · rintro (⟨⟨run, _⟩ | ⟨early, middle, late, run, rest, rfl⟩, stops⟩ |
      ⟨_, _, last, ⟨_, done⟩ | ⟨early, middle, late, run, rest, rfl⟩, ends, rfl⟩)
    · exact seq_stops run stops
    · exact seq_goes run (seq_stops rest stops)
    · exact absurd rfl done
    · rw [List.append_assoc]
      exact seq_goes run (seq_goes rest ends)
  · rintro (⟨run, stops⟩ |
      ⟨early, middle, late, run, ⟨rest, stops⟩ | ⟨next, later, last, rest, ends, rfl⟩, rfl⟩)
    · exact seq_stops (seq_stops run stops) stops
    · exact seq_stops (seq_goes run rest) stops
    · rw [← List.append_assoc]
      exact seq_goes (seq_goes run rest) ends

theorem either_self : first.either first = first := by
  funext before log ending after
  exact propext or_self_iff

/-- To continue at the end of a body is to come to its end. -/
theorem loop_seq_cont (cut : Cuttable body) : Loop id (body.seq (stop .cont)) = Loop id body := by
  funext before log ending after
  apply propext
  constructor
  · intro run
    induction run with
    | again round back _ ih =>
      rcases round with ⟨round, -⟩ | ⟨early, middle, late, round, ends, rfl⟩
      · exact .again round back ih
      · obtain ⟨rfl, rfl, -⟩ := stop_iff.1 ends
        rw [List.append_nil]
        exact .again round (.inl rfl) ih
    | broken round =>
      rcases round with ⟨round, -⟩ | ⟨early, middle, late, round, ends, rfl⟩
      · exact .broken round
      · cases (stop_iff.1 ends).2.2 <;> contradiction
    | left round out =>
      rcases round with ⟨round, -⟩ | ⟨early, middle, late, round, ends, rfl⟩
      · exact .left round out
      · obtain ⟨rfl, rfl, rfl | rfl⟩ := stop_iff.1 ends
        · rcases out with out | out | out <;> cases out
        · rw [List.append_nil]
          exact .left (cut.early round) (.inr (.inr rfl))
  · intro run
    induction run with
    | again round back _ ih =>
      rcases back with rfl | rfl
      · have whole : body.seq (stop .cont) _ _ .cont _ :=
          seq_goes round (stop_iff.2 ⟨rfl, rfl, .inl rfl⟩)
        rw [List.append_nil] at whole
        exact .again whole (.inr rfl) ih
      · exact .again (seq_stops round nofun) (.inr rfl) ih
    | broken round => exact .broken (seq_stops round nofun)
    | left round out =>
      refine .left (seq_stops round ?_) out
      rcases out with rfl | rfl | rfl <;> nofun

/-- A loop that is left at once does nothing. -/
theorem loop_stop_brk : Loop id (stop .brk) = skip := by
  funext before log ending after
  apply propext
  constructor
  · intro run
    cases run with
    | again round back _ =>
      rcases (stop_iff.1 round).2.2 with rfl | rfl <;> rcases back with back | back <;> cases back
    | broken round => exact skip_iff.2 ⟨(stop_iff.1 round).1, (stop_iff.1 round).2.1, .inl rfl⟩
    | left round out =>
      obtain ⟨none, same, rfl | rfl⟩ := stop_iff.1 round
      · rcases out with out | out | out <;> cases out
      · exact skip_iff.2 ⟨none, same, .inr rfl⟩
  · intro run
    obtain ⟨rfl, rfl, rfl | rfl⟩ := skip_iff.1 run
    · exact .broken (stop_iff.2 ⟨rfl, rfl, .inl rfl⟩)
    · exact .left (stop_iff.2 ⟨rfl, rfl, .inr rfl⟩) (.inr (.inr rfl))

end Laws

end Behaviour

end ValueFlow
