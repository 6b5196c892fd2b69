import ValueFlow.Proofs.Meaning.Behaviour

/-!
# Programs that do the same

Two programs are alike in a store if nothing that can be seen tells their runs from it apart: the
reads and calls in order, each call with the store that it saw, the ending, and the store behind it.
Runs that are cut off count as well.

Whether two programs in a row are alike is asked behind those runs only that the first one has.
-/

namespace ValueFlow
set_option autoImplicit false

/-- The events of a log that are visible for themselves. -/
def visible (log : List Event) : List Event := log.filter Event.isVisible

theorem visible_append (early late : List Event) :
    visible (early ++ late) = visible early ++ visible late :=
  List.filter_append ..

theorem visible_turn (id : NodeId) (log : List Event) : visible (.turn id :: log) = visible log :=
  rfl

namespace Behaviour

/-- The program has a run of which this can be seen. -/
def Seen (behaviour : Behaviour) (before : Store) (seen : List Event) (ending : Ending) (after : Store) : Prop :=
  ∃ log, behaviour before log ending after ∧ visible log = seen

/-- From the store, the same can be seen of both programs. -/
def Alike (first second : Behaviour) (store : Store) : Prop :=
  ∀ seen ending after, first.Seen store seen ending after ↔ second.Seen store seen ending after

variable {first second third body newFirst newSecond newBody : Behaviour} {store : Store}
  {id : NodeId}

theorem Alike.refl (behaviour : Behaviour) (store : Store) : Alike behaviour behaviour store :=
  fun _ _ _ => Iff.rfl

theorem Alike.symm (alike : Alike first second store) : Alike second first store :=
  fun seen ending after => (alike seen ending after).symm

theorem Alike.run (alike : Alike first second store) {log : List Event} {ending : Ending}
    {after : Store} (run : first store log ending after) :
    ∃ newLog, second store newLog ending after ∧ visible newLog = visible log :=
  (alike _ _ _).1 ⟨log, run, rfl⟩

/-- One half of being alike: every run of the first program is seen of the second. -/
theorem alike_of_runs
    (there : ∀ log ending after, first store log ending after →
      second.Seen store (visible log) ending after)
    (back : ∀ log ending after, second store log ending after →
      first.Seen store (visible log) ending after) :
    Alike first second store := by
  intro seen ending after
  constructor
  · rintro ⟨log, run, rfl⟩
    exact there log ending after run
  · rintro ⟨log, run, rfl⟩
    exact back log ending after run

/-- What is seen of a row of two programs, if both are replaced by others. -/
theorem seen_seq {log : List Event} {ending : Ending} {after : Store}
    (run : first.seq second store log ending after) (alikeFirst : Alike first newFirst store)
    (alikeSecond : ∀ early middle, first store early .done middle → Alike second newSecond middle) :
    (newFirst.seq newSecond).Seen store (visible log) ending after := by
  rcases run with ⟨run, stops⟩ | ⟨early, middle, late, run, rest, rfl⟩
  · obtain ⟨newLog, newRun, same⟩ := alikeFirst.run run
    exact ⟨newLog, seq_stops newRun stops, same⟩
  · obtain ⟨newEarly, newRun, sameEarly⟩ := alikeFirst.run run
    obtain ⟨newLate, newRest, sameLate⟩ := (alikeSecond early middle run).run rest
    exact ⟨newEarly ++ newLate,
      seq_goes newRun newRest, by rw [visible_append, visible_append, sameEarly, sameLate]⟩

theorem Alike.seq (alikeFirst : Alike first newFirst store)
    (alikeSecond : ∀ early middle, first store early .done middle → Alike second newSecond middle) :
    Alike (first.seq second) (newFirst.seq newSecond) store := by
  refine alike_of_runs (fun _ _ _ run => seen_seq run alikeFirst alikeSecond) fun _ _ _ run => ?_
  refine seen_seq run alikeFirst.symm fun early middle newRun => ?_
  obtain ⟨log, run, -⟩ := alikeFirst.symm.run newRun
  exact (alikeSecond log middle run).symm

/-- What stands behind a program that never comes to its end may be left out. -/
theorem Alike.seq_of_not (alike : Alike first newFirst store)
    (stops : ∀ log middle, ¬ first store log .done middle) :
    Alike (first.seq second) newFirst store := by
  refine alike_of_runs ?_ ?_
  · rintro log ending after (⟨run, -⟩ | ⟨early, middle, late, run, -⟩)
    · exact alike.run run
    · exact absurd run (stops early middle)
  · intro newLog ending after newRun
    obtain ⟨log, run, same⟩ := alike.symm.run newRun
    refine ⟨log, seq_stops run ?_, same⟩
    rintro rfl
    exact stops log after run

theorem Alike.either (alikeFirst : Alike first newFirst store)
    (alikeSecond : Alike second newSecond store) :
    Alike (first.either second) (newFirst.either newSecond) store := by
  refine alike_of_runs ?_ ?_
  · rintro log ending after (run | run)
    · obtain ⟨newLog, newRun, same⟩ := alikeFirst.run run
      exact ⟨newLog, .inl newRun, same⟩
    · obtain ⟨newLog, newRun, same⟩ := alikeSecond.run run
      exact ⟨newLog, .inr newRun, same⟩
  · rintro log ending after (run | run)
    · obtain ⟨newLog, newRun, same⟩ := alikeFirst.symm.run run
      exact ⟨newLog, .inl newRun, same⟩
    · obtain ⟨newLog, newRun, same⟩ := alikeSecond.symm.run run
      exact ⟨newLog, .inr newRun, same⟩

/-- What is seen of a loop, if its body is replaced by one that is alike at the head of every
round. -/
theorem seen_loop {head : Store → Prop} (alike : ∀ store, head store → Alike body newBody store)
    (keeps : ∀ store log ending after, head store → body store log ending after → ending = .done ∨
      ending = .cont → head after)
    {log : List Event} {ending : Ending} {after : Store}
    (run : Loop id body store log ending after) (start : head store) :
    (Loop id newBody).Seen store (visible log) ending after := by
  induction run with
  | again round back _ ih =>
    obtain ⟨early, newRound, same⟩ := (alike _ start).run round
    obtain ⟨late, onward, sameLate⟩ := ih (keeps _ _ _ _ start round back)
    refine ⟨early ++ .turn id :: late, .again newRound back onward, ?_⟩
    rw [visible_append, visible_append, visible_turn, visible_turn, same, sameLate]
  | broken round =>
    obtain ⟨newLog, newRound, same⟩ := (alike _ start).run round
    exact ⟨newLog, .broken newRound, same⟩
  | left round out =>
    obtain ⟨newLog, newRound, same⟩ := (alike _ start).run round
    exact ⟨newLog, .left newRound out, same⟩

theorem Alike.loop {head : Store → Prop} (alike : ∀ store, head store → Alike body newBody store)
    (keeps : ∀ store log ending after, head store → body store log ending after → ending = .done ∨
      ending = .cont → head after)
    (start : head store) : Alike (Loop id body) (Loop id newBody) store := by
  refine alike_of_runs (fun _ _ _ run => seen_loop alike keeps run start) fun _ _ _ run => ?_
  refine seen_loop (fun store held => (alike store held).symm) ?_ run start
  intro before newLog ending after held newRound back
  obtain ⟨log, round, -⟩ := (alike before held).symm.run newRound
  exact keeps before log ending after held round back

end Behaviour

end ValueFlow
