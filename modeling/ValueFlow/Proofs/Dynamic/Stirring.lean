import ValueFlow.Proofs.Dynamic.Arrivals

/-!
# What an evaluation may have bound

Where source text is evaluated at run time, anything may happen to a variable that is not private
(`World.widest`). What was done once an evaluation has run might have been done as well with the
variable bound by it, until the variable is written again: no read of it raises then, and nothing
else asks for it. So a run that comes to a delete behind an evaluation, with no write of the
variable in between, has a twin that comes there with the variable bound
(`Arrives.bound_of_stirred`).
-/

namespace ValueFlow
set_option autoImplicit false

/-- The world in which anything may happen where these nodes run code elsewhere, and nothing
anywhere else. -/
def World.widest (setting : Setting) (nodes : List NodeId) : World setting where
  outcome node before _ after := (∀ var, setting.vars.IsPrivate var → after var = before var) ∧ (node ∉ nodes → after = before)
  frame told var isPrivate := told.1 var isPrivate

theorem World.onlyAt_widest (setting : Setting) (nodes : List NodeId) :
    (World.widest setting nodes).OnlyAt nodes :=
  fun told outside => told.2 outside

namespace Store

variable {store : Store} {var other : VarId}

theorem set_self (store : Store) (var : VarId) (bound : Bool) : store.set var bound var = bound :=
  if_pos rfl

theorem set_of_ne (apart : other ≠ var) (bound : Bool) : store.set var bound other = store other :=
  if_neg apart

theorem set_comm (apart : other ≠ var) (first second : Bool) :
    (store.set other first).set var second = (store.set var second).set other first := by
  funext asked
  unfold set
  split
  · rename_i same
    subst same
    rw [if_neg (Ne.symm apart)]
  · rfl

end Store

/-- What was done can be done in the way told, and also with the variable bound, as long as it is
not written on the way. If code elsewhere ran behind its last write, then it can be done with the
variable bound in the end. -/
structure HasTwins (nodes : List NodeId) (var : VarId) (does : Store → List Event → Store → Prop) (store : Store) (log : List Event)
    (after : Store) : Prop where
  itself : does store log after
  bound : (∀ writer, .write writer var ∉ log) → ∃ other, does (store.set var true) other (after.set var true)
  stirred : Stirred nodes var log → ∃ other, does store other (after.set var true)

namespace HasTwins

variable {nodes : List NodeId} {var : VarId}
  {first second whole : Store → List Event → Store → Prop} {store middle after : Store}
  {early late log : List Event} {id : NodeId}

theorem map (twins : HasTwins nodes var first store log after)
    (further : ∀ {store log after}, first store log after → whole store log after) :
    HasTwins nodes var whole store log after where
  itself := further twins.itself
  bound unwritten := (twins.bound unwritten).imp fun _ => further
  stirred behind := (twins.stirred behind).imp fun _ => further

/-- Nothing was done. -/
theorem start (same : ∀ store, first store [] store) : HasTwins nodes var first store [] store where
  itself := same store
  bound _ := ⟨[], same _⟩
  stirred behind := absurd behind not_stirred_nil

/-- A loop came back to its head. -/
theorem turn (id : NodeId) (store : Store) :
    HasTwins nodes var (fun store log after => log = [.turn id] ∧ after = store) store
      [.turn id] store where
  itself := ⟨rfl, rfl⟩
  bound _ := ⟨[.turn id], rfl, rfl⟩
  stirred behind := by
    obtain ⟨_, _, impossible, -⟩ := stirred_single.1 behind
    cases impossible

/-- One thing after another. The variable is stirred by the later one, or by the earlier one and not
written any more. -/
theorem append (twins : HasTwins nodes var first store early middle)
    (rest : HasTwins nodes var second middle late after)
    (join : ∀ {store early middle late after}, first store early middle → second middle late after →
      whole store (early ++ late) after) :
    HasTwins nodes var whole store (early ++ late) after where
  itself := join twins.itself rest.itself
  bound unwritten := by
    obtain ⟨_, run⟩ := twins.bound fun writer mem => unwritten writer (List.mem_append_left _ mem)
    obtain ⟨_, onward⟩ :=
      rest.bound fun writer mem => unwritten writer (List.mem_append_right _ mem)
    exact ⟨_, join run onward⟩
  stirred behind := by
    rcases stirred_append.1 behind with behind | ⟨behind, unwritten⟩
    · obtain ⟨_, onward⟩ := rest.stirred behind
      exact ⟨_, join twins.itself onward⟩
    · obtain ⟨_, run⟩ := twins.stirred behind
      obtain ⟨_, onward⟩ := rest.bound unwritten
      exact ⟨_, join run onward⟩

end HasTwins

/-- The second program has twins of all runs of the first one that do not raise. -/
structure Stirs (nodes : List NodeId) (var : VarId) (first second : Behaviour) : Prop where
  twins : ∀ {store log ending after}, first store log ending after → ending ≠ .raised →
    HasTwins nodes var (fun store log after => second store log ending after) store log after

namespace Stirs

open Behaviour

variable {nodes : List NodeId} {var : VarId} {first second third fourth : Behaviour} {id : NodeId}

/-- A step has twins that end like it, but for those that need not raise. -/
theorem atom {events : Store → List Event} {step stepSecond : Store → Ending → Store → Prop}
    (does : ∀ {store ending after}, step store ending after → stepSecond store ending after)
    (bound : ∀ {store ending after}, step store ending after →
      (∀ writer, .write writer var ∉ events store) → ∃ other, stepSecond (store.set var true) other
      (after.set var true) ∧ (ending ≠ .raised → other = ending))
    (stirred : ∀ {store ending after}, step store ending after → Stirred nodes var (events store) →
      stepSecond store ending (after.set var true)) :
    Stirs nodes var (.atom events step) (.atom events stepSecond) := by
  constructor
  rintro store log ending after (⟨rfl, rfl, rfl⟩ | ⟨rfl, reached, taken, ends⟩) well
  · exact .start fun _ => .inl ⟨rfl, rfl, rfl⟩
  · refine ⟨.inr ⟨rfl, reached, does taken, ends⟩, fun unwritten => ?_,
      fun behind => ⟨_, .inr ⟨rfl, reached, stirred taken behind, ends⟩⟩⟩
    obtain ⟨other, takenSecond, same⟩ := bound taken unwritten
    refine ⟨_, .inr ⟨rfl, other, takenSecond, ?_⟩⟩
    rcases ends with rfl | rfl
    · exact .inl (same well).symm
    · exact .inr rfl

/-- A step that runs no code elsewhere and does not look at the variable. -/
theorem plain {events : Store → List Event} {step : Store → Ending → Store → Prop}
    (calm : ∀ store, ¬ Stirred nodes var (events store))
    (bound : ∀ {store ending after}, step store ending after →
      (∀ writer, .write writer var ∉ events store) → ∃ other, step (store.set var true) other
      (after.set var true) ∧ (ending ≠ .raised → other = ending)) :
    Stirs nodes var (.atom events step) (.atom events step) :=
  atom (fun taken => taken) bound fun _ behind => absurd behind (calm _)

theorem stop (ending : Ending) : Stirs nodes var (.stop ending) (.stop ending) :=
  plain (fun _ => not_stirred_nil) fun taken _ =>
    ⟨ending, ⟨rfl, by rw [taken.2]⟩, fun _ => taken.1.symm⟩

theorem seq (stirsFirst : Stirs nodes var first second)
    (stirsSecond : Stirs nodes var third fourth) :
    Stirs nodes var (first.seq third) (second.seq fourth) := by
  constructor
  rintro store log ending after (⟨run, stops⟩ | ⟨early, middle, late, run, rest, rfl⟩) well
  · exact (stirsFirst.twins run well).map fun run => seq_stops run stops
  · exact (stirsFirst.twins run nofun).append (stirsSecond.twins rest well) seq_goes

theorem either (stirsFirst : Stirs nodes var first second)
    (stirsSecond : Stirs nodes var third fourth) :
    Stirs nodes var (first.either third) (second.either fourth) := by
  constructor
  rintro store log ending after (run | run) well
  · exact (stirsFirst.twins run well).map .inl
  · exact (stirsSecond.twins run well).map .inr

/-- A round that goes back to the head, with the turn. -/
theorem round (stirs : Stirs nodes var first second) {store after : Store} {log : List Event}
    {ending : Ending} (run : first store log ending after)
    (back : ending = .done ∨ ending = .cont) :
    HasTwins nodes var
      (fun store log after => ∃ early, log = early ++ [.turn id] ∧ second store early ending after)
      store (log ++ [.turn id]) after := by
  have well : ending ≠ .raised := by rcases back with rfl | rfl <;> nofun
  refine (stirs.twins run well).append (.turn id after) ?_
  rintro store early middle _ _ run ⟨rfl, rfl⟩
  exact ⟨early, rfl, run⟩

theorem loop (stirs : Stirs nodes var first second) :
    Stirs nodes var (.Loop id first) (.Loop id second) := by
  constructor
  intro store log ending after run well
  induction run with
  | again run back _ ih =>
    rw [List.append_cons]
    refine (stirs.round run back).append (ih well) ?_
    rintro store _ middle late after ⟨early, rfl, run⟩ rest
    rw [← List.append_cons]
    exact .again run back rest
  | broken run => exact (stirs.twins run nofun).map .broken
  | left run out => exact (stirs.twins run well).map fun run => .left run out

end Stirs

section Worlds

variable {setting : Setting} {world : World setting} {nodes : List NodeId} {var : VarId}
  {id target : NodeId}

theorem stirs_reads (asked : VarId) :
    Stirs nodes var (World.reads setting id asked) (World.reads setting id asked) := by
  refine .plain (fun _ behind => ?_) fun {store ending after} ⟨same, ends⟩ _ => ?_
  · obtain ⟨_, _, impossible, -⟩ := stirred_single.1 behind
    cases impossible
  · subst same
    by_cases here : asked = var
    · subst here
      refine ⟨.done, ⟨rfl, .inl ⟨rfl, .inl (Store.set_self _ _ _)⟩⟩, fun well => ?_⟩
      rcases ends with ⟨done, -⟩ | ⟨raised, -⟩
      · exact done.symm
      · exact absurd raised well
    · refine ⟨ending, ⟨rfl, ?_⟩, fun _ => rfl⟩
      rwa [Store.set_of_ne here]

/-- A write of another variable ends as it does where the variable is bound. -/
theorem stirs_write (written : VarId) (bound : Bool) (ends : Bool → Ending → Prop) :
    let write := Behaviour.atom (fun _ => [.write id written]) fun before ending after =>
      after = before.set written bound ∧ ends (before written) ending
    Stirs nodes var write write := by
  refine .plain (fun _ behind => ?_) fun {store ending after} ⟨same, told⟩ unwritten => ?_
  · obtain ⟨_, _, impossible, -⟩ := stirred_single.1 behind
    cases impossible
  · have apart : written ≠ var := fun here => unwritten id (here ▸ List.mem_cons_self)
    exact ⟨ending, ⟨by rw [same, Store.set_comm apart], by rwa [Store.set_of_ne apart]⟩,
      fun _ => rfl⟩

theorem stirs_binds (written : VarId) :
    Stirs nodes var (World.binds id written) (World.binds id written) :=
  stirs_write written true fun _ ending => ending = .done

theorem stirs_unbinds (written : VarId) (tolerant : Bool) :
    Stirs nodes var (World.unbinds id written tolerant) (World.unbinds id written tolerant) :=
  stirs_write written false fun held ending =>
    ending = if held || tolerant then .done else .raised

variable (only : world.OnlyAt nodes) (reached : ¬ setting.vars.IsPrivate var)
include only reached

theorem stirs_calls : Stirs nodes var (world.calls id) ((World.widest setting nodes).calls id) := by
  refine .atom ?_ ?_ ?_
  · rintro store ending after ⟨raises, outcome, ends⟩
    exact ⟨raises, ⟨world.frame outcome, only outcome⟩, ends⟩
  · rintro store ending after ⟨raises, outcome, ends⟩ -
    refine ⟨ending, ⟨raises, ⟨fun other isPrivate => ?_, fun outside => ?_⟩, ends⟩, fun _ => rfl⟩
    · have apart : other ≠ var := fun here => reached (here ▸ isPrivate)
      rw [Store.set_of_ne apart, Store.set_of_ne apart, world.frame outcome other isPrivate]
    · rw [only outcome outside]
  · rintro store ending after ⟨raises, outcome, ends⟩ behind
    obtain ⟨_, _, same, mem⟩ := stirred_single.1 behind
    obtain ⟨rfl, -⟩ := Event.call.inj same
    refine ⟨raises, ⟨fun other isPrivate => ?_, fun outside => absurd mem outside⟩, ends⟩
    have apart : other ≠ var := fun here => reached (here ▸ isPrivate)
    rw [Store.set_of_ne apart, world.frame outcome other isPrivate]

/-- Runs of code have twins in the widest world. -/
theorem Code.stirs (code : Code) :
    Stirs nodes var (code.runs world) (code.runs (World.widest setting nodes)) := by
  induction code with
  | literal | release | nil | brk | cont => exact .stop _
  | read id asked _ => exact stirs_reads asked
  | hole => exact .plain (fun _ => not_stirred_nil) fun impossible _ => impossible.elim
  | builtin id name =>
    unfold runs
    split
    · exact .stop _
    · exact .either (.stop _) (.stop _)
  | call id callee args first second => exact first.seq (second.seq (stirs_calls only reached))
  | eval id source ih => exact ih.seq (stirs_calls only reached)
  | block id row ih | effect id row ih => exact ih
  | assign id written value version ih => exact ih.seq (stirs_binds written)
  | delete id written tolerant version => exact stirs_unbinds written tolerant
  | branch id cond yes no first second third =>
    refine first.seq ?_
    split
    · split
      · exact second
      · exact third
    · exact second.either third
  | loop id body ih => exact ih.loop
  | ret id value ih => exact ih.seq (.stop _)
  | cons head tail first second => exact first.seq second

variable {body : Behaviour} {code : Code} {store here : Store} {log : List Event}

omit only reached in
/-- Whole rounds of a loop have twins. -/
theorem Turns.twins {widest : Behaviour} (stirs : Stirs nodes var body widest)
    (turns : Turns id body store log here) :
    HasTwins nodes var (Turns id widest) store log here := by
  induction turns with
  | none => exact .start .none
  | again _ run back ih =>
    refine ih.append (stirs.round run back) ?_
    rintro store early middle _ after turns ⟨late, rfl, run⟩
    exact .again turns run back

/-- What comes to a delete has twins. -/
theorem Arrives.twins (arrives : Arrives world target var code store log here) :
    HasTwins nodes var (Arrives (World.widest setting nodes) target var code) store log here := by
  induction arrives with
  | here => exact .start fun _ => .here
  | block _ ih => exact ih.map .block
  | head _ ih => exact ih.map .head
  | tail run _ ih => exact ((Code.stirs only reached _).twins run nofun).append ih .tail
  | known known _ ih => exact ih.map (.known known)
  | arm unknown taken run _ ih =>
    exact ((Code.stirs only reached _).twins run nofun).append ih (.arm unknown taken)
  | round turns _ ih => exact (turns.twins (Code.stirs only reached _)).append ih .round

/-- If code elsewhere ran behind the last write of the variable, some run comes to the delete with
the variable bound. -/
theorem Arrives.bound_of_stirred (arrives : Arrives world target var code store log here)
    (behind : Stirred nodes var log) :
    ∃ other, Arrives (World.widest setting nodes) target var code store other (here.set var true) :=
  (arrives.twins only reached).stirred behind

end Worlds

end ValueFlow
