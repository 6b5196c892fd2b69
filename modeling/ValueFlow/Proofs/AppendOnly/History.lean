import ValueFlow.Proofs.AppendOnly.Growth

/-!
# The history of a variable table

Whatever a caller does in a session, the state is only added to (`Session.after_appends`). A table
of variables outlives the states over it: when one is given up, the next starts with an empty log
over the same counters, and in between variables may be registered or captured (`Session.Turn`). In
such a history no version of a variable is recorded twice, but for entry versions
(`Session.log_append_only`).
-/

namespace ValueFlow
set_option autoImplicit false

namespace Session

/-- Behind every operation, whether it succeeded or failed, the state has only been added to. -/
theorem after_appends (session : Session) (op : Op) :
    session.state.Appends (session.after op).state :=
  appends_logHabit.after session op

/-- What can be done to a table of variables while no state is over it. -/
inductive TableOp where
  | register (name : String) (storage : Storage)
  | capture (var : VarId)

/-- The table after an operation. -/
def TableOp.run (vars : Variables) : TableOp → Variables
  | .register name storage => vars.register name storage
  | .capture var => (vars.capture? var).getD vars

/-- A turn of the history of a table: an operation of the session over it, or a new session, whose
state has recorded nothing yet. -/
inductive Turn where
  | op (op : Op)
  | renew (changes : List TableOp) (options : Options)

/-- The session after a turn. -/
def turn (session : Session) : Turn → Session
  | .op op => session.after op
  | .renew changes options => start (changes.foldl TableOp.run session.state.vars) options

/-- The keys that a turn records: those that have a trace after it and had none before. -/
def recordedBy (session : Session) (next : Turn) : List TraceKey :=
  (session.turn next).state.traces.keys.filter fun key => !session.state.traces.contains key

/-- The keys that a row of turns records, in the order of the turns. -/
def history (session : Session) : List Turn → List TraceKey
  | [] => []
  | next :: turns => session.recordedBy next ++ (session.turn next).history turns

end Session

/-- The variables of the older table are in the newer one, and none of their counters is lower
there. -/
def Variables.Counts (older newer : Variables) : Prop :=
  ∀ var slot, older.get? var = some slot → ∃ later, newer.get? var = some later ∧ slot.lastVersion ≤ later.lastVersion

namespace Variables.Counts

variable {first second third : Variables}

theorem refl (vars : Variables) : vars.Counts vars :=
  fun _ slot found => ⟨slot, found, Nat.le_refl _⟩

theorem trans (early : first.Counts second) (late : second.Counts third) : first.Counts third := by
  intro var slot found
  obtain ⟨middle, found, lower⟩ := early var slot found
  obtain ⟨later, found, upper⟩ := late var middle found
  exact ⟨later, found, Nat.le_trans lower upper⟩

theorem of_advances (advances : first.Advances second) : first.Counts second := by
  intro var slot found
  obtain ⟨last, le, found⟩ := advances.slot var slot found
  exact ⟨_, found, le⟩

theorem run (vars : Variables) (op : Session.TableOp) : vars.Counts (op.run vars) := by
  intro var slot found
  have below : var < vars.size := (Array.getElem?_eq_some_iff.1 found).1
  cases op with
  | register name storage =>
    refine ⟨slot, ?_, Nat.le_refl _⟩
    rw [Session.TableOp.run, get?_register, if_neg (Nat.ne_of_lt below), found]
  | capture other =>
    change ∃ later, ((vars.capture? other).getD vars).get? var = some later ∧
      slot.lastVersion ≤ later.lastVersion
    unfold capture?
    split
    · refine ⟨if other = var then { slot with captured := true } else slot, ?_, ?_⟩
      · have here : vars.entries[var]? = some slot := found
        simp only [Option.getD_some, get?, Array.getElem?_modify, here]
        split <;> rfl
      · split <;> exact Nat.le_refl _
    · exact ⟨slot, found, Nat.le_refl _⟩

theorem foldl (vars : Variables) (changes : List Session.TableOp) :
    vars.Counts (changes.foldl Session.TableOp.run vars) := by
  induction changes generalizing vars with
  | nil => exact .refl vars
  | cons change rest ih => exact (run vars change).trans (ih _)

end Variables.Counts

namespace Session

variable {session : Session} {key : TraceKey}

theorem counts_turn (session : Session) (next : Turn) :
    session.state.vars.Counts (session.turn next).state.vars := by
  cases next with
  | op op => exact .of_advances (session.after_appends op).vars
  | renew changes options => exact .foldl _ changes

/-- A turn records entry versions, and versions that were handed out in it. -/
theorem handedOut_of_recordedBy {next : Turn} (mem : key ∈ session.recordedBy next)
    (allocated : key.version ≠ .entry) :
    key.HandedOut session.state.vars (session.turn next).state.vars := by
  obtain ⟨listed, free⟩ := List.mem_filter.1 mem
  have recorded : key ∈ (session.turn next).state.traces := Std.ExtTreeMap.mem_keys.1 listed
  have absent : key ∉ session.state.traces := by
    intro mem
    rw [Std.ExtTreeMap.mem_iff_contains.1 mem] at free
    cases free
  cases next with
  | op op => exact ((session.after_appends op).fresh key recorded absent).resolve_left allocated
  | renew changes options => exact absurd recorded Std.ExtTreeMap.not_mem_empty

/-- Whatever a history records later is above the counters of now. -/
theorem above_of_history {turns : List Turn} (mem : key ∈ session.history turns)
    (allocated : key.version ≠ .entry) {slot : Variable}
    (found : session.state.vars.get? key.var = some slot) : slot.lastVersion < key.version := by
  induction turns generalizing session slot with
  | nil => cases mem
  | cons next turns ih =>
    rcases List.mem_append.1 mem with now | later
    · obtain ⟨old, foundOld, above, -⟩ := handedOut_of_recordedBy now allocated
      obtain rfl := Option.some.inj (found.symm.trans foundOld)
      exact above
    · obtain ⟨slotLater, foundLater, le⟩ := session.counts_turn next _ slot found
      exact Nat.lt_of_le_of_lt le (ih later foundLater)

theorem nodup_history (session : Session) (turns : List Turn) :
    ((session.history turns).filter fun key => key.version ≠ .entry).Nodup := by
  induction turns generalizing session with
  | nil => exact List.nodup_nil
  | cons next turns ih =>
    rw [history, List.filter_append, List.nodup_append]
    refine ⟨(Std.ExtTreeMap.nodup_keys.filter _).filter _, ih _, ?_⟩
    intro key now other later same
    subst same
    obtain ⟨now, allocated⟩ := List.mem_filter.1 now
    obtain ⟨later, -⟩ := List.mem_filter.1 later
    have allocated : key.version ≠ .entry := by simpa using allocated
    obtain ⟨-, -, -, slot, found, reached⟩ := handedOut_of_recordedBy now allocated
    exact absurd reached (Nat.not_le_of_lt (above_of_history later allocated found))

/-- The log is append-only. In whatever state a history of sessions over one table has come to,
every operation keeps all traces, with their origins and their notes of use; it takes no counter
back; and what it records is an entry version, or a version above the counter from before that the
counter has reached. That is so whether it succeeds or fails. In the whole history no version is
recorded twice, but for entry versions. -/
theorem log_append_only (vars : Variables) (options : Options) (turns : List Turn) :
    (∀ op, (turns.foldl turn (start vars options)).state.Appends ((turns.foldl turn (start vars options)).after op).state) ∧
      (((start vars options).history turns).filter fun key => key.version ≠ .entry).Nodup :=
  ⟨fun op => after_appends _ op, nodup_history _ turns⟩

end Session

end ValueFlow
