import ValueFlow.Proofs.Reaching.Body

/-!
# Writes that are read

When a run reads what a write has bound, a use is noted at the version made there, unless the value
was carried into a later round of a loop around the write (`reads_mark_writes`). The read was
counted, and from the version that it saw one comes to the version of the write through unknown
versions and joins.

A guide follows a single write (`Ledger.lives`). Behind it the current version derives from the one
made there, until the variable is written again or a loop around the write comes back to its head.
The version at the head derives from what was there before the loop and from nothing that the body
has made, so that a value which only a later round reads bears no mark (`roundBody_unmarked`).
-/

namespace ValueFlow
set_option autoImplicit false

/-- In the log a node reads what another one has written, and this happens in between. -/
def Carries (log : List Event) (write read : NodeId) (var : VarId) (middle : List Event) : Prop :=
  (∃ early late, log = early ++ .write write var :: middle ++ .read read var :: late) ∧ ∀ node, .write node var ∉ middle

namespace Ledger

variable (ledger : Ledger) (write : NodeId) (var : VarId) (around : NodeId → Prop)

/-- What a node has written lives on while the variable is not written again and no loop around the
node comes back to its head. -/
def live (alive : Prop) : Event → Prop
  | .write node other => if other = var then node = write else alive
  | .turn loop => alive ∧ ¬ around loop
  | _ => alive

/-- Runs are followed with the life of what one node writes to one variable. -/
def lives : Guide Prop where
  step := live write var around
  fits here alive := alive → ledger.traces.Derives var (here var) (ledger.labels write)
  keeps _ _ := True
  sees alive node other := other = var → alive → ledger.traces.Derives var (ledger.labels node) (ledger.labels write)
  covers loop body := (∃ binds, (write, var, binds) ∈ body.writes) → around loop

variable {ledger write var around} {alive : Prop} {log : List Event}

/-- Nothing comes to life in a log in which the node does not write. -/
theorem alive_of_run (lived : (ledger.lives write var around).run alive log)
    (silent : .write write var ∉ log) : alive := by
  induction log generalizing alive with
  | nil => exact lived
  | cons event rest ih =>
    have stepped : live write var around alive event :=
      ih lived fun mem => silent (List.mem_cons_of_mem _ mem)
    cases event with
    | read | call => exact stepped
    | turn => exact stepped.1
    | write node other =>
      by_cases same : other = var
      · subst same
        obtain rfl : node = write := by simpa [live] using stepped
        exact absurd List.mem_cons_self silent
      · simpa [live, same] using stepped

/-- What is alive stays so while nothing ends its life. -/
theorem run_of_alive (lived : alive) (unwritten : ∀ node, .write node var ∉ log)
    (onward : ∀ loop, around loop → .turn loop ∉ log) :
    (ledger.lives write var around).run alive log := by
  induction log generalizing alive with
  | nil => exact lived
  | cons event rest ih =>
    refine ih ?_ (fun node mem => unwritten node (List.mem_cons_of_mem _ mem)) fun loop held mem =>
      onward loop held (List.mem_cons_of_mem _ mem)
    cases event with
    | read | call => exact lived
    | turn loop => exact ⟨lived, fun held => onward loop held List.mem_cons_self⟩
    | write node other =>
      have apart : other ≠ var := by
        rintro rfl
        exact unwritten node List.mem_cons_self
      change if other = var then node = write else alive
      rwa [if_neg apart]

/-- What lives at the head of a loop was written before the loop. -/
theorem Rounds.alive_before {id : NodeId} {body : Code} (rounds : Rounds id body log)
    (covers : (∃ binds, (write, var, binds) ∈ body.writes) → around id)
    (lived : (ledger.lives write var around).run alive log) : alive := by
  rcases rounds.turned with rfl | ⟨early, rfl⟩
  · exact lived
  · rw [Guide.run_append] at lived
    exact alive_of_run lived.1 fun mem =>
      lived.2 (covers (rounds.writes write var (List.mem_append_left _ mem)))

theorem lives_law (isPrivate : ledger.vars.IsPrivate var) :
    (ledger.lives write var around).Law ledger := fun _ => {
  meets := by
    intro path point alive fits meets lived
    rcases meets var with same | ⟨sources, joined, mem⟩
    · exact same ▸ fits lived
    · exact .step joined rfl mem (fits lived)
  read := by
    intro here alive id other seen fits
    refine ⟨?_, fits⟩
    rintro rfl lived
    exact seen ▸ fits lived
  call := by
    intro here point alive id store fits escapes lived
    rw [escapes.of_private isPrivate]
    exact fits lived
  write := by
    intro here alive id other origin recorded plain fits lived
    change if other = var then id = write else alive at lived
    unfold Versions.set
    by_cases same : other = var
    · rw [if_pos same] at lived
      subst same lived
      rw [if_pos rfl]
      exact .refl _
    · rw [if_neg same] at lived
      rw [if_neg (Ne.symm same)]
      exact fits lived
  head := by
    intro id body before head alive log covers forgets fits rounds lived
    have derives := fits (rounds.alive_before covers lived)
    rcases forgets var with ⟨-, below⟩ | ⟨-, kept⟩
    · exact below.trans derives
    · exact kept ▸ derives
  keepsRead := id
  keepsCall _ := id
  keepsWrite _ _ := id
  keepsTurn := id }

end Ledger

namespace Walk

variable {arena : Arena} {body : NodeId} {code : Code} {left : Option NodeId} {after : Walk}

/-- If a run reads what a write has bound, and no loop around the write came back to its head
meanwhile, then a use is noted at the version made at the write. -/
theorem reads_mark_writes (kind : BodyKind) (vars : Variables) (options : Options) (tree : arena.IsTree body code)
    (walked : walkBody kind body ⟨.forBody kind vars options, arena⟩ = .ok left after) :
    ∃ newCode notes, after.arena.Shows (.maybe .stmt left) newCode ∧ after.analysis.traces.HoldsNotes code newCode notes ∧
      ∀ (world : World ⟨vars, options⟩) (store : Store) (log : List Event) (ending : Ending) (storeAfter : Store),
        code.runs world store log ending storeAfter →
          ∀ write read var middle version, Carries log write read var middle → vars.IsPrivate var →
            (read, var, none, version) ∈ newCode.notes →
            (∀ loop inner, (loop, inner) ∈ code.loops → (∃ binds, (write, var, binds) ∈ inner.writes) → .turn loop ∉ middle) →
              after.analysis.traces.IsUsed
                ⟨var, (Ledger.ofNotes ⟨vars, options⟩ after.analysis.traces notes).labels write⟩ := by
  obtain ⟨newCode, notes, rewrote⟩ := bodyRewrote_of_walkBody kind vars options tree walked
  obtain ⟨last, breaks, account⟩ := rewrote.account
  refine ⟨newCode, notes, rewrote.shows_, rewrote.holdsNotes, fun world store log ending storeAfter run => ?_⟩
  rintro write read var middle version ⟨⟨early, late, rfl⟩, unwritten⟩ isPrivate survives onward
  have settled : after.analysis.traces.Settled := rewrote.grows.uses.settled .empty
  -- The loops around the write are those whose body holds it.
  let around := fun loop => ∃ inner, (loop, inner) ∈ code.loops ∧ ∃ binds, (write, var, binds) ∈ inner.writes
  let ledger := Ledger.ofNotes ⟨vars, options⟩ after.analysis.traces notes
  have law : (ledger.lives write var around).Law ledger := Ledger.lives_law isPrivate
  have guides := account.guides law (fun entry mem held => ⟨entry.2, mem, held⟩) world
  have follows : ledger.Follows (ledger.lives write var around) False store _ _ _ _ ending storeAfter := guides.follows nofun run
  have sees := follows.sees.read rfl
  refine settled.used (sees ?_) (.inl ((account.notes _ survives).2 rfl))
  have written {alive : Prop} : Ledger.live write var around alive (.write write var) := by simp [Ledger.live]
  rw [Ledger.Guide.run_append]
  change (ledger.lives write var around).run (Ledger.live write var around _ (.write write var)) middle
  exact Ledger.run_of_alive written unwritten fun loop ⟨inner, mem, held⟩ => onward loop inner mem held

/-- A write in one arm of a conditional, and a read behind it: `if p { x = 1 }; x`. -/
def armBody : Arena :=
  ⟨#[⟨.expr (.read 0 none), ⟨0, 1⟩⟩, ⟨.expr (.literal (.int 1)), ⟨1, 2⟩⟩, ⟨.stmt (.assign 1 1 none), ⟨2, 3⟩⟩,
    ⟨.stmt (.branch 0 (some 2) none), ⟨3, 4⟩⟩, ⟨.expr (.read 1 none), ⟨4, 5⟩⟩, ⟨.stmt (.effect 4), ⟨5, 6⟩⟩,
    ⟨.stmt (.block [3, 5]), ⟨6, 7⟩⟩]⟩

/-- The tree of the conditional and the read. -/
def armCode : Code :=
  .block 6 (.cons (.branch 3 (.read 0 0 none) (.assign 2 1 (.literal 1 (.int 1)) none) .nil)
    (.cons (.effect 5 (.read 4 1 none)) .nil))

theorem armBody_isTree : armBody.IsTree 6 armCode where
  shows_ := .block rfl
    (.cons (.branch rfl (.read rfl) (.present (.assign rfl (.literal rfl))) .absent)
      (.cons (.effect rfl (.read rfl)) .nil))
  nodup := by decide

/-- The read behind the conditional may see what the arm has bound, and the write is marked as
used. -/
theorem armBody_marked : ∃ left after, walkBody .functionBody 6 ⟨.forBody .functionBody idleVars {}, armBody⟩ = .ok left after ∧
    after.arena.stmt? 2 = some (.assign 1 1 (some 1)) ∧
    ∃ newCode notes, after.arena.Shows (.maybe .stmt left) newCode ∧ after.analysis.traces.HoldsNotes armCode newCode notes ∧
      ∀ (world : World ⟨idleVars, {}⟩) (store : Store) (log : List Event) (ending : Ending) (storeAfter : Store),
        armCode.runs world store log ending storeAfter →
          ∀ write read var middle version, Carries log write read var middle → idleVars.IsPrivate var →
            (read, var, none, version) ∈ newCode.notes →
            (∀ loop inner, (loop, inner) ∈ armCode.loops → (∃ binds, (write, var, binds) ∈ inner.writes) → .turn loop ∉ middle) →
              after.analysis.traces.IsUsed
                ⟨var, (Ledger.ofNotes ⟨idleVars, {}⟩ after.analysis.traces notes).labels write⟩ := by
  have ends : endsWith (walkBody .functionBody 6) ⟨.forBody .functionBody idleVars {}, armBody⟩
      (fun _ after => after.arena.stmt? 2 == some (.assign 1 1 (some 1))) = true := by
    decide +kernel
  obtain ⟨left, after, walked, told⟩ := exists_of_endsWith ends
  exact ⟨left, after, walked, by simpa using told, reads_mark_writes .functionBody idleVars {} armBody_isTree walked⟩

/-- A world in which calls do not return. -/
def stuckWorld (setting : Setting) : World setting where
  outcome _ _ _ _ := False
  frame := nofun

/-- One round of the loop, and then the read of the second one. -/
theorem roundCode_runs : roundCode.runs (stuckWorld ⟨roundVars, {}⟩) (fun _ => true)
    ([.read 0 0, .write 3 0] ++ .turn 5 :: [.read 0 0]) .cut fun _ => true := by
  have bound : Store.set (fun _ => true) 0 true = fun _ => true := by
    funext other
    simp [Store.set]
  have reads : World.reads ⟨roundVars, {}⟩ 0 0 (fun _ => true) [.read 0 0] .done fun _ => true :=
    Behaviour.atom_step ⟨rfl, .inl ⟨rfl, .inl rfl⟩⟩
  have binds : World.binds 3 0 (fun _ => true) [.write 3 0] .done fun _ => true :=
    Behaviour.atom_step ⟨bound.symm, rfl⟩
  have skips : Behaviour.skip (fun _ => true) [] .done fun _ => true :=
    Behaviour.skip_iff.2 ⟨rfl, rfl, .inl rfl⟩
  have cut : World.reads ⟨roundVars, {}⟩ 0 0 (fun _ => true) [.read 0 0] .cut fun _ => true :=
    (Behaviour.cuttable_atom _ _).early reads
  exact .again
    (Behaviour.seq_goes reads (Behaviour.seq_goes (Behaviour.seq_goes skips binds) skips))
    (.inl rfl) (.left (Behaviour.seq_stops cut nofun) (.inr (.inr rfl)))

/-- The second round of the loop reads what the first one has bound, and no use of it is noted. -/
theorem roundBody_unmarked : ∃ left after, walkBody .functionBody 5 ⟨.forBody .functionBody roundVars {}, roundBody⟩ = .ok left after ∧
    after.arena.stmt? 3 = some (.assign 0 2 (some 2)) ∧ after.arena.expr? 0 = some (.read 0 (some 1)) ∧
    after.analysis.traces.origin? ⟨0, 2⟩ = some (.assigned 3 1) ∧ ¬ after.analysis.traces.IsUsed ⟨0, 2⟩ ∧ roundVars.IsPrivate 0 ∧
    ∃ (world : World ⟨roundVars, {}⟩) (store : Store) (log : List Event) (storeAfter : Store), roundVars.OnEntry store ∧
      roundCode.runs world store log .cut storeAfter ∧ ∃ middle, Carries log 3 0 0 middle := by
  have ends : endsWith (walkBody .functionBody 5) ⟨.forBody .functionBody roundVars {}, roundBody⟩ (fun _ after =>
      after.arena.stmt? 3 == some (.assign 0 2 (some 2)) && after.arena.expr? 0 == some (.read 0 (some 1)) &&
        after.analysis.traces[(⟨0, 2⟩ : TraceKey)]? == some (.ofOrigin (.assigned 3 1))) = true := by
    decide +kernel
  obtain ⟨left, after, walked, told⟩ := exists_of_endsWith ends
  simp only [Bool.and_eq_true, beq_iff_eq] at told
  obtain ⟨⟨write, read⟩, trace⟩ := told
  have unused : ¬ after.analysis.traces.IsUsed ⟨0, 2⟩ := by
    rintro (⟨held, found, noted⟩ | ⟨held, found, noted⟩) <;>
    · obtain rfl := Option.some.inj (trace.symm.trans found)
      simp [Trace.ofOrigin] at noted
  refine ⟨left, after, walked, write, read, Traces.origin?_eq_of_find trace, unused, isPrivate_roundVars, stuckWorld _, fun _ => true,
    _, _, ?_, roundCode_runs, [.turn 5], ⟨[.read 0 0], [], rfl⟩, by simp⟩
  intro var slot found _
  obtain ⟨rfl, rfl⟩ : var = 0 ∧ slot = ⟨"x", .parameter, false, .entry⟩ := by
    cases var <;> simp_all [roundVars, Variables.get?]
  exact ⟨fun _ => rfl, fun isLocal => absurd isLocal (by decide)⟩

end Walk

end ValueFlow
