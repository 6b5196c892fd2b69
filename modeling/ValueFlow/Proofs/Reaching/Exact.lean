import ValueFlow.Proofs.Reaching.Body
import ValueFlow.Proofs.Reaching.ControlPaths

/-!
# Exact reaching definitions without loops

In a body without loops the version noted at a read tells exactly which writes of its variable may
be the last one before it: its leaves are the versions made at the last writes on the control paths
to the read, with the entry version for a path that does not write the variable.

What an account tells of the paths through a part is put together construct by construct
(`Ledger.TellsExactly`): whether control runs past it, and which versions its paths deliver to the
point behind it and to the reads in it. Nothing is missing, since every path leads to the points on
it; and nothing is added, since a point comes from the ends of those arms alone that control runs
past, and every part that is walked has a path through it.
-/

namespace ValueFlow
set_option autoImplicit false

namespace Ledger

variable (ledger : Ledger) (var : VarId)

/-- The version at which the variable stands behind the log, if it stood at this one before. -/
def carry (version : Version) (log : List Event) : Version := ledger.latest (fun _ => version) log var

/-- The leaf stands for the last write of the variable, if the log was passed from a point where it
stood at this version. -/
def Delivers (before : Version) (log : List Event) (leaf : Version) : Prop :=
  ∃ source, ledger.traces.Leaf var before source ∧ ledger.carry var source log = leaf

variable {ledger} {var} {last other : Versions} {log early late : List Event}
  {before middle after version leaf : Version}

theorem eq_of_single {event seen : Event} (single : early ++ seen :: late = [event]) :
    early = [] ∧ seen = event := by
  cases early with
  | nil => exact ⟨rfl, (List.cons.inj single).1⟩
  | cons => simp at single

theorem latest_congr (same : last var = other var) :
    ledger.latest last log var = ledger.latest other log var := by
  induction log generalizing last other with
  | nil => exact same
  | cons event rest ih =>
    refine ih ?_
    cases event with
    | write node target =>
      change Versions.set _ _ _ _ = Versions.set _ _ _ _
      unfold Versions.set
      rw [same]
    | read | call | turn => exact same

theorem carry_append :
    ledger.carry var version (early ++ late) =
      ledger.carry var (ledger.carry var version early) late := by
  unfold carry latest
  rw [Guide.run_append]
  exact latest_congr rfl

theorem delivers_nil : ledger.Delivers var before [] leaf ↔ ledger.traces.Leaf var before leaf := by
  constructor
  · rintro ⟨_, below, rfl⟩
    exact below
  · exact fun below => ⟨leaf, below, rfl⟩

/-- What is delivered behind two parts is what the second one makes of what the first one
delivers. -/
theorem delivers_append : ledger.Delivers var before (early ++ late) leaf ↔
    ∃ between, ledger.Delivers var before early between ∧ ledger.carry var between late = leaf := by
  constructor
  · rintro ⟨source, below, rfl⟩
    exact ⟨_, ⟨source, below, rfl⟩, carry_append.symm⟩
  · rintro ⟨_, ⟨source, below, rfl⟩, rfl⟩
    exact ⟨source, below, carry_append⟩

variable (ledger var)

/-- What is told of the paths through a part, of the reads left in it and of the point behind it is
exact for the variable. -/
structure TellsExactly (paths : Paths) (before : Version) (aborts : Bool) (notes : List (NodeId × VarId × Option Bool × Option Version))
    (after : Version) : Prop where
  any : ∃ log ending, paths log ending
  goes : (∃ log, paths log .done) ↔ aborts = false
  made : ∀ {log ending node}, paths log ending → .write node var ∈ log → ledger.made node var
  behind : aborts = false → ∀ leaf, ledger.traces.Leaf var after leaf ↔ ∃ log, paths log .done ∧ ledger.Delivers var before log leaf
  sees : ∀ {early id late ending leaf}, paths (early ++ .read id var :: late) ending → ledger.Delivers var before early leaf →
    ledger.traces.Leaf var (ledger.labels id) leaf
  seen : ∀ entry ∈ notes, entry.2.1 = var → entry.2.2.1 = none → ∀ leaf, ledger.traces.Leaf var (ledger.labels entry.1) leaf →
    ∃ early late ending, paths (early ++ .read entry.1 var :: late) ending ∧ ledger.Delivers var before early leaf

variable {ledger} {var} {first second : Paths} {aborts abortsElse : Bool}
  {notes more : List (NodeId × VarId × Option Bool × Option Version)} {id : NodeId} {target : VarId}
  {yesEnd noEnd : Version}

namespace TellsExactly

/-- Only the reads that are noted matter. -/
theorem renote (tells : ledger.TellsExactly var first before aborts notes after)
    (among : ∀ entry ∈ more, entry.2.2.1 = none → entry ∈ notes) :
    ledger.TellsExactly var first before aborts more after :=
  { tells with
    seen := fun entry mem here isRead => tells.seen entry (among entry mem isRead) here isRead }

/-- Nothing happens on the only path. -/
theorem stop {ending : Ending} (told : aborts = false ↔ ending = .done) :
    ledger.TellsExactly var (.stop ending) before aborts [] before where
  any := ⟨[], ending, rfl, rfl⟩
  goes := by simp [Paths.stop, told, eq_comm]
  made := by
    rintro _ _ _ ⟨rfl, -⟩
    exact nofun
  behind goes leaf := by
    rw [told.1 goes]
    simp [Paths.stop, delivers_nil]
  sees := by
    rintro early id late _ _ ⟨none_, -⟩
    simp at none_
  seen := nofun

theorem skip : ledger.TellsExactly var (.stop .done) before false [] before := stop (by simp)

/-- On the only path the variable may be read. -/
theorem read {version : Option Version} (seen : target = var → ledger.labels id = before) :
    ledger.TellsExactly var (.step (.read id target)) before false
      [(id, target, none, version)] before where
  any := ⟨_, _, rfl, rfl⟩
  goes := by simp [Paths.step]
  made := by
    rintro _ _ _ ⟨rfl, -⟩ mem
    cases List.mem_singleton.1 mem
  behind _ leaf := by
    simp only [Paths.step, and_true, exists_eq_left]
    exact delivers_nil.symm
  sees := by
    rintro early other late _ leaf ⟨single, -⟩ delivers
    obtain ⟨rfl, same⟩ := eq_of_single single
    obtain ⟨rfl, rfl⟩ := Event.read.inj same
    rw [seen rfl]
    exact delivers_nil.1 delivers
  seen := by
    rintro entry mem here - leaf below
    obtain rfl := List.mem_singleton.1 mem
    obtain rfl : target = var := here
    exact ⟨[], [], .done, ⟨rfl, rfl⟩, delivers_nil.2 (seen rfl ▸ below)⟩

/-- On the only path the variable may be written. -/
theorem write (held : ∃ source, ledger.traces.Leaf var before source)
    (made : ledger.made id target) {origin : Origin}
    (recorded : ledger.traces.origin? ⟨target, ledger.labels id⟩ = some origin)
    (plain : ∀ sources, origin ≠ .joined sources) :
    ledger.TellsExactly var (.step (.write id target)) before false []
      (if var = target then ledger.labels id else before) where
  any := ⟨_, _, rfl, rfl⟩
  goes := by simp [Paths.step]
  made := by
    rintro _ _ _ ⟨rfl, -⟩ mem
    obtain ⟨rfl, rfl⟩ := Event.write.inj (List.mem_singleton.1 mem)
    exact made
  behind _ leaf := by
    simp only [Paths.step, and_true, exists_eq_left]
    split
    · rename_i same
      subst same
      have carried (source : Version) : ledger.carry var source [.write id var] =
          ledger.labels id := if_pos rfl
      simp only [Delivers, carried, exists_and_right, held, true_and]
      rw [Traces.leaf_of_plain fun sources joined =>
        plain sources (Option.some.inj (recorded.symm.trans joined)), eq_comm]
    · rename_i apart
      have carried (source : Version) : ledger.carry var source [.write id target] =
          source := if_neg apart
      simp only [Delivers, carried, exists_eq_right]
  sees := by
    rintro early other late _ leaf ⟨single, -⟩ -
    obtain ⟨-, same⟩ := eq_of_single single
    cases same
  seen := nofun

/-- A read with nothing before it sees what stands at the start. -/
theorem sees_at_start {rest : List Event} {ending : Ending}
    (tells : ledger.TellsExactly var second before aborts notes after)
    (runs : second (.read id var :: rest) ending) (below : ledger.traces.Leaf var before leaf) :
    ledger.traces.Leaf var (ledger.labels id) leaf :=
  tells.sees (show second ([] ++ .read id var :: rest) ending from runs) (delivers_nil.2 below)

/-- One part behind another one, past which control runs. -/
theorem seq (early : ledger.TellsExactly var first before false notes middle)
    (late : ledger.TellsExactly var second middle aborts more after) :
    ledger.TellsExactly var (.seq first second) before aborts (notes ++ more) after where
  any := by
    obtain ⟨log, runs⟩ := early.goes.2 rfl
    obtain ⟨behind, ending, onward⟩ := late.any
    exact ⟨_, ending, .inr ⟨log, behind, runs, onward, rfl⟩⟩
  goes := by
    rw [← late.goes]
    constructor
    · rintro ⟨_, ⟨-, stops⟩ | ⟨_, log, -, onward, -⟩⟩
      · exact absurd rfl stops
      · exact ⟨log, onward⟩
    · rintro ⟨log, onward⟩
      obtain ⟨front, runs⟩ := early.goes.2 rfl
      exact ⟨_, .inr ⟨front, log, runs, onward, rfl⟩⟩
  made := by
    rintro _ ending node (⟨runs, -⟩ | ⟨front, log, runs, onward, rfl⟩) mem
    · exact early.made runs mem
    · exact (List.mem_append.1 mem).elim (early.made runs) (late.made onward)
  behind goes leaf := by
    rw [late.behind goes]
    constructor
    · rintro ⟨log, onward, source, below, rfl⟩
      obtain ⟨front, runs, delivers⟩ := (early.behind rfl source).1 below
      exact ⟨_, .inr ⟨front, log, runs, onward, rfl⟩, delivers_append.2 ⟨source, delivers, rfl⟩⟩
    · rintro ⟨_, ⟨-, stops⟩ | ⟨front, log, runs, onward, rfl⟩, delivers⟩
      · exact absurd rfl stops
      · obtain ⟨between, delivers, carried⟩ := delivers_append.1 delivers
        exact ⟨log, onward, between, (early.behind rfl between).2 ⟨front, runs, delivers⟩, carried⟩
  sees := by
    rintro front id rest ending leaf (⟨runs, -⟩ | ⟨log, behind, runs, onward, whole⟩) delivers
    · exact early.sees runs delivers
    · -- The read is on the path through the first part, or on the one through the second.
      rcases List.append_eq_append_iff.1 whole with ⟨between, rfl, split⟩ | ⟨between, rfl, split⟩
      · cases between with
        | nil =>
          rw [List.append_nil] at runs
          obtain rfl : behind = .read id var :: rest := split.symm
          exact late.sees_at_start onward ((early.behind rfl leaf).2 ⟨front, runs, delivers⟩)
        | cons event between =>
          obtain ⟨rfl, rfl⟩ := List.cons.inj split
          exact early.sees runs delivers
      · subst split
        obtain ⟨source, delivers, carried⟩ := delivers_append.1 delivers
        exact late.sees onward ⟨source, (early.behind rfl source).2 ⟨log, runs, delivers⟩, carried⟩
  seen entry mem here isRead leaf below := by
    rcases List.mem_append.1 mem with mem | mem
    · obtain ⟨front, rest, ending, runs, delivers⟩ := early.seen entry mem here isRead leaf below
      by_cases ends : ending = .done
      · obtain ⟨log, last, onward⟩ := late.any
        subst ends
        exact ⟨front, rest ++ log, last, .inr ⟨_, log, runs, onward, by simp⟩, delivers⟩
      · exact ⟨front, rest, ending, .inl ⟨runs, ends⟩, delivers⟩
    · obtain ⟨front, rest, ending, onward, source, below, carried⟩ :=
        late.seen entry mem here isRead leaf below
      obtain ⟨log, runs, delivers⟩ := (early.behind rfl source).1 below
      exact ⟨log ++ front, rest, ending, .inr ⟨log, _, runs, onward, by simp⟩,
        delivers_append.2 ⟨source, delivers, carried⟩⟩

/-- Behind a part that control never runs past, nothing is reached. -/
theorem seq_of_aborts (early : ledger.TellsExactly var first before true notes middle) :
    ledger.TellsExactly var (.seq first second) before true notes after := by
  have stops (log : List Event) : ¬ first log .done :=
    fun runs => Bool.noConfusion (early.goes.1 ⟨log, runs⟩)
  have only {log : List Event} {ending : Ending} : Paths.seq first second log ending ↔
      first log ending := by
    constructor
    · rintro (⟨runs, -⟩ | ⟨log, _, runs, -, -⟩)
      · exact runs
      · exact absurd runs (stops log)
    · intro runs
      refine .inl ⟨runs, ?_⟩
      rintro rfl
      exact stops log runs
  exact {
    any := early.any.imp fun log told => told.imp fun ending runs => only.2 runs
    goes := by simp only [only, early.goes]
    made := fun runs => early.made (only.1 runs)
    behind := nofun
    sees := fun runs delivers => early.sees (only.1 runs) delivers
    seen := by
      simp only [only]
      exact early.seen }

/-- Either of two parts, if the point behind them comes from the ends of those alone that control
runs past. -/
theorem either (yes : ledger.TellsExactly var first before aborts notes yesEnd)
    (no : ledger.TellsExactly var second before abortsElse more noEnd)
    (joined : aborts = false ∨ abortsElse = false → ∀ leaf, ledger.traces.Leaf var after leaf ↔
      aborts = false ∧ ledger.traces.Leaf var yesEnd leaf ∨ abortsElse = false ∧
      ledger.traces.Leaf var noEnd leaf) :
    ledger.TellsExactly var (.either first second) before (aborts && abortsElse)
      (notes ++ more) after where
  any := yes.any.imp fun _ => .imp fun _ => .inl
  goes := by
    rw [Bool.and_eq_false_iff, ← yes.goes, ← no.goes]
    exact exists_or
  made runs mem := runs.elim (fun runs => yes.made runs mem) fun runs => no.made runs mem
  behind goes leaf := by
    rw [joined (Bool.and_eq_false_iff.1 goes)]
    constructor
    · rintro (⟨goes, below⟩ | ⟨goes, below⟩)
      · obtain ⟨log, runs, delivers⟩ := (yes.behind goes leaf).1 below
        exact ⟨log, .inl runs, delivers⟩
      · obtain ⟨log, runs, delivers⟩ := (no.behind goes leaf).1 below
        exact ⟨log, .inr runs, delivers⟩
    · rintro ⟨log, runs | runs, delivers⟩
      · have goes : aborts = false := yes.goes.1 ⟨log, runs⟩
        exact .inl ⟨goes, (yes.behind goes leaf).2 ⟨log, runs, delivers⟩⟩
      · have goes : abortsElse = false := no.goes.1 ⟨log, runs⟩
        exact .inr ⟨goes, (no.behind goes leaf).2 ⟨log, runs, delivers⟩⟩
  sees runs delivers := runs.elim (fun runs => yes.sees runs delivers) fun runs =>
    no.sees runs delivers
  seen entry mem here isRead leaf below := by
    rcases List.mem_append.1 mem with mem | mem
    · obtain ⟨front, rest, ending, runs, delivers⟩ := yes.seen entry mem here isRead leaf below
      exact ⟨front, rest, ending, .inl runs, delivers⟩
    · obtain ⟨front, rest, ending, runs, delivers⟩ := no.seen entry mem here isRead leaf below
      exact ⟨front, rest, ending, .inr runs, delivers⟩

end TellsExactly

/-- The leaves behind the arms of a conditional are those at the ends of the arms past which control
runs. -/
theorem leaf_behind_arms {traces : Traces} {point yesEnd noEnd : Versions}
    (meetsYes : aborts = false → traces.Meets yesEnd point)
    (meetsNo : abortsElse = false → traces.Meets noEnd point)
    (comesFrom : aborts = false ∨ abortsElse = false →
      traces.ComesFrom (EndsOfArms aborts abortsElse yesEnd noEnd) point)
    (goes : aborts = false ∨ abortsElse = false) (leaf : Version) :
    traces.Leaf var (point var) leaf ↔
      aborts = false ∧ traces.Leaf var (yesEnd var) leaf ∨ abortsElse = false ∧ traces.Leaf var
        (noEnd var) leaf := by
  have onward {path : Versions} (meets : traces.Meets path point)
      (below : traces.Leaf var (path var) leaf) :
      traces.Leaf var (point var) leaf := by
    rcases meets var with same | ⟨sources, joined, mem⟩
    · exact same ▸ below
    · exact .through joined mem below
  have back {path : Versions} (ends : EndsOfArms aborts abortsElse yesEnd noEnd path)
      (below : traces.Leaf var (path var) leaf) :
      aborts = false ∧ traces.Leaf var (yesEnd var) leaf ∨ abortsElse = false ∧ traces.Leaf var
        (noEnd var) leaf := by
    cases ends with
    | yes goes => exact .inl ⟨goes, below⟩
    | no goes => exact .inr ⟨goes, below⟩
  constructor
  · intro below
    rcases comesFrom goes var with ⟨path, ends, same⟩ | ⟨sources, joined, only⟩
    · exact back ends (same ▸ below)
    · obtain ⟨source, mem, below⟩ := (Traces.leaf_of_joined joined leaf).1 below
      obtain ⟨path, ends, rfl⟩ := only source mem
      exact back ends below
  · rintro (⟨goes, below⟩ | ⟨goes, below⟩)
    · exact onward (meetsYes goes) below
    · exact onward (meetsNo goes) below

variable {code newCode : Code} {point behind : Versions} {breaks : List Versions} {vars : Variables}

/-- Control runs past what is left of an operand. -/
theorem Walks.goes_of_operand (walks : ledger.Walks code point newCode behind breaks)
    (operand : code.isOperand = true) :
    newCode.aborts = false := by
  induction walks with
  | still still =>
    unfold Code.isStill at still
    split at still <;> first | rfl | cases operand | cases still
  | fold | read | call | eval => rfl
  | through _ _ _ first second =>
    simp only [Code.isOperand, Bool.and_eq_true] at operand
    simp [Code.aborts_append, first operand.1, second operand.2]
  | dead _ stops ih =>
    simp only [Code.isOperand, Bool.and_eq_true] at operand
    simp [ih operand.1] at stops
  | _ => cases operand

/-- Behind what is left of an operand control goes on. -/
theorem Walks.past_operand (walks : ledger.Walks code point newCode behind breaks)
    (operand : code.isOperand = true)
    (tells : code.hasOperands = true →
      ledger.TellsExactly var first before newCode.aborts notes after) :
    ledger.TellsExactly var first before false notes after :=
  walks.goes_of_operand operand ▸ tells (Code.hasOperands_of_isOperand operand)

/-- The account of a tree without loops is exact for every private variable. -/
theorem Walks.tellsExactly (walks : ledger.Walks code point newCode behind breaks)
    (sound : ledger.traces.Sound vars) (isPrivate : ledger.vars.IsPrivate var)
    (loopFree : code.loops = []) (operands : code.hasOperands = true) :
    ledger.TellsExactly var (code.paths ledger.options) (point var) newCode.aborts newCode.notes
      (behind var) := by
  induction walks with
  | still still =>
    unfold Code.isStill at still
    split at still
    · exact .skip
    · exact .skip
    · exact .skip
    · exact .stop (by simp [Code.aborts])
    · cases loopFree
    · exact .skip
    · cases still
  | fold => exact .skip
  | constant known =>
    rw [Code.paths, Code.paths_of_constant known]
    exact .skip
  | read seen _ => exact .read fun same => same ▸ seen
  | call walkCallee walkArgs escapes first second =>
    simp only [Code.hasOperands, Bool.and_eq_true] at operands
    obtain ⟨noneCallee, noneArgs⟩ := List.append_eq_nil_iff.1 loopFree
    have callee := walkCallee.past_operand operands.1 (first noneCallee)
    have args := walkArgs.past_operand operands.2 (second noneArgs)
    rw [escapes.of_private isPrivate]
    exact callee.seq args
  | eval walkSource escapes ih =>
    rw [escapes.of_private isPrivate]
    exact walkSource.past_operand operands (ih loopFree)
  | block _ ih =>
    rw [Code.aborts_wrap, Code.notes_wrap]
    exact ih loopFree operands
  | through _ goes _ first second =>
    simp only [Code.hasOperands, Bool.and_eq_true] at operands
    obtain ⟨noneHead, noneTail⟩ := List.append_eq_nil_iff.1 loopFree
    have head := first noneHead operands.1
    rw [goes] at head
    rw [Code.aborts_append, Code.aborts_contents, goes, Bool.false_or, Code.notes_append,
      Code.notes_contents]
    exact head.seq (second noneTail operands.2)
  | dead _ stops ih =>
    simp only [Code.hasOperands, Bool.and_eq_true] at operands
    have head := ih (List.append_eq_nil_iff.1 loopFree).1 operands.1
    rw [stops] at head
    rw [Code.aborts_append, Code.aborts_contents, stops, Bool.true_or, Code.notes_append,
      Code.notes_contents]
    exact head.seq_of_aborts.renote (by simp +contextual [Code.notes])
  | assign walkValue made recorded ih =>
    have value := walkValue.past_operand operands (ih loopFree)
    exact (value.seq (.write (sound.exists_leaf var _) made recorded (by simp))).renote
      (by simp +contextual [Code.notes])
  | delete made recorded | idle made recorded =>
    exact (TellsExactly.write (sound.exists_leaf var _) made recorded (by simp)).renote
      (by simp [Code.notes])
  | effect walkExpr ih =>
    exact walkExpr.past_operand operands (ih loopFree)
  | known known _ ih =>
    simp only [Code.hasOperands, Bool.and_eq_true] at operands
    obtain ⟨-, noneArms⟩ := List.append_eq_nil_iff.1 loopFree
    obtain ⟨noneYes, noneNo⟩ := List.append_eq_nil_iff.1 noneArms
    rw [Code.paths_branch_known known]
    refine ih ?_ ?_
    · split
      · exact noneYes
      · exact noneNo
    · split
      · exact operands.2.1
      · exact operands.2.2
  | unknown walkCond unknown _ _ _ meetsYes meetsNo comesFrom first second third =>
    simp only [Code.hasOperands, Bool.and_eq_true] at operands
    obtain ⟨noneCond, noneArms⟩ := List.append_eq_nil_iff.1 loopFree
    obtain ⟨noneYes, noneNo⟩ := List.append_eq_nil_iff.1 noneArms
    have cond := walkCond.past_operand operands.1 (first noneCond)
    rw [Code.paths_branch_unknown unknown, Code.aborts_choice, Code.notes_choice]
    exact cond.seq
      ((second noneYes operands.2.1).either (third noneNo operands.2.2)
        (leaf_behind_arms meetsYes meetsNo comesFrom))
  | loop => cases loopFree
  | brk => exact .stop (by simp [Code.aborts])
  | ret walkValue ih =>
    have value := walkValue.past_operand operands (ih loopFree)
    exact (value.seq (.stop (by simp [Code.aborts]))).renote (by simp +contextual [Code.notes])

end Ledger

namespace Walk

variable {arena : Arena} {body : NodeId} {code : Code} {left : Option NodeId} {after : Walk}

/-- In a body without loops, the leaves of the version noted at a read of a private variable are
exactly the versions made at its last writes on the control paths to the read, and the entry version
if a path there does not write it. -/
theorem reads_tell_exactly (kind : BodyKind) (vars : Variables) (options : Options) (tree : arena.IsTree body code)
    (loopFree : code.loops = []) (walked : walkBody kind body ⟨.forBody kind vars options, arena⟩ = .ok left after) :
    ∃ newCode notes, after.arena.Shows (.maybe .stmt left) newCode ∧ after.analysis.traces.HoldsNotes code newCode notes ∧
      ∀ var, vars.IsPrivate var →
        (∀ log ending node, code.paths options log ending → .write node var ∈ log →
          ∃ note ∈ notes, note.binds.isSome ∧ note.node = node ∧ note.var = var) ∧
        ∀ id version, (id, var, none, some version) ∈ newCode.notes → ∀ leaf, after.analysis.traces.Leaf var version leaf ↔
          ∃ early late ending, code.paths options (early ++ .read id var :: late) ending ∧
            (Ledger.ofNotes ⟨vars, options⟩ after.analysis.traces notes).latest .entry early var = leaf := by
  obtain ⟨newCode, notes, rewrote⟩ := bodyRewrote_of_walkBody kind vars options tree walked
  obtain ⟨last, breaks, account⟩ := rewrote.account
  have sound := rewrote.sound.analysis.traces
  refine ⟨newCode, notes, rewrote.shows_, rewrote.holdsNotes, fun var isPrivate => ?_⟩
  have tells := account.tellsExactly sound isPrivate loopFree tree.shows_.hasOperands
  have delivers (early : List Event) (leaf : Version) :
      (Ledger.ofNotes ⟨vars, options⟩ after.analysis.traces notes).Delivers var .entry early leaf ↔
        (Ledger.ofNotes ⟨vars, options⟩ after.analysis.traces notes).latest .entry early var = leaf := by
    unfold Ledger.Delivers
    simp only [Ledger.ofNotes, sound.leaf_entry_iff, exists_eq_left]
    rfl
  refine ⟨fun log ending node runs mem => tells.made runs mem, fun id version mem leaf => ?_⟩
  have noted : version = (Ledger.ofNotes ⟨vars, options⟩ after.analysis.traces notes).labels id :=
    Option.some.inj (account.notes _ mem).1
  subst noted
  constructor
  · intro below
    obtain ⟨early, late, ending, runs, told⟩ := tells.seen _ mem rfl rfl leaf below
    exact ⟨early, late, ending, runs, (delivers early leaf).1 told⟩
  · rintro ⟨early, late, ending, runs, told⟩
    exact tells.sees runs ((delivers early leaf).2 told)

/-- A body with a delete that is removed: `del? x; if c { x = 1 }; x`. -/
def partingBody : Arena :=
  ⟨#[⟨.expr (.read 0 none), ⟨0, 1⟩⟩, ⟨.expr (.literal (.int 1)), ⟨1, 2⟩⟩, ⟨.stmt (.assign 1 1 none), ⟨2, 3⟩⟩,
    ⟨.stmt (.branch 0 (some 2) none), ⟨3, 4⟩⟩, ⟨.stmt (.delete 1 true none), ⟨4, 5⟩⟩, ⟨.expr (.read 1 none), ⟨5, 6⟩⟩,
    ⟨.stmt (.effect 5), ⟨6, 7⟩⟩, ⟨.stmt (.block [4, 3, 6]), ⟨7, 8⟩⟩]⟩

/-- Its variables. -/
def partingVars : Variables := ⟨#[⟨"c", .parameter, false, .entry⟩, ⟨"x", .localSlot, false, .entry⟩]⟩

/-- Its tree. -/
def partingCode : Code :=
  .block 7 (.cons (.delete 4 1 true none) (.cons (.branch 3 (.read 0 0 none) (.assign 2 1 (.literal 1 (.int 1)) none) .nil)
    (.cons (.effect 6 (.read 5 1 none)) .nil)))

theorem isTree_partingBody : partingBody.IsTree 7 partingCode where
  shows_ := .block rfl
    (.cons (.delete rfl)
      (.cons (.branch rfl (.read rfl) (.present (.assign rfl (.literal rfl))) .absent)
        (.cons (.effect rfl (.read rfl)) .nil)))
  nodup := by decide

/-- The read behind the conditional sees a join of the versions made at the assignment and at the
delete, of which nothing is left. -/
theorem partingBody_reads : ∃ left after, walkBody .functionBody 7 ⟨.forBody .functionBody partingVars {}, partingBody⟩ = .ok left after ∧
    partingCode.loops = [] ∧ after.arena.block? 7 = some [3, 6] ∧ after.arena.expr? 5 = some (.read 1 (some 3)) ∧
    after.analysis.traces.origin? ⟨1, 3⟩ = some (.joined [1, 2]) ∧ after.analysis.traces.origin? ⟨1, 1⟩ = some (.unbound (some .entry)) ∧
    ∃ newCode notes, after.arena.Shows (.maybe .stmt left) newCode ∧ after.analysis.traces.HoldsNotes partingCode newCode notes ∧
      ∀ var, partingVars.IsPrivate var →
        (∀ log ending node, partingCode.paths {} log ending → .write node var ∈ log →
          ∃ note ∈ notes, note.binds.isSome ∧ note.node = node ∧ note.var = var) ∧
        ∀ id version, (id, var, none, some version) ∈ newCode.notes → ∀ leaf, after.analysis.traces.Leaf var version leaf ↔
          ∃ early late ending, partingCode.paths {} (early ++ .read id var :: late) ending ∧
            (Ledger.ofNotes ⟨partingVars, {}⟩ after.analysis.traces notes).latest .entry early var = leaf := by
  have ends : endsWith (walkBody .functionBody 7) ⟨.forBody .functionBody partingVars {}, partingBody⟩ (fun _ after =>
      after.arena.block? 7 == some [3, 6] && after.arena.expr? 5 == some (.read 1 (some 3)) &&
        after.analysis.traces.origin? ⟨1, 3⟩ == some (.joined [1, 2]) &&
        after.analysis.traces.origin? ⟨1, 1⟩ == some (.unbound (some .entry))) = true := by
    decide +kernel
  obtain ⟨left, after, walked, told⟩ := exists_of_endsWith ends
  simp only [Bool.and_eq_true, beq_iff_eq] at told
  obtain ⟨⟨⟨kept, seen⟩, joined⟩, deleted⟩ := told
  exact ⟨left, after, walked, rfl, kept, seen, joined, deleted,
    reads_tell_exactly .functionBody partingVars {} isTree_partingBody rfl walked⟩

end Walk

end ValueFlow
