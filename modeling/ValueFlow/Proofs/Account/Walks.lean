import ValueFlow.Proofs.Integrity.Binding
import ValueFlow.Proofs.Meaning.Runs

/-!
# Accounts of walks

What a walk makes of a tree, told without the state that it passes through. `Ledger.Walks` relates
the tree and the versions at which the variables stand before it with the tree that is left, the
versions behind it, and the versions at the breaks that lead out of it.

The account is given against a ledger: the log that stands in the end, and for each node the version
that the walk saw there, if the node reads a variable, or made there, if it writes one. Nothing is
ever taken out of a log, so that what an early part of the walk has recorded may be looked up in the
final one.
-/

namespace ValueFlow
set_option autoImplicit false

/-- The version of each variable at a point. -/
abbrev Versions := VarId → Version

/-- Puts a variable at another version. -/
def Versions.set (versions : Versions) (var : VarId) (version : Version) : Versions :=
  fun other => if other = var then version else versions other

/-- The log behind a walk, the version of each node that reads or writes, and for which node and
variable the walk has made one. -/
structure Ledger extends Setting where
  traces : Traces
  labels : NodeId → Version
  made : NodeId → VarId → Prop

/-- A path leads to a point: each variable stands there where the path has it, or at a join of
that. -/
def Traces.Meets (traces : Traces) (path point : Versions) : Prop :=
  ∀ var, point var = path var ∨ ∃ sources, traces.origin? ⟨var, point var⟩ = some (.joined sources) ∧ path var ∈ sources

theorem Traces.Meets.refl (traces : Traces) (point : Versions) : traces.Meets point point :=
  fun _ => .inl rfl

theorem Traces.Meets.extend {older newer : Traces} {path point : Versions}
    (meets : older.Meets path point) (extends_ : older.Extends newer) : newer.Meets path point := by
  intro var
  rcases meets var with same | ⟨sources, joined, mem⟩
  · exact .inl same
  · exact .inr ⟨sources, extends_ _ _ joined, mem⟩

/-- Nothing but these paths leads to a point: each variable stands there where one of them has it,
or at a join of versions at which they have it. -/
def Traces.ComesFrom (traces : Traces) (paths : Versions → Prop) (point : Versions) : Prop :=
  ∀ var, (∃ path, paths path ∧ point var = path var) ∨
    ∃ sources, traces.origin? ⟨var, point var⟩ = some (.joined sources) ∧ ∀ source ∈ sources, ∃ path, paths path ∧ path var = source

theorem Traces.ComesFrom.extend {older newer : Traces} {paths : Versions → Prop}
    {point : Versions} (comesFrom : older.ComesFrom paths point) (extends_ : older.Extends newer) :
    newer.ComesFrom paths point :=
  fun var => (comesFrom var).imp_right fun ⟨sources, joined, only⟩ =>
    ⟨sources, extends_ _ _ joined, only⟩

theorem Traces.ComesFrom.mono {traces : Traces} {paths more : Versions → Prop} {point : Versions}
    (comesFrom : traces.ComesFrom paths point) (among : ∀ path, paths path → more path) :
    traces.ComesFrom more point :=
  fun var => (comesFrom var).imp (fun ⟨path, mem, same⟩ => ⟨path, among path mem, same⟩)
    fun ⟨sources, joined, only⟩ =>
    ⟨sources, joined, fun source mem => (only source mem).imp fun _ => .imp_left (among _)⟩

/-- The ends of two arms past which control runs. -/
inductive EndsOfArms (yesAborts noAborts : Bool) (yesEnd noEnd : Versions) : Versions → Prop
  | yes (goes : yesAborts = false) : EndsOfArms yesAborts noAborts yesEnd noEnd yesEnd
  | no (goes : noAborts = false) : EndsOfArms yesAborts noAborts yesEnd noEnd noEnd

namespace Ledger

variable (ledger : Ledger)

/-- Code elsewhere was run. It does not move private variables, and nothing is known of those that
it moves. -/
def Escapes (before after : Versions) : Prop :=
  ∀ var, after var = before var ∨ ¬ ledger.vars.IsPrivate var ∧ ledger.traces.IsUnknown var (after var)

/-- At the head of a loop nothing is known of what the body may write, but that it may still be what
it was before. -/
def Forgets (body : Code) (before head : Versions) : Prop :=
  ∀ var, ledger.traces.IsUnknown var (head var) ∧ ledger.traces.Derives var (head var) (before var) ∨
    var ∉ body.targets ∧ head var = before var

/-- The walk of a tree from some versions leaves another tree and other versions, and meets
breaks. -/
inductive Walks : Code → Versions → Code → Versions → List Versions → Prop
  | still {code : Code} {here : Versions} (still : code.isStill ledger.options = true) : Walks code here code here []
  | fold {id added : NodeId} {name : String} {value : Literal} {here : Versions}
      (known : builtinValue? ledger.options name = some value) :
      Walks (.builtin id name) here (.literal added value) here []
  | read {id : NodeId} {var : VarId} {old : Option Version} {here : Versions} (seen : ledger.labels id = here var)
      (counted : ledger.traces.IsCounted ⟨var, ledger.labels id⟩) :
      Walks (.read id var old) here (.read id var (some (ledger.labels id))) here []
  | call {id : NodeId} {callee args newCallee newArgs : Code} {before middle behind after : Versions}
      (walkCallee : Walks callee before newCallee middle []) (walkArgs : Walks args middle newArgs behind [])
      (escapes : ledger.Escapes behind after) :
      Walks (.call id callee args) before (.call id newCallee newArgs) after []
  | eval {id : NodeId} {source newSource : Code} {before behind after : Versions}
      (walkSource : Walks source before newSource behind []) (escapes : ledger.Escapes behind after) :
      Walks (.eval id source) before (.eval id newSource) after []
  | block {id : NodeId} {row newRow : Code} {before after : Versions} {breaks : List Versions}
      (walkRow : Walks row before newRow after breaks) :
      Walks (.block id row) before (.wrap id newRow) after breaks
  | through {head tail newHead newTail : Code} {before middle after : Versions} {first second : List Versions}
      (walkHead : Walks head before newHead middle first) (goes : newHead.aborts = false)
      (walkTail : Walks tail middle newTail after second) :
      Walks (.cons head tail) before (newHead.contents.append newTail) after (first ++ second)
  | dead {head tail newHead : Code} {before after : Versions} {breaks : List Versions}
      (walkHead : Walks head before newHead after breaks) (stops : newHead.aborts = true) :
      Walks (.cons head tail) before (newHead.contents.append .nil) after breaks
  | assign {id : NodeId} {target : VarId} {value newValue : Code} {old : Option Version} {before middle : Versions}
      (walkValue : Walks value before newValue middle []) (made : ledger.made id target)
      (recorded : ledger.traces.origin? ⟨target, ledger.labels id⟩ = some (.assigned id (middle target))) :
      Walks (.assign id target value old) before (.assign id target newValue (some (ledger.labels id)))
        (middle.set target (ledger.labels id)) []
  | delete {id : NodeId} {target : VarId} {tolerant : Bool} {old : Option Version} {here : Versions}
      (made : ledger.made id target)
      (recorded : ledger.traces.origin? ⟨target, ledger.labels id⟩ = some (.unbound (some (here target)))) :
      Walks (.delete id target tolerant old) here (.delete id target tolerant (some (ledger.labels id)))
        (here.set target (ledger.labels id)) []
  | idle {id : NodeId} {target : VarId} {old : Option Version} {here : Versions} (made : ledger.made id target)
      (recorded : ledger.traces.origin? ⟨target, ledger.labels id⟩ = some (.unbound (some (here target))))
      (unbound : ledger.traces.AllLeaves target (here target) Traces.leavesUnbound) :
      Walks (.delete id target true old) here .nil (here.set target (ledger.labels id)) []
  | constant {id : NodeId} {expr : Code} {value : Literal} {here : Versions}
      (known : expr.constant? ledger.options = some value) : Walks (.effect id expr) here .nil here []
  | effect {id : NodeId} {expr newExpr : Code} {before after : Versions} (walkExpr : Walks expr before newExpr after []) :
      Walks (.effect id expr) before (.effect id newExpr) after []
  | known {id : NodeId} {cond yes no newArm : Code} {value : Literal} {before after : Versions} {breaks : List Versions}
      (known : cond.constant? ledger.options = some value)
      (walkArm : Walks (if value.isTruthy then yes else no) before newArm after breaks) :
      Walks (.branch id cond yes no) before newArm after breaks
  | unknown {id added : NodeId} {cond yes no newCond newYes newNo : Code} {before middle yesEnd noEnd after : Versions}
      {first second : List Versions} (walkCond : Walks cond before newCond middle [])
      (unknown : cond.constant? ledger.options = none) (stays : newCond.constant? ledger.options = none)
      (walkYes : Walks yes middle newYes yesEnd first) (walkNo : Walks no middle newNo noEnd second)
      (meetsYes : newYes.aborts = false → ledger.traces.Meets yesEnd after)
      (meetsNo : newNo.aborts = false → ledger.traces.Meets noEnd after)
      (comesFrom : newYes.aborts = false ∨ newNo.aborts = false →
        ledger.traces.ComesFrom (EndsOfArms newYes.aborts newNo.aborts yesEnd noEnd) after) :
      Walks (.branch id cond yes no) before (.choice id added newCond newYes newNo) after (first ++ second)
  | loop {id : NodeId} {body newBody : Code} {before head foot after : Versions} {breaks : List Versions}
      (forgets : ledger.Forgets body before head) (walkBody : Walks body head newBody foot breaks)
      (meets : ∀ path ∈ breaks, ledger.traces.Meets path after) :
      Walks (.loop id body) before (.cycle id newBody.trim) after []
  | brk {id : NodeId} {here : Versions} : Walks (.brk id) here (.brk id) here [here]
  | ret {id : NodeId} {value newValue : Code} {before after : Versions} (walkValue : Walks value before newValue after []) :
      Walks (.ret id value) before (.ret id newValue) after []

variable {ledger} {code newCode : Code} {before after : Versions} {breaks : List Versions}

theorem Escapes.of_private (escapes : ledger.Escapes before after) {var : VarId}
    (isPrivate : ledger.vars.IsPrivate var) :
    after var = before var :=
  (escapes var).resolve_right fun told => told.1 isPrivate

/-- Every note that is left is that of the ledger, and every read that is left was counted. -/
theorem Walks.notes (walks : ledger.Walks code before newCode after breaks) :
    ∀ entry ∈ newCode.notes, entry.2.2.2 = some (ledger.labels entry.1) ∧
      (entry.2.2.1 = none → ledger.traces.IsCounted ⟨entry.2.1, ledger.labels entry.1⟩) := by
  induction walks with
  | still still => simp [Code.notes_of_still still]
  | fold | idle | constant | brk => simp [Code.notes]
  | read _ counted => simpa [Code.notes] using counted
  | delete => simp [Code.notes]
  | call _ _ _ first second =>
    intro entry mem
    exact (List.mem_append.1 mem).elim (first entry) (second entry)
  | eval _ _ ih | effect _ ih | known _ _ ih | ret _ ih => exact ih
  | assign _ _ _ ih => simpa [Code.notes] using ih
  | block _ ih =>
    rw [Code.notes_wrap]
    exact ih
  | through _ _ _ first second =>
    intro entry mem
    rw [Code.notes_append, Code.notes_contents] at mem
    exact (List.mem_append.1 mem).elim (first entry) (second entry)
  | dead _ _ ih =>
    rw [Code.notes_append, Code.notes_contents]
    simpa [Code.notes] using ih
  | unknown _ _ _ _ _ _ _ _ first second third =>
    intro entry mem
    rw [Code.notes_choice] at mem
    rcases List.mem_append.1 mem with mem | mem
    · exact first entry mem
    · exact (List.mem_append.1 mem).elim (second entry) (third entry)
  | loop _ _ _ ih =>
    rw [Code.notes_cycle, Code.notes_trim]
    exact ih

/-- Where a break leads out of a tree, a break is left in it. -/
theorem Walks.mayBreak (walks : ledger.Walks code before newCode after breaks)
    (leads : breaks ≠ []) :
    newCode.mayBreak = true := by
  induction walks with
  | still | fold | read | call | eval | assign | delete | idle | constant | effect | loop | ret =>
    contradiction
  | brk => rfl
  | block _ ih => simpa using ih leads
  | known _ _ ih => exact ih leads
  | @through _ _ _ _ _ _ _ first second _ _ _ ihHead ihTail =>
    rw [Code.mayBreak_append, Code.mayBreak_contents, Bool.or_eq_true]
    by_cases none : first = []
    · exact .inr (ihTail (by simpa [none] using leads))
    · exact .inl (ihHead none)
  | dead _ _ ih => simp [Code.mayBreak_append, ih leads]
  | @unknown _ _ _ _ _ _ _ _ _ _ _ _ _ first second _ _ _ _ _ _ _ _ _ ihYes ihNo =>
    rw [Code.mayBreak_choice, Bool.or_eq_true]
    by_cases none : first = []
    · exact .inr (ihNo (by simpa [none] using leads))
    · exact .inl (ihYes none)

end Ledger

end ValueFlow
