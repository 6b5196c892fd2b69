import ValueFlow.Proofs.Meaning.Runs
import ValueFlow.Proofs.Tree.Shows

/-!
# Control paths

The ways on which control may come through a tree without loops, whatever the values are: a
condition of known value takes its arm, any other may take either, and an exit ends the path. Of
what happens on a path only the reads and writes are told, in order. Nothing is asked of what is
bound, so that no path ends because a variable is not (`Code.paths`).

Operands are expressions, and so control runs past them (`Code.isOperand`).
-/

namespace ValueFlow
set_option autoImplicit false

/-- The paths through a program: the reads and writes on each of them, and how it ends. -/
abbrev Paths := List Event → Ending → Prop

namespace Paths

/-- One path, on which nothing happens. -/
def stop (ending : Ending) : Paths := fun log reached => log = [] ∧ reached = ending

/-- One path with a single event. -/
def step (event : Event) : Paths := fun log reached => log = [event] ∧ reached = .done

/-- The paths through one program, and behind its end those through another one. -/
def seq (first second : Paths) : Paths := fun log ending =>
  first log ending ∧ ending ≠ .done ∨ ∃ early late, first early .done ∧ second late ending ∧ log = early ++ late

/-- The paths through either of two programs. -/
def either (first second : Paths) : Paths := fun log ending => first log ending ∨ second log ending

end Paths

namespace Code

/-- The paths through a tree. None is given through a loop, or through a node of the wrong class. -/
def paths (options : Options) : Code → Paths
  | literal _ _ => .stop .done
  | read id var _ => .step (.read id var)
  | builtin _ _ => .stop .done
  | call _ callee args => .seq (callee.paths options) (args.paths options)
  | eval _ source => source.paths options
  | block _ row => row.paths options
  | assign id target value _ => .seq (value.paths options) (.step (.write id target))
  | delete id target _ _ => .step (.write id target)
  | release _ _ => .stop .done
  | effect _ expr => expr.paths options
  | branch _ cond yes no =>
    match cond.constant? options with
    | some value => if value.isTruthy then yes.paths options else no.paths options
    | none => .seq (cond.paths options) (.either (yes.paths options) (no.paths options))
  | loop _ _ => fun _ _ => False
  | brk _ => .stop .brk
  | cont _ => .stop .cont
  | ret _ value => .seq (value.paths options) (.stop .ret)
  | hole _ => fun _ _ => False
  | nil => .stop .done
  | cons head tail => .seq (head.paths options) (tail.paths options)

/-- An expression, or a row of expressions. -/
def isOperand : Code → Bool
  | literal _ _ => true
  | read _ _ _ => true
  | builtin _ _ => true
  | call _ callee args => callee.isOperand && args.isOperand
  | eval _ source => source.isOperand
  | hole _ => true
  | nil => true
  | cons head tail => head.isOperand && tail.isOperand
  | _ => false

/-- All operands in the tree are expressions. -/
def hasOperands : Code → Bool
  | call _ callee args => callee.isOperand && args.isOperand
  | eval _ source => source.isOperand
  | block _ row => row.hasOperands
  | assign _ _ value _ => value.isOperand
  | effect _ expr => expr.isOperand
  | branch _ cond yes no => cond.isOperand && (yes.hasOperands && no.hasOperands)
  | loop _ body => body.hasOperands
  | ret _ value => value.isOperand
  | cons head tail => head.hasOperands && tail.hasOperands
  | _ => true

variable {options : Options} {id : NodeId} {cond yes no : Code} {value : Literal}

theorem paths_branch_known (known : cond.constant? options = some value) :
    (branch id cond yes no).paths options = (if value.isTruthy then yes else no).paths options := by
  simp only [paths, known]
  split <;> rfl

theorem paths_branch_unknown (unknown : cond.constant? options = none) :
    (branch id cond yes no).paths options = .seq (cond.paths options)
      (.either (yes.paths options) (no.paths options)) := by
  simp only [paths, unknown]

theorem paths_of_constant (known : cond.constant? options = some value) :
    cond.paths options = .stop .done := by
  cases cond with
  | literal | builtin => rfl
  | _ => cases known

theorem hasOperands_of_isOperand {code : Code} (operand : code.isOperand = true) :
    code.hasOperands = true := by
  induction code with
  | cons head tail first second =>
    simp only [isOperand, Bool.and_eq_true] at operand
    simp [hasOperands, first operand.1, second operand.2]
  | call | eval => exact operand
  | literal | read | builtin | hole | nil => rfl
  | _ => cases operand

end Code

namespace Arena.Shows

variable {arena : Arena} {place : Place} {code : Code}

/-- What stands where no statement does is an operand. -/
theorem isOperand (shows_ : arena.Shows place code) (exprs : place.stmts = []) :
    code.isOperand = true := by
  induction shows_ with
  | literal | read | builtin | hole | nil | absent => rfl
  | call _ _ _ first second => simp [Code.isOperand, first rfl, second rfl]
  | eval _ _ ih => exact ih rfl
  | @present class_ id _ _ ih => exact ih exprs
  | @cons class_ id rest _ _ _ _ first second =>
    have parts : class_.keep [id] = [] ∧ class_.keep rest = [] :=
      List.append_eq_nil_iff.1 (class_.keep_cons id rest ▸ exprs)
    simp [Code.isOperand, first parts.1, second parts.2]
  | _ => cases exprs

/-- In what an arena shows all operands are expressions. -/
theorem hasOperands (shows_ : arena.Shows place code) : code.hasOperands = true := by
  induction shows_ with
  | call _ callee args => simp [Code.hasOperands, callee.isOperand rfl, args.isOperand rfl]
  | eval _ source | assign _ source | effect _ source | ret _ source => exact source.isOperand rfl
  | block _ _ ih | loop _ _ ih | present _ ih => exact ih
  | branch _ cond _ _ _ second third => simp [Code.hasOperands, cond.isOperand rfl, second, third]
  | cons _ _ first second => simp [Code.hasOperands, first, second]
  | literal | read | builtin | delete | release | brk | cont | hole | nil | absent => rfl

end Arena.Shows

end ValueFlow
