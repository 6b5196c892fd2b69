import ValueFlow.Variable

/-!
# The procedural language

Literals, expressions and statements of a function or module body. Nodes name their children by
id, so that a rewrite can put another node in a child's place. The `version` fields are notes of
the analysis: the version that a write produced or that a read saw.

The `with…` functions exchange the children or the note of one kind of node and leave every other
kind as it is; a rewrite built from them cannot turn a node into one of another kind.
-/

namespace ValueFlow
set_option autoImplicit false

/-- The position of a node in its arena. -/
abbrev NodeId := Nat

/-- A value known before the program runs. -/
inductive Literal where
  | none
  | ellipsis
  | bool (value : Bool)
  | int (value : Int)
  | str (value : String)
deriving DecidableEq, Repr

/-- The truth value a condition takes from a literal: absence, zero and the empty text are false. -/
def Literal.isTruthy : Literal → Bool
  | .none => false
  | .ellipsis => true
  | .bool value => value
  | .int value => value != 0
  | .str value => value != ""

/-- Expressions. -/
inductive Expr where
  /-- A literal. -/
  | literal (value : Literal)
  /-- A read of a variable. -/
  | read (var : VarId) (version : Option Version)
  /-- A built-in name. -/
  | builtin (name : String)
  /-- A call, which may run any code. -/
  | call (callee : NodeId) (args : List NodeId)
  /-- The evaluation of source text, which may touch any variable by name. -/
  | eval (source : NodeId)
deriving DecidableEq, Repr

/-- Statements. -/
inductive Stmt where
  /-- Statements run in order. -/
  | block (stmts : List NodeId)
  /-- Binds a variable to a value. -/
  | assign (target : VarId) (value : NodeId) (version : Option Version)
  /-- Unbinds a variable; only a tolerant delete accepts one that is unbound already. -/
  | delete (target : VarId) (tolerant : Bool) (version : Option Version)
  /-- Marks the end of a variable's use. -/
  | release (target : VarId)
  /-- Evaluates an expression for its effects. -/
  | effect (expr : NodeId)
  /-- Runs one of two arms, either of which may be absent. -/
  | branch (cond : NodeId) (yes no : Option NodeId)
  /-- Repeats its body until something leaves it. -/
  | loop (body : Option NodeId)
  /-- Leaves the innermost loop. -/
  | brk
  /-- Starts the next round of the innermost loop. -/
  | cont
  /-- Leaves the function. -/
  | ret (value : Option NodeId)
deriving DecidableEq, Repr

/-- A node of an arena. -/
inductive Node where
  | stmt (stmt : Stmt)
  | expr (expr : Expr)
deriving DecidableEq, Repr

namespace Stmt

/-- The statements directly below a statement, in the order in which they stand. -/
def children : Stmt → List NodeId
  | .block stmts => stmts
  | .branch _ yes no => yes.toList ++ no.toList
  | .loop body => body.toList
  | _ => []

/-- The variable that a statement writes by itself. -/
def target? : Stmt → Option VarId
  | .assign target _ _ => some target
  | .delete target _ _ => some target
  | _ => none

/-- Exchanges the statements of a block. -/
def withStmts (stmts : List NodeId) : Stmt → Stmt
  | .block _ => .block stmts
  | stmt => stmt

/-- Exchanges the value of an assignment and notes the version it produced. -/
def withBound (value : NodeId) (version : Version) : Stmt → Stmt
  | .assign target _ _ => .assign target value (some version)
  | stmt => stmt

/-- Notes the version that a delete produced. -/
def withDeleted (version : Option Version) : Stmt → Stmt
  | .delete target tolerant _ => .delete target tolerant version
  | stmt => stmt

/-- Exchanges the expression of an expression statement. -/
def withEffect (expr : NodeId) : Stmt → Stmt
  | .effect _ => .effect expr
  | stmt => stmt

/-- Exchanges the condition and the arms of a branch. -/
def withArms (cond : NodeId) (yes no : Option NodeId) : Stmt → Stmt
  | .branch _ _ _ => .branch cond yes no
  | stmt => stmt

/-- Exchanges the body of a loop. -/
def withBody (body : Option NodeId) : Stmt → Stmt
  | .loop _ => .loop body
  | stmt => stmt

/-- Exchanges the value of a return. -/
def withResult (value : NodeId) : Stmt → Stmt
  | .ret _ => .ret (some value)
  | stmt => stmt

end Stmt

namespace Expr

/-- Notes the version that a read saw. -/
def withSeen (version : Version) : Expr → Expr
  | .read var _ => .read var (some version)
  | expr => expr

/-- Exchanges the callee and the arguments of a call. -/
def withCall (callee : NodeId) (args : List NodeId) : Expr → Expr
  | .call _ _ => .call callee args
  | expr => expr

/-- Exchanges the source of an evaluation. -/
def withSource (source : NodeId) : Expr → Expr
  | .eval _ => .eval source
  | expr => expr

end Expr

end ValueFlow
