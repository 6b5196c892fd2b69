import ValueFlow.Body

/-!
# Passes

A body is walked again as long as a pass gives notice of an edit, each pass going on with what the
one before left. A pass may start with a state and a top scope of its own (`Renewal.fresh`), or go
on in those of the pass before (`Renewal.reused`). In both cases the arena and the version counters
are carried on. A pass that fails, that leaves nothing of the body, or that gives no notice is the
last one.
-/

namespace ValueFlow
set_option autoImplicit false

/-- What a pass starts with. -/
inductive Renewal where
  /-- A new state and a new top scope over the same variables. -/
  | fresh
  /-- The state and the top scope that the pass before left. -/
  | reused
deriving DecidableEq, Repr

/-- What a pass answered, and how it left the arena, the scope and the state. -/
structure PassReport where
  answer : Except Fault (Option NodeId)
  after : Walk

namespace PassReport

/-- The notices that the pass gave. -/
def notices (report : PassReport) : Array Notice := report.after.analysis.edits.notices

/-- The body that another pass has to walk, if this one was not the last. -/
def next? (report : PassReport) : Option NodeId :=
  match report.answer with
  | .ok node => if report.notices.isEmpty then none else node
  | .error _ => none

end PassReport

/-- The state of a walk at the start of a pass, with an empty log of edits. -/
def Walk.renew (kind : BodyKind) (walk : Walk) : Renewal → Walk
  | .fresh => { walk with
      toSite := .forBody kind walk.analysis.vars walk.analysis.options }
  | .reused => { walk with analysis := { walk.analysis with edits := .empty } }

/-- Runs one pass. -/
def runPass (kind : BodyKind) (walk : Walk) (body : NodeId) : PassReport :=
  match Walk.walkBody kind body walk with
  | .ok node after => ⟨.ok node, after⟩
  | .error fault after => ⟨.error fault, after⟩

/-- Runs passes until one is the last, but no more than `limit`, and reports each of them. -/
def runPasses (kind : BodyKind) (renewal : Renewal) (limit : Nat) (walk : Walk) (body : NodeId) :
    List PassReport :=
  match limit with
  | 0 => []
  | limit + 1 =>
    let report := runPass kind (walk.renew kind renewal) body
    match report.next? with
    | some body => report :: runPasses kind renewal limit report.after body
    | none => [report]

end ValueFlow
