import ValueFlow.Span

/-!
# Edits and their notices

A rewrite answers with the node that takes the old one's place, and with an edit if it did
something worth another pass. Each edit is signalled once, with the span of the node that was
asked. Passes are repeated while there is anything to signal, so an empty log means that a fixed
point is reached.
-/

namespace ValueFlow
set_option autoImplicit false

/-- The class of an edit. -/
inductive EditTag where
  /-- Statements were removed or replaced. -/
  | statements
  /-- An expression became a literal. -/
  | constant
  /-- An expression was replaced by another one. -/
  | expression
deriving DecidableEq, Repr

/-- The name of a class of edits. -/
def EditTag.text : EditTag → String
  | .statements => "new_statements"
  | .constant => "new_constant"
  | .expression => "new_expression"

/-- What a rewrite did. -/
structure Edit where
  tag : EditTag
  message : String
deriving DecidableEq, Repr

/-- The answer of a rewrite: the node that takes the old one's place, and the edit made. -/
structure Rewritten (α : Type) where
  node : α
  edit : Option Edit
deriving DecidableEq, Repr

/-- A rewrite that has nothing to signal. -/
def Rewritten.unchanged {α : Type} (node : α) : Rewritten α := ⟨node, none⟩

/-- A rewrite that signals an edit. -/
def Rewritten.changed {α : Type} (node : α) (tag : EditTag) (message : String) : Rewritten α :=
  ⟨node, some ⟨tag, message⟩⟩

/-- An edit and the source text it was made in. -/
structure Notice where
  edit : Edit
  span : Span
deriving DecidableEq, Repr

/-- The notices given so far, in order. -/
structure EditLog where
  notices : Array Notice
deriving DecidableEq, Repr

namespace EditLog

/-- The log without notices. -/
def empty : EditLog := ⟨#[]⟩

/-- How many notices were given. -/
def size (log : EditLog) : Nat := log.notices.size

/-- No notice was given. -/
def isEmpty (log : EditLog) : Bool := log.notices.isEmpty

/-- Gives one more notice. -/
def signal (log : EditLog) (edit : Edit) (span : Span) : EditLog :=
  ⟨log.notices.push ⟨edit, span⟩⟩

@[simp] theorem size_signal (log : EditLog) (edit : Edit) (span : Span) :
    (log.signal edit span).size = log.size + 1 := by
  simp [signal, size]

theorem size_le_signal (log : EditLog) (edit : Edit) (span : Span) :
    log.size ≤ (log.signal edit span).size := by
  simp

end EditLog

end ValueFlow
