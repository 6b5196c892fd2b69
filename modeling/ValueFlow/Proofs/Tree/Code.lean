import ValueFlow.Walk.Expression

/-!
# Code as a tree

What stands below a node, as a tree of its own in which every node carries its id. One type holds
expressions, statements and rows of either, so that a proof about all of them is one induction.
`nil` is the end of a row and also stands where an arm, a body or a value is absent.

The functions here are what a walk asks of an arena and does to it, said of trees: whether control
runs past the end, which variables are written, how statements are put into a row, and what is left
of a loop.
-/

namespace ValueFlow
set_option autoImplicit false

/-- A tree of nodes. A `hole` is a node that is not of the class its place demands. -/
inductive Code where
  | literal (id : NodeId) (value : Literal)
  | read (id : NodeId) (var : VarId) (version : Option Version)
  | builtin (id : NodeId) (name : String)
  | call (id : NodeId) (callee args : Code)
  | eval (id : NodeId) (source : Code)
  | block (id : NodeId) (row : Code)
  | assign (id : NodeId) (target : VarId) (value : Code) (version : Option Version)
  | delete (id : NodeId) (target : VarId) (tolerant : Bool) (version : Option Version)
  | release (id : NodeId) (target : VarId)
  | effect (id : NodeId) (expr : Code)
  | branch (id : NodeId) (cond yes no : Code)
  | loop (id : NodeId) (body : Code)
  | brk (id : NodeId)
  | cont (id : NodeId)
  | ret (id : NodeId) (value : Code)
  | hole (id : NodeId)
  | nil
  | cons (head tail : Code)
deriving DecidableEq, Repr

namespace Code

/-- The ids of all nodes of a tree. -/
def ids : Code → List NodeId
  | literal id _ => [id]
  | read id _ _ => [id]
  | builtin id _ => [id]
  | call id callee args => id :: (callee.ids ++ args.ids)
  | eval id source => id :: source.ids
  | block id row => id :: row.ids
  | assign id _ value _ => id :: value.ids
  | delete id _ _ _ => [id]
  | release id _ => [id]
  | effect id expr => id :: expr.ids
  | branch id cond yes no => id :: (cond.ids ++ (yes.ids ++ no.ids))
  | loop id body => id :: body.ids
  | brk id => [id]
  | cont id => [id]
  | ret id value => id :: value.ids
  | hole id => [id]
  | nil => []
  | cons head tail => head.ids ++ tail.ids

/-- The variables that something in the tree writes. -/
def targets : Code → List VarId
  | call _ callee args => callee.targets ++ args.targets
  | eval _ source => source.targets
  | block _ row => row.targets
  | assign _ target value _ => target :: value.targets
  | delete _ target _ _ => [target]
  | effect _ expr => expr.targets
  | branch _ cond yes no => cond.targets ++ (yes.targets ++ no.targets)
  | loop _ body => body.targets
  | ret _ value => value.targets
  | cons head tail => head.targets ++ tail.targets
  | _ => []

/-- The targets of the tolerant deletes. -/
def tolerated : Code → List VarId
  | call _ callee args => callee.tolerated ++ args.tolerated
  | eval _ source => source.tolerated
  | block _ row => row.tolerated
  | assign _ _ value _ => value.tolerated
  | delete _ target true _ => [target]
  | effect _ expr => expr.tolerated
  | branch _ cond yes no => cond.tolerated ++ (yes.tolerated ++ no.tolerated)
  | loop _ body => body.tolerated
  | ret _ value => value.tolerated
  | cons head tail => head.tolerated ++ tail.tolerated
  | _ => []

/-- The nodes that read or write a variable, with the variable, whether a write binds it, and the
version noted at the node. -/
def notes : Code → List (NodeId × VarId × Option Bool × Option Version)
  | read id var version => [(id, var, none, version)]
  | call _ callee args => callee.notes ++ args.notes
  | eval _ source => source.notes
  | block _ row => row.notes
  | assign id target value version => (id, target, some true, version) :: value.notes
  | delete id target _ version => [(id, target, some false, version)]
  | effect _ expr => expr.notes
  | branch _ cond yes no => cond.notes ++ (yes.notes ++ no.notes)
  | loop _ body => body.notes
  | ret _ value => value.notes
  | cons head tail => head.notes ++ tail.notes
  | _ => []

/-- The nodes that write a variable, in the order in which they stand, with the variable and whether
the node binds it. -/
def writes : Code → List (NodeId × VarId × Bool)
  | call _ callee args => callee.writes ++ args.writes
  | eval _ source => source.writes
  | block _ row => row.writes
  | assign id target value _ => value.writes ++ [(id, target, true)]
  | delete id target _ _ => [(id, target, false)]
  | effect _ expr => expr.writes
  | branch _ cond yes no => cond.writes ++ (yes.writes ++ no.writes)
  | loop _ body => body.writes
  | ret _ value => value.writes
  | cons head tail => head.writes ++ tail.writes
  | _ => []

/-- The loops in the tree with their bodies. -/
def loops : Code → List (NodeId × Code)
  | call _ callee args => callee.loops ++ args.loops
  | eval _ source => source.loops
  | block _ row => row.loops
  | assign _ _ value _ => value.loops
  | effect _ expr => expr.loops
  | branch _ cond yes no => cond.loops ++ (yes.loops ++ no.loops)
  | loop id body => (id, body) :: body.loops
  | ret _ value => value.loops
  | cons head tail => head.loops ++ tail.loops
  | _ => []

/-- A break in the tree may leave the loop around it. -/
def mayBreak : Code → Bool
  | block _ row => row.mayBreak
  | branch _ _ yes no => yes.mayBreak || no.mayBreak
  | brk _ => true
  | cons head tail => head.mayBreak || tail.mayBreak
  | _ => false

/-- The exits of a kind by which control may leave the tree. A loop absorbs the breaks and the
continues in it. -/
def exitNodes (kind : ExitKind) : Code → List NodeId
  | block _ row => row.exitNodes kind
  | branch _ _ yes no => yes.exitNodes kind ++ no.exitNodes kind
  | loop _ body => if kind = .ret then body.exitNodes kind else []
  | brk id => if kind = .brk then [id] else []
  | cont id => if kind = .cont then [id] else []
  | ret id _ => if kind = .ret then [id] else []
  | cons head tail => head.exitNodes kind ++ tail.exitNodes kind
  | _ => []

/-- Control never runs past the end. -/
def aborts : Code → Bool
  | block _ row => row.aborts
  | branch _ _ yes no => yes.aborts && no.aborts
  | loop _ body => !body.mayBreak
  | brk _ => true
  | cont _ => true
  | ret _ _ => true
  | cons head tail => head.aborts || tail.aborts
  | _ => false

/-- The value of a literal. -/
def literal? : Code → Option Literal
  | literal _ value => some value
  | _ => none

/-- The value of a literal, or of a built-in name that always has the same value. -/
def constant? (options : Options) : Code → Option Literal
  | literal _ value => some value
  | builtin _ name => builtinValue? options name
  | _ => none

/-- What a block has in it. Anything else stands for itself. -/
def contents : Code → Code
  | block _ row => row
  | code => code

/-- It is one node, and no block. -/
def standsAlone : Code → Bool
  | block _ _ => false
  | nil => false
  | cons _ _ => false
  | _ => true

/-- It is a row, which may be empty. -/
def isRow : Code → Bool
  | nil => true
  | cons _ tail => tail.isRow
  | _ => false

/-- A row, or something that stands alone, in front of another row. -/
def append : Code → Code → Code
  | nil, rest => rest
  | cons head tail, rest => cons head (tail.append rest)
  | code, rest => cons code rest

/-- A block around a row, and nothing around an empty one. -/
def wrap (id : NodeId) : Code → Code
  | nil => nil
  | row => block id row

/-- The statement of a node that ends a round of a loop, a break or a continue. -/
def roundEnd? : Code → Option Stmt
  | brk _ => some .brk
  | cont _ => some .cont
  | _ => none

/-- The row in front of a continue that is its last statement. -/
def withoutCont? : Code → Option Code
  | cons (cont _) nil => some nil
  | cons head tail => tail.withoutCont?.map (cons head)
  | _ => none

/-- The body of a loop without a continue at its end. -/
def trim : Code → Code
  | block id row =>
    match row.withoutCont? with
    | some kept => wrap id kept
    | none => block id row
  | code => code

/-- A block with a single break in it. -/
def isLoneBreak : Code → Bool
  | block _ (cons (brk _) nil) => true
  | _ => false

/-- The body of a loop that is left as it is: a block that does not end with a continue, nor is a
single break. -/
def circles : Code → Bool
  | block id row => row.withoutCont?.isNone && !(block id row).isLoneBreak
  | _ => false

/-- A conditional, or its condition alone if it has no arm. The latter is a node of its own. -/
def choice (id added : NodeId) (cond : Code) : Code → Code → Code
  | nil, nil => effect added cond
  | yes, no => branch id cond yes no

/-- A loop, and nothing if its body is left at once. -/
def cycle (id : NodeId) (body : Code) : Code := if body.isLoneBreak then nil else loop id body

/-- Running the tree reads, writes and calls nothing, and never breaks a loop. -/
def isStill (options : Options) : Code → Bool
  | literal _ _ => true
  | builtin _ name => (builtinValue? options name).isNone
  | release _ _ => true
  | cont _ => true
  | loop _ nil => true
  | nil => true
  | _ => false

section Rows

variable (code rest : Code)

@[simp] theorem append_nil_left : nil.append rest = rest := rfl

@[simp] theorem append_cons (head tail : Code) :
    (cons head tail).append rest = cons head (tail.append rest) :=
  rfl

/-- What is neither a row nor absent becomes the head of a row. -/
theorem append_of_single (notNil : code ≠ nil) (notCons : ∀ head tail, code ≠ cons head tail) :
    code.append rest = cons code rest := by
  cases code with
  | nil => exact absurd rfl notNil
  | cons head tail => exact absurd rfl (notCons head tail)
  | _ => rfl

theorem append_of_standsAlone {code : Code} (alone : code.standsAlone = true) :
    code.append rest = cons code rest := by
  cases code <;> first | rfl | cases alone

theorem contents_of_standsAlone {code : Code} (alone : code.standsAlone = true) :
    code.contents = code := by
  cases code <;> first | rfl | cases alone

@[simp] theorem append_eq_nil : code.append rest = nil ↔ code = nil ∧ rest = nil := by
  cases code <;> simp [append]

theorem append_assoc (last : Code) :
    (code.append rest).append last = code.append (rest.append last) := by
  induction code with
  | cons head tail _ ih => simp [ih]
  | _ => rfl

theorem ids_append : (code.append rest).ids = code.ids ++ rest.ids := by
  induction code with
  | cons head tail _ ih => simp [ids, ih]
  | _ => simp [append, ids]

theorem notes_append : (code.append rest).notes = code.notes ++ rest.notes := by
  induction code with
  | cons head tail _ ih => simp [notes, ih]
  | _ => simp [append, notes]

theorem exitNodes_append (kind : ExitKind) :
    (code.append rest).exitNodes kind = code.exitNodes kind ++ rest.exitNodes kind := by
  induction code with
  | cons head tail _ ih => simp [exitNodes, ih]
  | _ => simp [append, exitNodes]

theorem mayBreak_append : (code.append rest).mayBreak = (code.mayBreak || rest.mayBreak) := by
  induction code with
  | cons head tail _ ih => simp [mayBreak, ih, Bool.or_assoc]
  | _ => simp [append, mayBreak]

theorem aborts_append : (code.append rest).aborts = (code.aborts || rest.aborts) := by
  induction code with
  | cons head tail _ ih => simp [aborts, ih, Bool.or_assoc]
  | _ => simp [append, aborts]

@[simp] theorem notes_contents : code.contents.notes = code.notes := by cases code <;> rfl

@[simp] theorem exitNodes_contents (kind : ExitKind) :
    code.contents.exitNodes kind = code.exitNodes kind := by
  cases code <;> rfl

@[simp] theorem mayBreak_contents : code.contents.mayBreak = code.mayBreak := by cases code <;> rfl

@[simp] theorem aborts_contents : code.contents.aborts = code.aborts := by cases code <;> rfl

theorem ids_contents_sublist : code.contents.ids.Sublist code.ids := by
  cases code with
  | block id row => exact List.sublist_cons_self id row.ids
  | _ => exact .refl _

end Rows

section Blocks

variable (id : NodeId) (row : Code)

@[simp] theorem notes_wrap : (wrap id row).notes = row.notes := by cases row <;> rfl

@[simp] theorem exitNodes_wrap (kind : ExitKind) :
    (wrap id row).exitNodes kind = row.exitNodes kind := by
  cases row <;> rfl

@[simp] theorem mayBreak_wrap : (wrap id row).mayBreak = row.mayBreak := by cases row <;> rfl

@[simp] theorem aborts_wrap : (wrap id row).aborts = row.aborts := by cases row <;> rfl

end Blocks

theorem withoutCont?_cons_cons (first second rest : Code) :
    (cons first (cons second rest)).withoutCont? = (cons second rest).withoutCont?.map
      (cons first) := by
  cases first <;> rfl

theorem withoutCont?_single {code : Code} (goesOn : code.roundEnd? ≠ some .cont) :
    (cons code nil).withoutCont? = none := by
  cases code with
  | cont => exact absurd rfl goesOn
  | _ => rfl

theorem isLoneBreak_single (id : NodeId) (code : Code) :
    (block id (cons code nil)).isLoneBreak = (code.roundEnd? == some .brk) := by
  cases code <;> rfl

/-- A row that ends with a continue is the row without it, with a continue behind. -/
theorem eq_append_of_withoutCont? {row kept : Code} (ends : row.withoutCont? = some kept) :
    ∃ id, row = kept.append (cons (cont id) nil) ∧ kept.ids.Sublist row.ids := by
  induction row generalizing kept with
  | cons head tail _ ih =>
    unfold withoutCont? at ends
    split at ends
    · rename_i id same
      obtain ⟨rfl, rfl⟩ := Code.cons.inj same
      obtain rfl := Option.some.inj ends
      exact ⟨id, rfl, List.nil_sublist _⟩
    · rename_i same
      obtain ⟨rfl, rfl⟩ := Code.cons.inj same
      obtain ⟨rest, found, rfl⟩ := Option.map_eq_some_iff.1 ends
      obtain ⟨id, whole, sub⟩ := ih found
      exact ⟨id, congrArg (cons _) whole, sub.append_left _⟩
    · cases ends
  | _ => cases ends

section Loops

variable (code : Code)

/-- A body is trimmed only if it is a block with a continue at its end. -/
theorem trim_cases : code.trim = code ∨
    ∃ id row kept, code = block id row ∧ row.withoutCont? = some kept ∧
      code.trim = wrap id kept := by
  cases code with
  | block id row =>
    cases ends : row.withoutCont? with
    | none => exact .inl (by simp [trim, ends])
    | some kept => exact .inr ⟨id, row, kept, rfl, ends, by simp [trim, ends]⟩
  | _ => exact .inl rfl

theorem notes_trim : code.trim.notes = code.notes := by
  rcases code.trim_cases with same | ⟨id, row, kept, rfl, ends, same⟩
  · rw [same]
  · obtain ⟨_, whole, _⟩ := eq_append_of_withoutCont? ends
    rw [same, notes_wrap]
    simp [whole, notes, notes_append]

/-- The continue that a body loses is its only loss. -/
theorem exitNodes_trim {kind : ExitKind} (stays : kind ≠ .cont) :
    code.trim.exitNodes kind = code.exitNodes kind := by
  rcases code.trim_cases with same | ⟨id, row, kept, rfl, ends, same⟩
  · rw [same]
  · obtain ⟨_, whole, _⟩ := eq_append_of_withoutCont? ends
    rw [same, exitNodes_wrap]
    simp [whole, exitNodes, exitNodes_append, stays]

theorem mayBreak_trim : code.trim.mayBreak = code.mayBreak := by
  rcases code.trim_cases with same | ⟨id, row, kept, rfl, ends, same⟩
  · rw [same]
  · obtain ⟨_, whole, _⟩ := eq_append_of_withoutCont? ends
    rw [same, mayBreak_wrap]
    simp [whole, mayBreak, mayBreak_append]

end Loops

section Compounds

variable (id added : NodeId) (cond yes no body : Code)

theorem choice_cases : (choice id added cond yes no = effect added cond ∧ yes = nil ∧ no = nil) ∨
    choice id added cond yes no = branch id cond yes no := by
  unfold choice
  split
  · exact .inl ⟨rfl, rfl, rfl⟩
  · exact .inr rfl

theorem notes_choice :
    (choice id added cond yes no).notes = cond.notes ++ (yes.notes ++ no.notes) := by
  rcases choice_cases id added cond yes no with ⟨same, rfl, rfl⟩ | same
  · simp [same, notes]
  · rw [same, notes]

theorem mayBreak_choice :
    (choice id added cond yes no).mayBreak = (yes.mayBreak || no.mayBreak) := by
  rcases choice_cases id added cond yes no with ⟨same, rfl, rfl⟩ | same
  · rw [same]
    rfl
  · rw [same, mayBreak]

theorem aborts_choice : (choice id added cond yes no).aborts = (yes.aborts && no.aborts) := by
  rcases choice_cases id added cond yes no with ⟨same, rfl, rfl⟩ | same
  · rw [same]
    rfl
  · rw [same, aborts]

theorem cycle_cases :
    (cycle id body = nil ∧ body.notes = [] ∧ body.mayBreak = true) ∨
      cycle id body = loop id body := by
  unfold cycle
  split
  · rename_i lone
    unfold isLoneBreak at lone
    split at lone
    · exact .inl ⟨rfl, rfl, rfl⟩
    · cases lone
  · exact .inr rfl

theorem notes_cycle : (cycle id body).notes = body.notes := by
  rcases cycle_cases id body with ⟨same, none, -⟩ | same
  · rw [same, none]
    rfl
  · rw [same, notes]

theorem exitNodes_cycle (kind : ExitKind) :
    (cycle id body).exitNodes kind = if kind = .ret then body.exitNodes kind else [] := by
  unfold cycle
  split
  · rename_i lone
    unfold isLoneBreak at lone
    split at lone
    · cases kind <;> rfl
    · cases lone
  · rfl

theorem aborts_cycle : (cycle id body).aborts = !body.mayBreak := by
  rcases cycle_cases id body with ⟨same, -, breaks⟩ | same
  · rw [same, breaks]
    rfl
  · rw [same, aborts]

end Compounds

theorem exitNodes_brk_eq_nil (code : Code) : code.exitNodes .brk = [] ↔ code.mayBreak = false := by
  induction code with
  | cons _ _ first second => simp [mayBreak, exitNodes, first, second]
  | branch _ _ _ _ _ second third => simp [mayBreak, exitNodes, second, third]
  | block _ _ ih => exact ih
  | _ => simp [mayBreak, exitNodes]

/-- What a node writes is a target. -/
theorem mem_targets_of_writes {code : Code} {node : NodeId} {var : VarId} {binds : Bool}
    (mem : (node, var, binds) ∈ code.writes) :
    var ∈ code.targets := by
  induction code with
  | call _ _ _ first second | cons _ _ first second =>
    exact List.mem_append.2 ((List.mem_append.1 mem).imp first second)
  | branch _ _ _ _ first second third =>
    refine List.mem_append.2 ((List.mem_append.1 mem).imp first fun mem => ?_)
    exact List.mem_append.2 ((List.mem_append.1 mem).imp second third)
  | eval _ _ ih | block _ _ ih | effect _ _ ih | loop _ _ ih | ret _ _ ih => exact ih mem
  | assign _ _ _ _ ih =>
    rcases List.mem_append.1 mem with mem | mem
    · exact List.mem_cons_of_mem _ (ih mem)
    · simp_all [targets]
  | delete => simp_all [writes, targets]
  | _ => cases mem

/-- What has a note is a node of the tree. -/
theorem mem_ids_of_notes {code : Code} {entry : NodeId × VarId × Option Bool × Option Version}
    (mem : entry ∈ code.notes) :
    entry.1 ∈ code.ids := by
  induction code with
  | cons _ _ first second => exact List.mem_append.2 ((List.mem_append.1 mem).imp first second)
  | call _ _ _ first second =>
    exact List.mem_cons_of_mem _ (List.mem_append.2 ((List.mem_append.1 mem).imp first second))
  | branch _ _ _ _ first second third =>
    refine List.mem_cons_of_mem _
      (List.mem_append.2 ((List.mem_append.1 mem).imp first fun mem => ?_))
    exact List.mem_append.2 ((List.mem_append.1 mem).imp second third)
  | eval _ _ ih | block _ _ ih | effect _ _ ih | loop _ _ ih | ret _ _ ih =>
    exact List.mem_cons_of_mem _ (ih mem)
  | assign _ _ _ _ ih =>
    rcases List.mem_cons.1 mem with rfl | mem
    · exact List.mem_cons_self
    · exact List.mem_cons_of_mem _ (ih mem)
  | read | delete =>
    rw [List.mem_singleton.1 mem]
    exact List.mem_cons_self
  | _ => cases mem

theorem notes_of_literal {code : Code} (known : code.literal?.isSome = true) : code.notes = [] := by
  cases code with
  | literal => rfl
  | _ => cases known

theorem notes_of_still {options : Options} {code : Code} (still : code.isStill options = true) :
    code.notes = [] := by
  unfold isStill at still
  split at still <;> first | rfl | cases still

end Code

end ValueFlow
