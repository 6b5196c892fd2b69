import ValueFlow.Proofs.Silence.Sketch
import ValueFlow.Proofs.Tree.Shows

/-!
# Silent walks, told of the tree

A walk gives notice of all that it does to a tree but for two things: it notes versions, and it puts
the statements of a block that stands in a row into the row. So what a silent walk leaves of a tree
is the tree spliced (`Code.flat`), up to the versions (`Code.bare`).

Whether a walk is silent can be told from the tree and the sketch of the site at which it starts,
along with the sketch at which it ends (`Code.silent`). The versions in the tree have no part in
this, and splicing does not make a silent walk a loud one (`Code.silent_flat`).
-/

namespace ValueFlow
set_option autoImplicit false

/-- Looks at the variable that is read where an unbound local is named, if there is one. -/
def Sketch.lookBehind (sketch : Sketch) (var : VarId) : Option Sketch :=
  match (sketch.slots var).bind (·.storage.fallback?) with
  | some other => sketch.look other
  | none => some sketch

namespace Code

/-- The tree with the statements of its blocks in place of those blocks that stand in a row. -/
def flat : Code → Code
  | call id callee args => call id callee.flat args.flat
  | eval id source => eval id source.flat
  | block id row => block id row.flat
  | assign id target value version => assign id target value.flat version
  | effect id expr => effect id expr.flat
  | branch id cond yes no => branch id cond.flat yes.flat no.flat
  | loop id body => loop id body.flat
  | ret id value => ret id value.flat
  | cons head tail => head.flat.contents.append tail.flat
  | code => code

/-- The tree without the versions that are noted in it. -/
def bare : Code → Code
  | read id var _ => read id var none
  | call id callee args => call id callee.bare args.bare
  | eval id source => eval id source.bare
  | block id row => block id row.bare
  | assign id target value _ => assign id target value.bare none
  | delete id target tolerant _ => delete id target tolerant none
  | effect id expr => effect id expr.bare
  | branch id cond yes no => branch id cond.bare yes.bare no.bare
  | loop id body => loop id body.bare
  | ret id value => ret id value.bare
  | cons head tail => cons head.bare tail.bare
  | code => code

/-- No block stands in a row. -/
def isFlat : Code → Bool
  | call _ callee args => callee.isFlat && args.isFlat
  | eval _ source => source.isFlat
  | block _ row => row.isFlat
  | assign _ _ value _ => value.isFlat
  | effect _ expr => expr.isFlat
  | branch _ cond yes no => cond.isFlat && (yes.isFlat && no.isFlat)
  | loop _ body => body.isFlat
  | ret _ value => value.isFlat
  | cons head tail => head.standsAlone && (head.isFlat && tail.isFlat)
  | _ => true

/-- How an arm of a conditional reaches the join. -/
def arm (code : Code) (last : Sketch) : Sketch.Arm :=
  if code = nil then .absent else if code.aborts then .aborting else .reached last.scope

/-- Where the walk of a tree leads from a sketch, if it is silent. -/
def silent : Code → Sketch → Option Sketch
  | literal _ _, here => some here
  | read _ var _, here => (here.look var).bind fun seen => (seen.look var).bind (·.lookBehind var)
  | builtin _ name, here => if (builtinValue? here.options name).isNone then some here else none
  | call _ callee args, here => (callee.silent here).bind fun middle => (args.silent middle).bind fun last => some last.escape
  | eval _ source, here => (source.silent here).bind fun last => some last.escape
  | block _ row, here => (row.silent here).bind fun last => if row.flat = nil then none else some last
  | assign _ target value _, here => (value.silent here).bind (·.write target false)
  | delete _ target tolerant _, here => (here.write target true).bind fun last =>
      if tolerant = true ∧ here.stands target = some true then none else some last
  | release _ target, here => here.look target
  | effect _ expr, here => (expr.silent here).bind fun last => if expr.literal?.isSome then none else some last
  | branch _ cond yes no, here => (cond.silent here).bind fun middle =>
      if cond.literal?.isSome then none
      else (yes.silent middle).bind fun yesLast => (no.silent (middle.beside yesLast)).bind fun noLast =>
        if yes = nil ∧ no = nil then none else some ((middle.beside noLast).joinBehind (yes.arm yesLast) (no.arm noLast))
  | loop _ body, here =>
      if body = nil then some here
      else ((here.inside .byLoop).forget body.targets).bind fun head => (body.silent head).bind fun foot =>
        if body.flat.circles then some ((here.beside (here.leave .byLoop foot)).join ((foot.exits .brk).getD [])) else none
  | brk _, here => here.exit .brk
  | cont _, here => here.exit .cont
  | ret _ value, here => (value.silent here).bind (·.exit .ret)
  | hole _, _ => none
  | nil, here => some here
  | cons head tail, here => (head.silent here).bind fun middle =>
      if head.aborts then (if tail = nil then some middle else none) else tail.silent middle

/-- What the walk of an expression does to the sketch before it counts the read that the expression
may be. -/
def seen : Code → Sketch → Option Sketch
  | read _ var _, here => here.look var
  | code, here => code.silent here

/-- What counting the read does, if the expression is one. -/
def counted : Code → Sketch → Option Sketch
  | read _ var _, here => (here.look var).bind (·.lookBehind var)
  | _, here => some here

theorem silent_eq_seen (code : Code) (here : Sketch) :
    code.silent here = (code.seen here).bind code.counted := by
  cases code with
  | read => rfl
  | _ => exact (Option.bind_fun_some _).symm

section Bare

-- The equations are derived here, once for all that follows.
attribute [local simp] bare flat isFlat

variable (code rest : Code)

@[simp] theorem bare_eq_nil : code.bare = nil ↔ code = nil := by cases code <;> simp

@[simp] theorem ids_bare : code.bare.ids = code.ids := by
  induction code <;> simp only [bare, ids, *]

@[simp] theorem targets_bare : code.bare.targets = code.targets := by
  induction code <;> simp only [bare, targets, *]

@[simp] theorem mayBreak_bare : code.bare.mayBreak = code.mayBreak := by
  induction code <;> simp only [bare, mayBreak, *]

@[simp] theorem aborts_bare : code.bare.aborts = code.aborts := by
  induction code <;> simp only [bare, aborts, mayBreak_bare, *]

@[simp] theorem literal?_bare : code.bare.literal? = code.literal? := by cases code <;> rfl

@[simp] theorem standsAlone_bare : code.bare.standsAlone = code.standsAlone := by cases code <;> rfl

@[simp] theorem isFlat_bare : code.bare.isFlat = code.isFlat := by
  induction code <;> simp only [bare, isFlat, standsAlone_bare, *]

theorem contents_bare : code.bare.contents = code.contents.bare := by cases code <;> rfl

theorem append_bare : code.bare.append rest.bare = (code.append rest).bare := by
  induction code with
  | cons head tail _ ih => exact congrArg (cons head.bare) ih
  | _ => rfl

theorem flat_bare : code.bare.flat = code.flat.bare := by
  induction code with
  | cons head tail first second => simp only [bare, flat, first, second, contents_bare, append_bare]
  | _ => simp only [bare, flat, *]

theorem withoutCont?_bare : code.bare.withoutCont? = code.withoutCont?.map bare := by
  induction code with
  | cons head tail _ ih =>
    cases tail with
    | cons second others =>
      have later := withoutCont?_cons_cons head.bare second.bare others.bare
      rw [withoutCont?_cons_cons, show (cons head (cons second others)).bare =
        cons head.bare (cons second.bare others.bare) from rfl, later,
        show cons second.bare others.bare = (cons second others).bare from rfl, ih,
        Option.map_map, Option.map_map]
      rfl
    | _ => cases head <;> rfl
  | _ => rfl

theorem isLoneBreak_bare : code.bare.isLoneBreak = code.isLoneBreak := by
  cases code with
  | block id row =>
    cases row with
    | cons head tail => cases head <;> cases tail <;> rfl
    | _ => rfl
  | _ => rfl

theorem circles_bare : code.bare.circles = code.circles := by
  cases code with
  | block id row =>
    have ends := withoutCont?_bare row
    have lone := isLoneBreak_bare (block id row)
    simp only [bare] at lone
    simp [circles, ends, lone]
  | _ => rfl

theorem arm_bare (last : Sketch) : code.bare.arm last = code.arm last := by simp [arm]

theorem counted_bare (here : Sketch) : code.bare.counted here = code.counted here := by
  cases code <;> rfl

/-- The versions that are noted have no part in the walk. -/
theorem silent_bare (here : Sketch) : code.bare.silent here = code.silent here := by
  induction code generalizing here with
  | block id row ih => simp only [bare, silent, ih, flat_bare, bare_eq_nil]
  | loop id body ih =>
    simp only [bare, silent, ih, flat_bare, circles_bare, bare_eq_nil, targets_bare]
  | branch id cond yes no first second third =>
    simp only [bare, silent, first, second, third, arm_bare, bare_eq_nil, literal?_bare]
  | cons head tail first second => simp only [bare, silent, first, second, aborts_bare, bare_eq_nil]
  | _ => simp only [bare, silent, literal?_bare, *]

/-- Trees that differ in versions only have the same silent walks. -/
theorem silent_congr {other : Code} (same : other.bare = code.bare) :
    other.silent = code.silent := by
  funext here
  rw [← silent_bare, same, silent_bare]

end Bare

section Flat

variable (code rest : Code)

theorem targets_append : (code.append rest).targets = code.targets ++ rest.targets := by
  induction code with
  | cons head tail _ ih => simp [targets, ih]
  | _ => simp [append, targets]

@[simp] theorem targets_contents : code.contents.targets = code.targets := by cases code <;> rfl

@[simp] theorem targets_flat : code.flat.targets = code.targets := by
  induction code <;> simp only [flat, targets, targets_append, targets_contents, *]

@[simp] theorem mayBreak_flat : code.flat.mayBreak = code.mayBreak := by
  induction code <;> simp only [flat, mayBreak, mayBreak_append, mayBreak_contents, *]

@[simp] theorem aborts_flat : code.flat.aborts = code.aborts := by
  induction code <;> simp only [flat, aborts, aborts_append, aborts_contents, mayBreak_flat, *]

theorem ids_flat_sublist : code.flat.ids.Sublist code.ids := by
  induction code with
  | cons head tail first second =>
    rw [flat, ids_append]
    exact ((ids_contents_sublist _).trans first).append second
  | call id callee args first second => exact (first.append second).cons_cons id
  | branch id cond yes no first second third =>
    exact (first.append (second.append third)).cons_cons id
  | block id _ ih | assign id _ _ _ ih | effect id _ ih | loop id _ ih | ret id _ ih
  | eval id _ ih => exact ih.cons_cons id
  | _ => exact .refl _

/-- There is nothing to splice in a tree that is flat. -/
theorem flat_of_isFlat {code : Code} (isFlat : code.isFlat = true) : code.flat = code := by
  induction code with
  | cons head tail first second =>
    simp only [Code.isFlat, Bool.and_eq_true] at isFlat
    rw [flat, first isFlat.2.1, second isFlat.2.2, contents_of_standsAlone isFlat.1,
      append_of_standsAlone _ isFlat.1]
  | _ => simp_all [flat, Code.isFlat]

theorem isRow_append {row : Code} (isRow : row.isRow = true) (second : rest.isRow = true) :
    (row.append rest).isRow = true := by
  induction row with
  | nil => exact second
  | cons head tail _ ih => exact ih isRow
  | _ => cases isRow

/-- A flat row is flat in front of another one. -/
theorem isFlat_append {row : Code} (isRow : row.isRow = true) (first : row.isFlat = true)
    (second : rest.isFlat = true) :
    (row.append rest).isFlat = true := by
  induction row with
  | nil => exact second
  | cons head tail _ ih =>
    simp only [isFlat, Bool.and_eq_true] at first
    simp only [append_cons, isFlat, Bool.and_eq_true]
    exact ⟨first.1, first.2.1, ih isRow first.2.2⟩
  | _ => cases isRow

theorem isFlat_contents : code.contents.isFlat = code.isFlat := by cases code <;> rfl

/-- Behind a part of a row the walk goes on, unless the part is never left. -/
theorem silent_append (here : Sketch) :
    (code.append rest).silent here = (code.silent here).bind fun middle =>
    if code.aborts then (if rest = nil then some middle else none) else rest.silent middle := by
  induction code generalizing here with
  | cons head tail _ ih =>
    simp only [append_cons, silent, aborts, append_eq_nil, ih, Option.bind_assoc]
    refine congrArg (Option.bind _) (funext fun middle => ?_)
    by_cases stops : head.aborts = true
    · by_cases last : tail = nil <;> simp [stops, last]
    · simp [stops]
  | nil => rfl
  | _ => rfl

/-- The statements of a block are as silent as the block. -/
theorem silent_contents {here last : Sketch} (silent : code.silent here = some last) :
    code.contents.silent here = some last := by
  cases code with
  | block id row =>
    obtain ⟨middle, walked, ends⟩ := Option.bind_eq_some_iff.1 silent
    split at ends
    · cases ends
    · rw [← ends]
      exact walked
  | _ => exact silent

end Flat

end Code

/-- What stands at a place is a row where a row is demanded, and elsewhere one node. -/
def Place.Forms : Place → Code → Prop
  | .row _ _, code => code.isRow = true
  | _, code => code.contents.isRow = true ∨ code.standsAlone = true

namespace Arena.Shows

variable {arena : Arena} {place : Place} {class_ : NodeClass} {id : NodeId} {node : Option NodeId}
  {code : Code}

/-- A tree that was spliced is flat. -/
theorem flat_forms (shows_ : arena.Shows place code) :
    place.Forms code.flat ∧ code.flat.isFlat = true := by
  induction shows_ with
  | literal | read | builtin | delete | release | brk | cont | hole => exact ⟨.inr rfl, rfl⟩
  | call _ _ _ first second => exact ⟨.inr rfl, by simp [Code.flat, Code.isFlat, first.2, second.2]⟩
  | branch _ _ _ _ first second third =>
    exact ⟨.inr rfl, by simp [Code.flat, Code.isFlat, first.2, second.2, third.2]⟩
  | eval _ _ ih | assign _ _ ih | effect _ _ ih | loop _ _ ih | ret _ _ ih => exact ⟨.inr rfl, ih.2⟩
  | block _ _ ih => exact ⟨.inl ih.1, ih.2⟩
  | nil => exact ⟨rfl, rfl⟩
  | absent => exact ⟨.inl rfl, rfl⟩
  | present _ ih => exact ih
  | cons _ _ first second =>
    obtain ⟨form, flat⟩ := first
    rw [← Code.isFlat_contents] at flat
    rcases form with row | alone
    · exact ⟨Code.isRow_append _ row second.1, Code.isFlat_append _ row flat second.2⟩
    · rw [Code.contents_of_standsAlone alone] at flat
      rw [Code.flat, Code.contents_of_standsAlone alone, Code.append_of_standsAlone _ alone]
      exact ⟨second.1, by simp [Code.isFlat, alone, flat, second.2]⟩

theorem flat_flat (shows_ : arena.Shows place code) : code.flat.flat = code.flat :=
  Code.flat_of_isFlat shows_.flat_forms.2

/-- Only what is absent is nothing when it is spliced. -/
theorem flat_eq_nil (shows_ : arena.Shows (.maybe class_ node) code) :
    code.flat = .nil ↔ code = .nil := by
  cases shows_ with
  | absent => simp [Code.flat]
  | present here => cases here <;> simp [Code.flat]

theorem literal?_flat (shows_ : arena.Shows (.one .expr id) code) :
    code.flat.literal? = code.literal? := by
  cases shows_ <;> rfl

theorem counted_flat (shows_ : arena.Shows (.one .expr id) code) :
    code.flat.counted = code.counted := by
  cases shows_ <;> rfl

theorem arm_flat (shows_ : arena.Shows (.maybe class_ node) code) (last : Sketch) :
    code.flat.arm last = code.arm last := by
  simp [Code.arm, shows_.flat_eq_nil]

/-- A silent walk of a tree is a silent walk of the spliced tree. -/
theorem silent_flat (shows_ : arena.Shows place code) {here last : Sketch}
    (silent : code.silent here = some last) :
    code.flat.silent here = some last := by
  induction shows_ generalizing here last with
  | literal | read | builtin | delete | release | brk | cont | hole | nil | absent => exact silent
  | call _ _ _ first second =>
    obtain ⟨middle, walked, rest⟩ := Option.bind_eq_some_iff.1 silent
    obtain ⟨behind, walkedArgs, rest⟩ := Option.bind_eq_some_iff.1 rest
    simpa [Code.flat, Code.silent, first walked, second walkedArgs] using rest
  | eval _ _ ih =>
    obtain ⟨behind, walked, rest⟩ := Option.bind_eq_some_iff.1 silent
    simpa [Code.flat, Code.silent, ih walked] using rest
  | block _ rowShows ih =>
    obtain ⟨middle, walked, rest⟩ := Option.bind_eq_some_iff.1 silent
    simp [Code.flat, Code.silent, ih walked, rowShows.flat_flat, rest]
  | assign _ _ ih | ret _ _ ih =>
    obtain ⟨middle, walked, rest⟩ := Option.bind_eq_some_iff.1 silent
    simp [Code.flat, Code.silent, ih walked, rest]
  | effect _ exprShows ih =>
    obtain ⟨middle, walked, rest⟩ := Option.bind_eq_some_iff.1 silent
    simp only [Code.flat, Code.silent, ih walked, exprShows.literal?_flat, Option.bind_some]
    exact rest
  | branch _ condShows yesShows noShows first second third =>
    obtain ⟨middle, walked, rest⟩ := Option.bind_eq_some_iff.1 silent
    split at rest
    · cases rest
    · rename_i unknown
      obtain ⟨yesLast, walkedYes, rest⟩ := Option.bind_eq_some_iff.1 rest
      obtain ⟨noLast, walkedNo, rest⟩ := Option.bind_eq_some_iff.1 rest
      simp only [Code.flat, Code.silent, first walked, second walkedYes, third walkedNo,
        condShows.literal?_flat, Option.bind_some, yesShows.flat_eq_nil, noShows.flat_eq_nil,
        yesShows.arm_flat, noShows.arm_flat]
      rw [if_neg unknown]
      exact rest
  | loop _ bodyShows ih =>
    simp only [Code.silent, Code.flat, bodyShows.flat_eq_nil, Code.targets_flat,
      bodyShows.flat_flat] at silent ⊢
    split at silent
    · rename_i none
      rw [if_pos none]
      exact silent
    · rename_i some
      rw [if_neg some]
      obtain ⟨head, forgotten, rest⟩ := Option.bind_eq_some_iff.1 silent
      obtain ⟨foot, walked, rest⟩ := Option.bind_eq_some_iff.1 rest
      simp only [forgotten, ih walked, Option.bind_some]
      exact rest
  | cons _ _ first second =>
    obtain ⟨middle, walked, rest⟩ := Option.bind_eq_some_iff.1 silent
    rw [Code.flat, Code.silent_append, Code.silent_contents _ (first walked), Option.bind_some,
      Code.aborts_contents, Code.aborts_flat]
    split at rest
    · rename_i stops
      rw [if_pos stops]
      split at rest
      · rename_i ends
        rw [ends]
        exact rest
      · cases rest
    · rename_i goes
      rw [if_neg goes]
      exact second rest
  | present _ ih => exact ih silent

end Arena.Shows

end ValueFlow
