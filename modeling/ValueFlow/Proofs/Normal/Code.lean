import Mathlib.Data.List.Nodup
import ValueFlow.Proofs.Tree.Shows

/-!
# Normal trees

A tree is normal if a walk finds nothing in it to fold, to splice or to cut off. The conditions on a
node concern the node and what stands directly below it, and they are closed under all that a walk
does to the trees that it is left with below a node. Putting the statements of a block into a row
brings a statement that control never runs past to the end only, and so does removing a continue.

In an arena the same is said of the nodes one by one (`Arena.NormalAt`).
-/

namespace ValueFlow
set_option autoImplicit false

/-- The built-in names that always have the same value. -/
def foldedNames : List String := ["None", "True", "False", "__debug__", "Ellipsis"]

theorem builtinValue?_eq_none_iff {options : Options} {name : String} :
    builtinValue? options name = none ↔ name ∉ foldedNames := by
  unfold builtinValue? foldedNames
  split <;> simp_all

namespace Code

/-- There is nothing to fold, to splice or to cut off. -/
def IsNormal : Code → Prop
  | builtin _ name => name ∉ foldedNames
  | call _ callee args => callee.IsNormal ∧ args.IsNormal
  | eval _ source => source.IsNormal
  | block _ row => row ≠ nil ∧ row.IsNormal
  | assign _ _ value _ => value.IsNormal
  | effect _ expr => expr.literal? = none ∧ expr.IsNormal
  | branch _ cond yes no => cond.literal? = none ∧ ¬ (yes = nil ∧ no = nil) ∧ cond.IsNormal ∧ yes.IsNormal ∧ no.IsNormal
  | loop _ body => (body = nil ∨ body.circles = true) ∧ body.IsNormal
  | ret _ value => value.IsNormal
  | hole _ => False
  | cons head tail => head.standsAlone = true ∧ (head.aborts = true → tail = nil) ∧ head.IsNormal ∧ tail.IsNormal
  | _ => True

variable {code rest row kept : Code} {id body : NodeId}

theorem IsNormal.contents (normal : code.IsNormal) : code.contents.IsNormal := by
  cases code with
  | block _ row => exact normal.2
  | _ => exact normal

/-- A row in front of another one is normal with it, unless control never gets to the other one. -/
theorem IsNormal.append (normal : code.IsNormal)
    (form : code.isRow = true ∨ code.standsAlone = true) (ends : code.aborts = true → rest = nil)
    (onward : rest.IsNormal) : (code.append rest).IsNormal := by
  induction code with
  | nil => exact onward
  | cons head tail _ ih =>
    obtain ⟨alone, last, normalHead, normalTail⟩ := normal
    simp only [aborts, Bool.or_eq_true] at ends
    refine ⟨alone, fun stops => ?_, normalHead,
      ih normalTail (.inl (form.resolve_right Bool.false_ne_true)) fun stops => ends (.inr stops)⟩
    rw [last stops, ends (.inl stops), append_nil_left]
  | _ =>
    have alone := form.resolve_left Bool.false_ne_true
    rw [append_of_standsAlone rest alone]
    exact ⟨alone, ends, normal, onward⟩

/-- What is left of a normal row without the continue at its end is normal, and control runs past
it. -/
theorem IsNormal.withoutCont? (normal : row.IsNormal) (ends : row.withoutCont? = some kept) :
    kept.IsNormal ∧ kept.aborts = false := by
  induction row generalizing kept with
  | cons head tail _ ih =>
    unfold Code.withoutCont? at ends
    split at ends
    · obtain rfl := Option.some.inj ends
      exact ⟨trivial, rfl⟩
    · rename_i same
      obtain ⟨rfl, rfl⟩ := Code.cons.inj same
      obtain ⟨front, found, rfl⟩ := Option.map_eq_some_iff.1 ends
      obtain ⟨alone, last, normalHead, normalTail⟩ := normal
      obtain ⟨normalFront, goesFront⟩ := ih normalTail found
      -- The continue stands behind the head, so control runs past the head.
      have goes : head.aborts = false := Bool.eq_false_iff.2 fun stops => by
        simp [last stops, Code.withoutCont?] at found
      exact ⟨⟨alone,
        fun stops => by
        simp [goes] at stops, normalHead, normalFront⟩, by simp [Code.aborts, goes, goesFront]⟩
    · cases ends
  | _ => cases ends

/-- A row that control runs past does not end with a continue. -/
theorem withoutCont?_of_goes (goes : row.aborts = false) : row.withoutCont? = none := by
  induction row with
  | cons head tail _ ih =>
    simp only [aborts, Bool.or_eq_false_iff] at goes
    unfold Code.withoutCont?
    split
    · rename_i same
      obtain ⟨rfl, rfl⟩ := Code.cons.inj same
      cases goes.1
    · rename_i same
      obtain ⟨rfl, rfl⟩ := Code.cons.inj same
      rw [ih goes.2, Option.map_none]
    · rfl
  | _ => rfl

/-- A loop around a block that does not end with a continue is normal, or else removed. -/
theorem isNormal_cycle_block (normal : (block body row).IsNormal) (ends : row.withoutCont? = none) :
    (cycle id (block body row)).IsNormal := by
  unfold cycle
  split
  · trivial
  · rename_i stays
    exact ⟨.inr (by simpa [circles, ends] using stays), normal⟩

/-- What is made of a loop once a continue at the end of its body is removed is normal. -/
theorem isNormal_cycle_trim (normal : code.IsNormal)
    (isBlock : code = nil ∨ ∃ row, code = block body row) :
    (cycle id code.trim).IsNormal := by
  rcases isBlock with rfl | ⟨row, rfl⟩
  · exact ⟨.inl rfl, trivial⟩
  · cases ends : row.withoutCont? with
    | none =>
      have same : (block body row).trim = block body row := by simp [trim, ends]
      rw [same]
      exact isNormal_cycle_block normal ends
    | some kept =>
      obtain ⟨normalKept, goes⟩ := normal.2.withoutCont? ends
      have same : (block body row).trim = wrap body kept := by simp [trim, ends]
      rw [same]
      cases kept with
      | nil => exact ⟨.inl rfl, trivial⟩
      | _ => exact isNormal_cycle_block ⟨Code.noConfusion, normalKept⟩ (withoutCont?_of_goes goes)

end Code

namespace Arena

/-- Nothing directly below a statement is to be folded, spliced or cut off. -/
def NormalStmt (arena : Arena) : Stmt → Prop
  | .block stmts => stmts ≠ [] ∧ (∀ stmt ∈ stmts, arena.block? stmt = none) ∧ ∀ stmt ∈ stmts.dropLast, arena.isAborting stmt = false
  | .effect expr => arena.literal? expr = none
  | .branch cond yes no => arena.literal? cond = none ∧ ¬ (yes = none ∧ no = none)
  | .loop (some body) => ∃ stmts, arena.block? body = some stmts ∧ stmts.getLast?.bind arena.stmt? ≠ some .cont ∧
      stmts.map arena.stmt? ≠ [some .brk]
  | _ => True

/-- An expression is not the name of a known value. -/
def NormalExpr : Expr → Prop
  | .builtin name => name ∉ foldedNames
  | _ => True

/-- Whatever the node is, it is as a walk leaves it. -/
structure NormalAt (arena : Arena) (id : NodeId) : Prop where
  stmt : ∀ stmt, arena.stmt? id = some stmt → arena.NormalStmt stmt
  expr : ∀ expr, arena.expr? id = some expr → NormalExpr expr

variable {arena : Arena} {place : Place} {class_ : NodeClass} {id : NodeId} {ids : List NodeId}
  {code row : Code}

theorem NormalAt.of_stmt {stmt : Stmt} (found : arena.stmt? id = some stmt)
    (normal : arena.NormalStmt stmt) : arena.NormalAt id where
  stmt other same := by
    obtain rfl := Option.some.inj (found.symm.trans same)
    exact normal
  expr other same := by simp [expr?_of_stmt? found] at same

theorem NormalAt.of_expr {expr : Expr} (found : arena.expr? id = some expr)
    (normal : NormalExpr expr) : arena.NormalAt id where
  stmt other same := by simp [stmt?_of_expr? found] at same
  expr other same := by
    obtain rfl := Option.some.inj (found.symm.trans same)
    exact normal

namespace Shows

/-- A row is shown where a row is demanded. -/
theorem isRow (shows_ : arena.Shows (.row class_ ids) row) : row.isRow = true := by
  induction ids generalizing row with
  | nil =>
    cases shows_
    rfl
  | cons id ids ih =>
    cases shows_ with
    | @cons _ _ _ _ tail _ others => exact (ih others : tail.isRow = true)

/-- What a statement brings into the row around it is a row, or stands alone. -/
theorem contents_forms (shows_ : arena.Shows (.one class_ id) code) :
    code.contents.isRow = true ∨ code.contents.standsAlone = true := by
  cases shows_ with
  | block _ stmts => exact .inl stmts.isRow
  | _ => exact .inr rfl

/-- In a normal row no block stands, and control runs past all statements but the last one. -/
theorem normal_row (shows_ : arena.Shows (.row .stmt ids) row) (normal : row.IsNormal)
    (nodup : row.ids.Nodup) :
    (∀ stmt ∈ ids, arena.block? stmt = none) ∧ ∀ stmt ∈ ids.dropLast,
      arena.isAborting stmt = false := by
  induction ids generalizing row with
  | nil => exact ⟨nofun, nofun⟩
  | cons id ids ih =>
    cases shows_ with
    | @cons _ _ _ head tail first others =>
      obtain ⟨alone, last, -, normalTail⟩ := normal
      obtain ⟨noBlocks, go⟩ := ih others normalTail nodup.of_append_right
      refine ⟨List.forall_mem_cons.2 ⟨first.block?_eq_none alone, noBlocks⟩, ?_⟩
      cases others with
      | nil => exact nofun
      | cons second others =>
        rw [List.dropLast_cons_cons]
        refine List.forall_mem_cons.2 ⟨?_, go⟩
        have aborts : arena.isAborting id = head.aborts := by
          simpa using first.present.isAborting_eq nodup.of_append_left
        rw [aborts]
        exact Bool.eq_false_iff.2 fun stops => nomatch last stops

/-- A body that a loop keeps circling is a block that neither ends with a continue nor is a single
break. -/
theorem normal_body (shows_ : arena.Shows (.one .stmt id) code) (circles : code.circles = true) :
    ∃ stmts, arena.block? id = some stmts ∧ stmts.getLast?.bind arena.stmt? ≠ some .cont ∧
      stmts.map arena.stmt? ≠ [some .brk] := by
  rcases shows_.block?_cases with ⟨stmts, row, found, rfl, rowShows⟩ | ⟨-, noBlock⟩
  · simp only [Code.circles, Bool.and_eq_true, Bool.not_eq_true',
      Option.isNone_iff_eq_none] at circles
    refine ⟨stmts, found, ?_, fun single => ?_⟩
    · rcases rowShows.withoutCont?_cases with ⟨kept, ends, -⟩ | ⟨-, last⟩
      · simp [circles.1] at ends
      · exact last
    · have lone : Walk.isLoneBreak arena id = true := by
        obtain ⟨only, rfl, isBreak⟩ := List.map_eq_singleton_iff.1 single
        simp [Walk.isLoneBreak, found, isBreak]
      rw [shows_.isLoneBreak_eq, circles.2] at lone
      cases lone
  · cases code with
    | block id row => exact absurd rfl (noBlock id row)
    | _ => cases circles

/-- The nodes of a normal tree are as a walk leaves them. -/
theorem normalAt (shows_ : arena.Shows place code) (normal : code.IsNormal)
    (nodup : code.ids.Nodup) :
    ∀ node ∈ code.ids, arena.NormalAt node := by
  induction shows_ with
  | literal found | read found | builtin found =>
    exact List.forall_mem_singleton.2 (.of_expr found normal)
  | delete found | release found | brk found | cont found =>
    exact List.forall_mem_singleton.2 (.of_stmt found trivial)
  | hole => exact normal.elim
  | nil | absent => exact nofun
  | present _ ih => exact ih normal nodup
  | cons _ _ first second =>
    exact List.forall_mem_append.2
      ⟨first normal.2.2.1 nodup.of_append_left, second normal.2.2.2 nodup.of_append_right⟩
  | call found _ _ first second =>
    have below := (List.nodup_cons.1 nodup).2
    refine List.forall_mem_cons.2 ⟨.of_expr found trivial, List.forall_mem_append.2 ⟨?_, ?_⟩⟩
    · exact first normal.1 below.of_append_left
    · exact second normal.2 below.of_append_right
  | eval found _ ih =>
    exact List.forall_mem_cons.2 ⟨.of_expr found trivial, ih normal (List.nodup_cons.1 nodup).2⟩
  | assign found _ ih | ret found _ ih =>
    exact List.forall_mem_cons.2 ⟨.of_stmt found trivial, ih normal (List.nodup_cons.1 nodup).2⟩
  | effect found expr ih =>
    refine List.forall_mem_cons.2 ⟨.of_stmt found ?_, ih normal.2 (List.nodup_cons.1 nodup).2⟩
    exact expr.literal?_eq.trans normal.1
  | block found stmts ih =>
    have below := (List.nodup_cons.1 nodup).2
    refine List.forall_mem_cons.2 ⟨.of_stmt found ⟨?_, stmts.normal_row normal.2 below⟩,
      ih normal.2 below⟩
    rintro rfl
    cases stmts
    exact normal.1 rfl
  | branch found cond yes no first second third =>
    obtain ⟨unknown, someArm, normalCond, normalYes, normalNo⟩ := normal
    have below := (List.nodup_cons.1 nodup).2
    have arms := below.of_append_right
    refine List.forall_mem_cons.2
      ⟨.of_stmt found ⟨cond.literal?_eq.trans unknown, fun none_ => someArm ?_⟩, ?_⟩
    · exact ⟨yes.eq_nil_iff.2 none_.1, no.eq_nil_iff.2 none_.2⟩
    · exact List.forall_mem_append.2
        ⟨first normalCond below.of_append_left,
          List.forall_mem_append.2
          ⟨second normalYes arms.of_append_left, third normalNo arms.of_append_right⟩⟩
  | loop found body ih =>
    refine List.forall_mem_cons.2 ⟨.of_stmt found ?_, ih normal.2 (List.nodup_cons.1 nodup).2⟩
    cases body with
    | absent => trivial
    | present here => exact here.normal_body (normal.1.resolve_left here.single.1)

end Shows

end Arena

end ValueFlow
