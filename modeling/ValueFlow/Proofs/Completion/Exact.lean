import ValueFlow.Proofs.Completion.Executions
import ValueFlow.Proofs.Normal.Statement

/-!
# Executions of a normal tree

An execution of a row of statements runs past all of them, or past some of them and is left early by
the next one (`Arena.RowFinishes`). With rows, the endings of a statement are told by those of what
is directly below it (`finishes_block_iff`, `finishes_branch_iff`, `finishes_loop_iff`).

The endings of a tree are among those that its shape allows (`Shows.allows`). On a normal tree all
of them are there (`Shows.finishes`): control gets past every statement of a row but the last one,
so it gets to each exit in it. The queries read the shape, so they are exact on what a walk leaves
(`queries_exact_after_walk`).
-/

namespace ValueFlow
set_option autoImplicit false

/-- The only ending of a statement that has no statements below it. -/
def Stmt.ending? : Stmt → Option Completion
  | .block _ => none
  | .branch _ _ _ => none
  | .loop _ => none
  | .brk => some (.early .brk)
  | .cont => some (.early .cont)
  | .ret _ => some (.early .ret)
  | _ => some .past

/-- The shape of the tree allows an execution of it to end so. -/
def Code.Allows (code : Code) : Completion → Prop
  | .past => code.aborts = false
  | .early kind => code.exitNodes kind ≠ []

/-- A tree stands in another one, which is normal only if it is. -/
structure Code.PartOf (part whole : Code) : Prop where
  ids : part.ids.Sublist whole.ids
  normal : whole.IsNormal → part.IsNormal

theorem Code.PartOf.refl {code : Code} : code.PartOf code := ⟨.refl _, id⟩

theorem Code.PartOf.trans {part whole more : Code} (inner : part.PartOf whole)
    (outer : whole.PartOf more) : part.PartOf more :=
  ⟨inner.ids.trans outer.ids, inner.normal ∘ outer.normal⟩

section Allows

variable {id : NodeId} {row cond yes no body head tail : Code} {ending : Completion}

theorem Code.allows_block : (Code.block id row).Allows ending ↔ row.Allows ending := by
  cases ending <;> rfl

theorem Code.allows_branch :
    (Code.branch id cond yes no).Allows ending ↔ yes.Allows ending ∨ no.Allows ending := by
  cases ending with
  | past => exact Bool.and_eq_false_iff
  | early kind => simp [Code.Allows, Code.exitNodes, or_iff_not_imp_left]

theorem Code.allows_loop : (Code.loop id body).Allows ending ↔
    (ending = .past ∧ body.Allows (.early .brk)) ∨
      (ending = .early .ret ∧ body.Allows (.early .ret)) := by
  cases ending with
  | past => simp [Code.Allows, Code.aborts, Code.exitNodes_brk_eq_nil]
  | early kind => cases kind <;> simp [Code.Allows, Code.exitNodes]

/-- A row allows what its head allows early, and what the others allow if it allows to get there. -/
theorem Code.allows_cons
    (allowed : (ending ≠ .past ∧ head.Allows ending) ∨ (head.Allows .past ∧ tail.Allows ending)) :
    (Code.cons head tail).Allows ending := by
  cases ending with
  | past => simpa [Code.Allows, Code.aborts] using allowed
  | early kind =>
    simp only [Code.Allows, Code.exitNodes, ne_eq, List.append_eq_nil_iff, not_and_or] at allowed ⊢
    exact allowed.imp And.right And.right

/-- A normal row allows nothing else, as nothing stands behind a statement that control never runs
past. -/
theorem Code.IsNormal.allows_cons (normal : (Code.cons head tail).IsNormal)
    (allowed : (Code.cons head tail).Allows ending) :
    (ending ≠ .past ∧ head.Allows ending) ∨ (head.Allows .past ∧ tail.Allows ending) := by
  obtain ⟨-, last, -, -⟩ := normal
  cases ending with
  | past => simpa [Code.Allows, Code.aborts] using allowed
  | early kind =>
    simp only [Code.Allows, Code.exitNodes, ne_eq, List.append_eq_nil_iff, not_and_or] at allowed
    refine allowed.imp (.intro Completion.noConfusion) fun later =>
      ⟨Bool.eq_false_iff.2 fun stops => later ?_, later⟩
    rw [last stops]
    rfl

end Allows

namespace Arena

/-- A finite execution of the statements one after the other comes to this ending. -/
def RowFinishes (arena : Arena) (stmts : List NodeId) : Completion → Prop
  | .past => ∀ stmt ∈ stmts, arena.Finishes stmt .past
  | .early kind => ∃ done last rest, stmts = done ++ last :: rest ∧ (∀ stmt ∈ done, arena.Finishes stmt .past) ∧
      arena.Finishes last (.early kind)

/-- A statement ends in no way but those that the queries allow. -/
structure QueriesCover (arena : Arena) (id : NodeId) : Prop where
  past : arena.Finishes id .past → arena.isAborting id = false
  brk : arena.Finishes id (.early .brk) → arena.mayBreak id = true
  cont : arena.Finishes id (.early .cont) → arena.mayContinue id = true
  ret : arena.Finishes id (.early .ret) → arena.mayReturn id = true

/-- A statement ends in just the ways that the queries allow. -/
structure QueriesExact (arena : Arena) (id : NodeId) : Prop where
  past : arena.Finishes id .past ↔ arena.isAborting id = false
  brk : arena.Finishes id (.early .brk) ↔ arena.mayBreak id = true
  cont : arena.Finishes id (.early .cont) ↔ arena.mayContinue id = true
  ret : arena.Finishes id (.early .ret) ↔ arena.mayReturn id = true

variable {arena : Arena} {place : Place} {class_ : NodeClass} {id root : NodeId} {ids : List NodeId}
  {code row : Code} {ending : Completion}

section Steps

variable {stmts first second : List NodeId} {cond : NodeId} {yes no body : Option NodeId}
  {kind : ExitKind}

theorem rowFinishes_nil : arena.RowFinishes [] ending ↔ ending = .past := by
  cases ending <;> simp [RowFinishes]

theorem rowFinishes_singleton : arena.RowFinishes [id] ending ↔ arena.Finishes id ending := by
  cases ending with
  | past => simp [RowFinishes]
  | early kind =>
    refine ⟨?_, fun finishes => ⟨[], id, [], rfl, nofun, finishes⟩⟩
    rintro ⟨done, last, rest, same, -, left⟩
    obtain ⟨rfl, singleton⟩ | ⟨_, rfl, absent⟩ := List.cons_eq_append_iff.1 same
    · obtain ⟨rfl, -⟩ := List.cons.inj singleton
      exact left
    · simp at absent

/-- A row in two parts is left early in the first part, or control runs past that and the second
part ends so. -/
theorem rowFinishes_append : arena.RowFinishes (first ++ second) ending ↔
    (ending ≠ .past ∧ arena.RowFinishes first ending) ∨
      (arena.RowFinishes first .past ∧ arena.RowFinishes second ending) := by
  cases ending with
  | past => simp [RowFinishes, or_imp, forall_and]
  | early kind =>
    constructor
    · rintro ⟨done, last, rest, same, all, left⟩
      obtain ⟨more, rfl, later⟩ | ⟨more, rfl, earlier⟩ := List.append_eq_append_iff.1 same
      · exact .inr ⟨fun stmt mem => all stmt (List.mem_append_left _ mem), more, last, rest, later,
          fun stmt mem => all stmt (List.mem_append_right _ mem), left⟩
      · cases more with
        | nil =>
          exact .inr ⟨by simpa [RowFinishes] using all, [], last, rest, earlier.symm, nofun, left⟩
        | cons head tail =>
          obtain ⟨rfl, rfl⟩ := List.cons.inj earlier
          exact .inl ⟨nofun, done, last, tail, rfl, all, left⟩
    · rintro (⟨-, done, last, rest, rfl, all, left⟩ | ⟨before, done, last, rest, rfl, all, left⟩)
      · exact ⟨done, last, rest ++ second, by simp, all, left⟩
      · exact ⟨first ++ done, last, rest, by simp,
          fun stmt mem => (List.mem_append.1 mem).elim (before stmt) (all stmt), left⟩

theorem finishes_absent_iff (absent : arena.stmt? id = none) :
    arena.Finishes id ending ↔ ending = .past := by
  refine ⟨fun finishes => ?_, fun same => same ▸ .vacant absent⟩
  cases finishes <;> simp_all

theorem finishes_leaf_iff {stmt : Stmt} {only : Completion} (found : arena.stmt? id = some stmt)
    (leaf : stmt.ending? = some only) :
    arena.Finishes id ending ↔ ending = only := by
  refine ⟨fun finishes => ?_, ?_⟩
  · cases stmt <;> cases finishes <;> simp_all [Stmt.ending?, Stmt.isSimple]
  · rintro rfl
    cases stmt <;> cases leaf <;> first | exact .brk found | exact .cont found | exact .ret found |
      exact .simple found rfl

theorem finishes_block_iff (found : arena.stmt? id = some (.block stmts)) :
    arena.Finishes id ending ↔ arena.RowFinishes stmts ending := by
  refine ⟨fun finishes => ?_, fun finishes => ?_⟩
  · cases finishes with
    | block same all =>
      obtain rfl := Stmt.block.inj (Option.some.inj (same.symm.trans found))
      exact all
    | leaveBlock same all left =>
      obtain rfl := Stmt.block.inj (Option.some.inj (same.symm.trans found))
      exact ⟨_, _, _, rfl, all, left⟩
    | _ => simp_all [Stmt.isSimple]
  · cases ending with
    | past => exact .block found finishes
    | early kind =>
      obtain ⟨done, last, rest, rfl, all, left⟩ := finishes
      exact .leaveBlock found all left

/-- A conditional ends as either arm does. An arm that is absent is a row of nothing. -/
theorem finishes_branch_iff (found : arena.stmt? id = some (.branch cond yes no)) :
    arena.Finishes id ending ↔ arena.RowFinishes yes.toList ending ∨
      arena.RowFinishes no.toList ending := by
  refine ⟨fun finishes => ?_, fun finishes => ?_⟩
  · cases finishes with
    | arm same mem taken =>
      obtain ⟨rfl, rfl, rfl⟩ := Stmt.branch.inj (Option.some.inj (same.symm.trans found))
      rcases mem with rfl | rfl
      · exact .inl (rowFinishes_singleton.2 taken)
      · exact .inr (rowFinishes_singleton.2 taken)
    | noArm same absent =>
      obtain ⟨rfl, rfl, rfl⟩ := Stmt.branch.inj (Option.some.inj (same.symm.trans found))
      rcases absent with rfl | rfl
      · exact .inl (rowFinishes_nil.2 rfl)
      · exact .inr (rowFinishes_nil.2 rfl)
    | _ => simp_all [Stmt.isSimple]
  · rcases finishes with taken | taken
    · cases yes with
      | none => exact rowFinishes_nil.1 taken ▸ .noArm found (.inl rfl)
      | some arm => exact .arm found (.inl rfl) (rowFinishes_singleton.1 taken)
    · cases no with
      | none => exact rowFinishes_nil.1 taken ▸ .noArm found (.inr rfl)
      | some arm => exact .arm found (.inr rfl) (rowFinishes_singleton.1 taken)

/-- A loop ends where a round of it breaks or returns. -/
theorem finishes_loop_iff (found : arena.stmt? id = some (.loop body)) :
    arena.Finishes id ending ↔ (ending = .past ∧ arena.RowFinishes body.toList (.early .brk)) ∨
      (ending = .early .ret ∧ arena.RowFinishes body.toList (.early .ret)) := by
  refine ⟨fun finishes => ?_, ?_⟩
  · -- Each round has an ending of its own, and the last one decides.
    induction finishes with
    | round _ _ _ _ _ last => exact last found
    | leaveLoop same left =>
      obtain rfl := Stmt.loop.inj (Option.some.inj (same.symm.trans found))
      exact .inl ⟨rfl, rowFinishes_singleton.2 left⟩
    | passReturn same left =>
      obtain rfl := Stmt.loop.inj (Option.some.inj (same.symm.trans found))
      exact .inr ⟨rfl, rowFinishes_singleton.2 left⟩
    | @simple _ stmt same simple => cases stmt <;> simp_all [Stmt.isSimple]
    | _ => simp_all
  · cases body with
    | none => simp [rowFinishes_nil]
    | some body =>
      rintro (⟨rfl, left⟩ | ⟨rfl, left⟩)
      · exact .leaveLoop found (rowFinishes_singleton.1 left)
      · exact .passReturn found (rowFinishes_singleton.1 left)

end Steps

namespace Shows

/-- What stands at a place ends in no way but those that its shape allows. -/
theorem allows (shows_ : arena.Shows place code) (finishes : arena.RowFinishes place.stmts ending) :
    code.Allows ending := by
  induction shows_ generalizing ending with
  | literal | read | builtin | call | eval =>
    obtain rfl := rowFinishes_nil.1 finishes
    rfl
  | nil | absent =>
    simp only [Place.stmts, Option.toList_none, NodeClass.keep_nil, rowFinishes_nil] at finishes
    subst finishes
    rfl
  | assign found | delete found | release found | effect found | brk found
  | cont found | ret found =>
    obtain rfl := (finishes_leaf_iff found rfl).1 (rowFinishes_singleton.1 finishes)
    simp [Code.Allows, Code.aborts, Code.exitNodes]
  | block found _ row =>
    exact Code.allows_block.2
      (row ((finishes_block_iff found).1 (rowFinishes_singleton.1 finishes)))
  | branch found _ _ _ _ yes no =>
    exact Code.allows_branch.2
      (((finishes_branch_iff found).1 (rowFinishes_singleton.1 finishes)).imp yes no)
  | loop found _ body =>
    exact Code.allows_loop.2
      (((finishes_loop_iff found).1 (rowFinishes_singleton.1 finishes)).imp (.imp_right body)
        (.imp_right body))
  | @hole _ class_ _ lacks =>
    cases class_ with
    | expr =>
      obtain rfl := rowFinishes_nil.1 finishes
      rfl
    | stmt =>
      obtain rfl := (finishes_absent_iff lacks).1 (rowFinishes_singleton.1 finishes)
      rfl
  | @cons class_ id rest _ _ _ _ head tail =>
    simp only [Place.stmts, class_.keep_cons id rest, rowFinishes_append] at finishes
    exact Code.allows_cons (finishes.imp (.imp_right head) (.imp head tail))
  | present _ ih => exact ih finishes

/-- Some execution of a normal tree ends in each of the ways that its shape allows. -/
theorem finishes (shows_ : arena.Shows place code) (normal : code.IsNormal)
    (allowed : code.Allows ending) :
    arena.RowFinishes place.stmts ending := by
  induction shows_ generalizing ending with
  | literal | read | builtin | call | eval =>
    cases ending with
    | past => exact rowFinishes_nil.2 rfl
    | early kind => exact absurd rfl allowed
  | nil | absent =>
    simp only [Place.stmts, Option.toList_none, NodeClass.keep_nil, rowFinishes_nil]
    cases ending with
    | past => rfl
    | early kind => exact absurd rfl allowed
  | assign found | delete found | release found | effect found | brk found
  | cont found | ret found =>
    refine rowFinishes_singleton.2 ((finishes_leaf_iff found rfl).2 ?_)
    cases ending with
    | past => simp [Code.Allows, Code.aborts] at allowed ⊢
    | early kind => cases kind <;> simp [Code.Allows, Code.exitNodes] at allowed ⊢
  | block found _ row =>
    exact rowFinishes_singleton.2
      ((finishes_block_iff found).2 (row normal.2 (Code.allows_block.1 allowed)))
  | branch found _ _ _ _ yes no =>
    obtain ⟨-, -, -, normalYes, normalNo⟩ := normal
    exact rowFinishes_singleton.2
      ((finishes_branch_iff found).2
        ((Code.allows_branch.1 allowed).imp (yes normalYes) (no normalNo)))
  | loop found _ body =>
    refine rowFinishes_singleton.2
      ((finishes_loop_iff found).2 ((Code.allows_loop.1 allowed).imp ?_ ?_))
    · exact .imp_right (body normal.2)
    · exact .imp_right (body normal.2)
  | hole => exact normal.elim
  | @cons class_ id rest _ _ _ _ head tail =>
    simp only [Place.stmts, class_.keep_cons id rest, rowFinishes_append]
    have normalHead := normal.2.2.1
    have normalTail := normal.2.2.2
    exact (normal.allows_cons allowed).imp (.imp_right (head normalHead))
      (.imp (head normalHead) (tail normalTail))
  | present _ ih => exact ih normal allowed

/-- A member of a row shows a part of it. -/
theorem part_of_mem (shows_ : arena.Shows (.row .stmt ids) row) (mem : id ∈ ids) :
    ∃ part, arena.Shows (.one .stmt id) part ∧ part.PartOf row := by
  induction ids generalizing row with
  | nil => cases mem
  | cons first rest ih =>
    cases shows_ with
    | cons head tail =>
      rcases List.mem_cons.1 mem with rfl | later
      · exact ⟨_, head, List.sublist_append_left _ _, fun normal => normal.2.2.1⟩
      · obtain ⟨part, shows_, partOf⟩ := ih tail later
        exact ⟨part, shows_,
          partOf.trans ⟨List.sublist_append_right _ _, fun normal => normal.2.2.2⟩⟩

/-- A statement directly below another one shows a part of what stands there. -/
theorem part_of_child {stmt : Stmt} {child : NodeId} (shows_ : arena.Shows (.one .stmt id) code)
    (found : arena.stmt? id = some stmt) (mem : child ∈ stmt.children) :
    ∃ part, arena.Shows (.one .stmt child) part ∧ part.PartOf code := by
  cases shows_ with
  | block same stmts =>
    obtain rfl := Option.some.inj (same.symm.trans found)
    obtain ⟨part, shows_, partOf⟩ := stmts.part_of_mem mem
    exact ⟨part, shows_, partOf.trans ⟨List.sublist_cons_self _ _, fun normal => normal.2⟩⟩
  | branch same cond yes no =>
    obtain rfl := Option.some.inj (same.symm.trans found)
    rcases List.mem_append.1 mem with arm | arm
    · obtain rfl := Option.mem_toList.1 arm
      exact ⟨_, yes.here,
        ((List.sublist_append_left _ _).trans (List.sublist_append_right _ _)).cons _,
        fun normal => normal.2.2.2.1⟩
    · obtain rfl := Option.mem_toList.1 arm
      exact ⟨_, no.here,
        ((List.sublist_append_right _ _).trans (List.sublist_append_right _ _)).cons _,
        fun normal => normal.2.2.2.2⟩
  | loop same body =>
    obtain rfl := Option.some.inj (same.symm.trans found)
    obtain rfl := Option.mem_toList.1 mem
    exact ⟨_, body.here, List.sublist_cons_self _ _, fun normal => normal.2⟩
  | hole _ lacks => cases found.symm.trans lacks
  | assign same | delete same | release same | effect same | brk same | cont same | ret same =>
    obtain rfl := Option.some.inj (same.symm.trans found)
    cases mem

/-- Whatever lies below a statement shows a part of what stands there. -/
theorem part_of_below (shows_ : arena.Shows (.one .stmt root) code) (below : arena.Below root id) :
    ∃ part, arena.Shows (.one .stmt id) part ∧ part.PartOf code := by
  induction below with
  | root => exact ⟨code, shows_, .refl⟩
  | child _ found mem ih =>
    obtain ⟨part, above, partOf⟩ := ih
    obtain ⟨smaller, here, within⟩ := above.part_of_child found mem
    exact ⟨smaller, here, within.trans partOf⟩

/-- What the queries say of a statement is what the shape of its tree allows. -/
theorem allows_iff (shows_ : arena.Shows (.one .stmt id) code) (nodup : code.ids.Nodup) :
    code.Allows ending ↔ arena.allows id ending = true := by
  cases ending with
  | past =>
    have aborts := shows_.present.isAborting_eq nodup
    rw [Option.any_some] at aborts
    simp [Code.Allows, Arena.allows, aborts]
  | early kind => exact (shows_.present.any_mayExit_iff nodup kind).symm

end Shows

namespace IsTree

/-- Below a tree no execution ends in a way that the queries rule out. -/
theorem queriesCover (tree : arena.IsTree root code) (below : arena.Below root id) :
    arena.QueriesCover id := by
  obtain ⟨part, shows_, partOf⟩ := tree.shows_.part_of_below below
  have covered {ending : Completion} (finishes : arena.Finishes id ending) :
      arena.allows id ending = true := (shows_.allows_iff (tree.nodup.sublist partOf.ids)).1
    (shows_.allows (rowFinishes_singleton.2 finishes))
  exact ⟨fun finishes => by simpa [Arena.allows] using covered finishes, covered, covered, covered⟩

/-- Below a normal tree there is an execution for each of the ways to end that the queries allow. -/
theorem queriesExact (tree : arena.IsTree root code) (normal : code.IsNormal)
    (below : arena.Below root id) : arena.QueriesExact id := by
  obtain ⟨part, shows_, partOf⟩ := tree.shows_.part_of_below below
  have reached (ending : Completion) (allowed : arena.allows id ending = true) :
      arena.Finishes id ending :=
    rowFinishes_singleton.1
      (shows_.finishes (partOf.normal normal)
        ((shows_.allows_iff (tree.nodup.sublist partOf.ids)).2 allowed))
  have covers := tree.queriesCover below
  refine ⟨⟨covers.past, fun goes => reached .past ?_⟩, ⟨covers.brk, reached (.early .brk)⟩,
    ⟨covers.cont, reached (.early .cont)⟩, ⟨covers.ret, reached (.early .ret)⟩⟩
  simp [Arena.allows, goes]

end IsTree

end Arena

namespace Walk

variable {walk after : Walk} {id node : NodeId} {code : Code} {depth : Nat}

/-- On the tree that a walk leaves, the queries are exact: control runs past a statement in some
execution if and only if it is not aborting, and some execution ends by a break, a continue or a
return if and only if the query for it says so. Before the walk the queries only cover what there
is. -/
theorem queries_exact_after_walk (tree : walk.arena.IsTree id code) (walked : walkStmtWithin depth id walk = .ok (some node) after) :
    (∀ below, walk.arena.Below id below → walk.arena.QueriesCover below) ∧
      ∀ below, after.arena.Below node below → after.arena.QueriesExact below := by
  obtain ⟨newCode, reshaped, -⟩ := (reshapes_walkStmtWithin depth tree.shows_ tree.nodup).of_ok walked
  have left : after.arena.IsTree node newCode := ⟨reshaped.shows_.here, reshaped.changes.nodup⟩
  exact ⟨fun _ below => tree.queriesCover below, fun _ below => left.queriesExact reshaped.normal below⟩

/-- A loop around a return with a break behind it: `loop { return; break }`. -/
def breakBehindReturn : Arena :=
  ⟨#[⟨.stmt (.ret none), ⟨0, 1⟩⟩, ⟨.stmt .brk, ⟨1, 2⟩⟩, ⟨.stmt (.block [0, 1]), ⟨2, 3⟩⟩, ⟨.stmt (.loop (some 2)), ⟨3, 4⟩⟩]⟩

theorem isTree_breakBehindReturn :
    breakBehindReturn.IsTree 3
      (.loop 3 (.block 2 (.cons (.ret 0 .nil) (.cons (.brk 1) .nil)))) where
  shows_ := .loop rfl (.present (.block rfl (.cons (.ret rfl .absent) (.cons (.brk rfl) .nil))))
  nodup := by decide

/-- The start of a walk over it in a function. -/
def atBreakBehindReturn : Walk :=
  ⟨⟨.fresh "function body", { Analysis.fresh ⟨#[]⟩ {} with exits := ⟨none, none, some []⟩ }⟩, breakBehindReturn⟩

/-- Nothing runs past this loop, but its shape allows that because of the break. The walk cuts the
break off, and then the queries are right about the loop and its body. -/
theorem breakBehindReturn_exact_after : ∃ after, walkStmtWithin 5 3 atBreakBehindReturn = .ok (some 3) after ∧
    (breakBehindReturn.isAborting 3 = false ∧ ¬ breakBehindReturn.Finishes 3 .past) ∧
    (after.arena.isAborting 3 = true ∧ after.arena.mayReturn 3 = true) ∧
    ∀ below, after.arena.Below 3 below → after.arena.QueriesExact below := by
  have ends : endsWith (walkStmtWithin 5 3) atBreakBehindReturn (fun left after =>
      left == some 3 && after.arena.isAborting 3 && after.arena.mayReturn 3) = true := by
    decide +kernel
  obtain ⟨left, after, walked, told⟩ := exists_of_endsWith ends
  simp only [Bool.and_eq_true, beq_iff_eq] at told
  obtain ⟨⟨rfl, aborts⟩, returns⟩ := told
  refine ⟨after, walked, ⟨by decide, fun past => ?_⟩, ⟨aborts, returns⟩, (queries_exact_after_walk isTree_breakBehindReturn walked).2⟩
  obtain ⟨-, breaks⟩ | ⟨returned, -⟩ := (Arena.finishes_loop_iff rfl).1 past
  · -- The body is left at its first statement, and never by a break.
    have body := (Arena.finishes_block_iff rfl).1 (Arena.rowFinishes_singleton.1 breaks)
    have first {ending : Completion} : breakBehindReturn.Finishes 0 ending ↔ ending = .early .ret := Arena.finishes_leaf_iff rfl rfl
    rw [← List.singleton_append, Arena.rowFinishes_append] at body
    simp [Arena.rowFinishes_singleton, first] at body
  · cases returned

end Walk

end ValueFlow
