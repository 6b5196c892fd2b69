import ValueFlow.Proofs.Account.Simple

/-!
# Walks of blocks have an account

From the walk of the statements below: what each of them brings is put into one row, which ends
behind the first statement of which an aborting one is left.
-/

namespace ValueFlow
set_option autoImplicit false

namespace Walk

variable {walk : Walk} {id : NodeId} {visit : NodeId → WalkM (Option NodeId)}

/-- The walk rewrites every statement, from any sound site. -/
def RewritesStmts (visit : NodeId → WalkM (Option NodeId)) : Prop :=
  ∀ {walk : Walk} {id : NodeId} {code : Code}, walk.toSite.Sound → walk.arena.Shows (.one .stmt id) code → code.ids.Nodup →
    Gives (visit id) walk fun node after => walk.LeavesStmt code node 0 after

/-- Dead statements weigh more than the notice that they are dead. -/
theorem gives_signalDead (sound : walk.toSite.Sound) {arena : Arena} {dead : List NodeId}
    {tail : Code} (shows_ : arena.Shows (.row .stmt dead) tail) :
    Gives (signalDead dead) walk fun _ after => walk.toSite.Quiet after.toSite ∧
      after.arena = walk.arena ∧
      after.analysis.edits.size ≤ walk.analysis.edits.size + tail.weight := by
  cases shows_ with
  | nil => exact .pure ⟨.refl sound, rfl, Nat.le_refl _⟩
  | @cons _ dead _ _ _ first others =>
    refine (gives_signal sound dead (some _)).mono fun _ after told => ⟨told.1, told.2.1, ?_⟩
    have pos := first.weight_pos
    simp only [told.2.2, Option.isSome_some, if_true, Code.weight]
    omega

/-- Statements in a row are rewritten in order, up to one of which an aborting one is left. -/
theorem gives_rewriteStmts (visits : RewritesStmts visit) {stmts : List NodeId} {row : Code}
    (sound : walk.toSite.Sound) (shows_ : walk.arena.Shows (.row .stmt stmts) row)
    (nodup : row.ids.Nodup) :
    Gives (rewriteStmts visit stmts) walk fun kept after =>
      ∃ newRow breaks notes, walk.Rewrote row after (.row .stmt kept) newRow breaks notes ∧
        walk.Pays row 0 after newRow := by
  induction stmts generalizing walk row with
  | nil =>
    cases shows_
    exact .pure ⟨.nil, [], [], .nil sound .nil, Nat.le_refl _⟩
  | cons stmt rest ih =>
    cases shows_ with
    | @cons _ _ _ head tail here others =>
      have apart : head.ids.Disjoint tail.ids := List.disjoint_of_nodup_append nodup
      refine .bind (visits sound here nodup.of_append_left) ?_
      rintro node middle ⟨newHead, breaks, notes, first, paidHead⟩
      have onward :=
        ih first.moved.sound (first.keep others (List.disjoint_symm apart)) nodup.of_append_right
      cases node with
      | none =>
        obtain rfl := first.shows_.eq_nil_iff.2 rfl
        refine onward.mono ?_
        rintro kept after ⟨newTail, out, more, second, paidTail⟩
        exact ⟨_, _, _, first.through rfl second apart others.inside second.shows_,
          paidHead.through paidTail⟩
      | some node =>
        have brought := first.shows_.here.contents
        have aborts : middle.arena.isAborting node = newHead.aborts := by
          simpa using first.shows_.isAborting_eq first.changes.nodup
        rw [gives_arenaHere_bind, aborts]
        split
        · rename_i stops
          refine .bind (gives_signalDead first.moved.sound others) ?_
          rintro _ after ⟨quiet, same, noticed⟩
          exact .pure ⟨_, _, _, (first.dead stops brought).settle quiet same, paidHead.dead noticed⟩
        · rename_i goes
          refine .bind onward ?_
          rintro kept after ⟨newTail, out, more, second, paidTail⟩
          have beside : (newHead.contents.append .nil).ids.Disjoint tail.ids := by
            rw [Code.ids_append, Code.ids, List.append_nil]
            exact fun node held mem => first.changes.disjoint others.inside apart
              ((Code.ids_contents_sublist newHead).subset held) mem
          have whole := (second.keep brought beside).append second.shows_
          rw [Code.append_assoc, Code.append_nil_left] at whole
          exact .pure ⟨_, _, _, first.through (by simpa using goes) second apart others.inside
            whole, paidHead.through paidTail⟩

/-- A block is rewritten with its row, and removed if nothing is left in it. -/
theorem gives_rewriteBlock (visits : RewritesStmts visit) {stmts : List NodeId} {row : Code}
    (sound : walk.toSite.Sound) (found : walk.arena.stmt? id = some (.block stmts))
    (rowShows : walk.arena.Shows (.row .stmt stmts) row) (nodup : (id :: row.ids).Nodup) :
    Gives (rewriteBlock visit id stmts) walk fun answer after =>
      walk.LeavesStmt (.block id row) answer.node answer.owed after := by
  obtain ⟨free, nodupRow⟩ := List.nodup_cons.1 nodup
  refine .bind (gives_rewriteStmts visits sound rowShows nodupRow) ?_
  rintro kept after ⟨newRow, breaks, notes, first, paid⟩
  cases kept with
  | nil =>
    have nothing : newRow = .nil := by
      cases first.shows_
      rfl
    subst nothing
    refine .pure
      ⟨.nil, breaks, notes,
        ⟨(first.toPassed.widen (List.subset_cons_self _ _)).sublist (List.nil_sublist _), .absent,
          first.ordered, fun ledger closes => .block (first.walks ledger closes)⟩, ?_⟩
    simp only [Pays, Code.weight, owed_removed] at paid ⊢
    omega
  | cons node rest =>
    have edited := first.toPassed.editStmt found free (.withStmts (node :: rest))
    have something : Code.wrap id newRow = .block id newRow := by
      cases first.shows_
      rfl
    dsimp only
    rw [gives_editStmt_bind]
    refine .pure
      ⟨.block id newRow, breaks, notes,
        ⟨edited, ?_, first.ordered,
          fun ledger closes => something ▸ .block (first.walks ledger closes)⟩, ?_⟩
    · exact .present (.block (Arena.stmt?_mapStmt_self (first.stmt?_eq found free) _)
        (first.shows_.mapStmt edited.not_mem _))
    · simp only [Pays, Code.weight, owed_stay] at paid ⊢
      omega

end Walk

end ValueFlow
