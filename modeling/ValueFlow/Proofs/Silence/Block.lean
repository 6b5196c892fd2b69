import ValueFlow.Proofs.Silence.Simple

/-!
# Silent walks of blocks

A silent walk of a row of statements keeps all of them, in order, with the statements of a block in
its place. So nothing stands behind a statement that control never runs past, and a row in which no
block stands is kept as it is.
-/

namespace ValueFlow
set_option autoImplicit false

namespace Walk

variable {walk : Walk} {id : NodeId} {code row : Code} {stmts : List NodeId}
  {visit : NodeId → WalkM (Option NodeId)} {depth : Nat}

/-- The walk of every statement that is nested no deeper is foretold. -/
structure Foretold (visit : NodeId → WalkM (Option NodeId)) (depth : Nat) : Prop where
  steady : ∀ id, Steady (visit id)
  tells : ∀ {walk : Walk} {id : NodeId} {code : Code}, walk.toSite.Sound → walk.arena.Shows (.one .stmt id) code → code.ids.Nodup →
    code.ids.length ≤ depth → Tells (visit id) walk (code.silent walk.sketch)
      (fun node after => node = some id ∧ walk.arena.Spliced code after.arena (.one .stmt id)) nothingDue

namespace Foretold

variable (foretold : Foretold visit depth)
include foretold

/-- The walk of a statement has only integrity to keep to. -/
theorem yields (id : NodeId) :
    integrity.Yields integrity.ofWalk (visit id) fun answer => ∀ node ∈ answer,
      integrity.region.stmts node :=
  fun walk ready => (foretold.steady id walk ready).mono fun _ _ _ _ _ _ => trivial

theorem steady_rewriteStmts (stmts : List NodeId) : Steady (rewriteStmts visit stmts) :=
  .of_yields (Discipline.yields_rewriteStmts integrity_law (fun id _ => foretold.yields id)
    fun _ _ => trivial)

/-- What is done behind a statement of a row keeps to integrity. -/
theorem steady_behindStmt (rest : List NodeId) (node : Option NodeId) :
    Steady (match node with
      | none => rewriteStmts visit rest
      | some node => arenaHere >>= fun arena =>
        let own := (arena.block? node).getD [node]
        if arena.isAborting node = true then signalDead rest >>= fun _ => pure own
        else rewriteStmts visit rest >>= fun kept => pure (own ++ kept)) := by
  cases node with
  | none => exact foretold.steady_rewriteStmts rest
  | some node =>
    refine .arenaHere_bind fun arena => ?_
    dsimp only
    split
    · refine .bind ?_ fun _ => .pure
      cases rest with
      | nil => exact .pure
      | cons dead others => exact .of_yields (.signal integrity_law dead (some _))
    · exact .bind (foretold.steady_rewriteStmts rest) fun _ => .pure

/-- Statements in a row are walked one by one. -/
theorem tells_rewriteStmts (sound : walk.toSite.Sound)
    (shows_ : walk.arena.Shows (.row .stmt stmts) row) (nodup : row.ids.Nodup)
    (low : row.ids.length ≤ depth) :
    Tells (rewriteStmts visit stmts) walk (row.silent walk.sketch)
      (fun kept after => (row.isFlat = true → kept = stmts) ∧
        walk.arena.Spliced row after.arena (.row .stmt kept)) nothingDue := by
  induction stmts generalizing walk row with
  | nil =>
    cases shows_
    exact .pure sound ⟨fun _ => rfl, .refl .nil rfl⟩
  | cons stmt rest ih =>
    cases shows_ with
    | @cons _ _ _ head tail here others =>
      have apart : head.ids.Disjoint tail.ids := List.disjoint_of_nodup_append nodup
      simp only [Code.ids, List.length_append] at low
      refine .bind (foretold.tells sound here nodup.of_append_left (by omega)) sound
        (foretold.steady stmt) (foretold.steady_behindStmt rest) ?_
      rintro _ middle drawn ⟨rfl, first⟩
      obtain ⟨newHead, left, sameHead⟩ := first.shows_
      have aborts : middle.arena.isAborting stmt = head.aborts := by
        have nodupNew : newHead.ids.Nodup :=
          nodup.of_append_left.sublist (Code.ids_sublist_of_flat sameHead)
        rw [← Code.aborts_of_flat sameHead]
        exact (Arena.Shows.present left).isAborting_eq nodupNew
      have own : head.standsAlone = true → head.isFlat = true →
          (middle.arena.block? stmt).getD [stmt] = [stmt] := by
        intro alone flat
        have still : newHead.standsAlone = true := by
          rw [← Code.standsAlone_bare, sameHead, Code.flat_of_isFlat flat,
            Code.standsAlone_bare, alone]
        rw [left.block?_eq_none still]
        rfl
      rw [Tells.arenaHere_bind, aborts]
      dsimp only
      split
      · -- Notice is given of statements behind one that control never runs past.
        cases others with
        | nil =>
          rw [if_pos rfl]
          refine .pure drawn.sound
            ⟨fun flat => ?_, first.widen (by simp [Code.ids]) (by simp +contextual [Code.isFlat]),
              _, left.contents, Code.bare_splice sameHead rfl⟩
          simp only [Code.isFlat, Bool.and_eq_true] at flat
          exact own flat.1 flat.2.1
        | cons dead behind => exact .notice drawn.sound
      · refine .map (ih drawn.sound (first.beside others apart) nodup.of_append_right (by omega)) ?_
          fun _ none_ => none_
        rintro kept after _ ⟨whole, second⟩
        refine ⟨fun flat => ?_, (first.trans second.toStays).widen (by simp [Code.ids])
          (by simp +contextual [Code.isFlat]), ?_⟩
        · simp only [Code.isFlat, Bool.and_eq_true] at flat
          rw [own flat.1 flat.2.1, whole flat.2.2]
          rfl
        · obtain ⟨newTail, tailShows, sameTail⟩ := second.shows_
          have beside : (newHead.contents.append .nil).ids.Disjoint tail.ids := by
            rw [Code.ids_append, Code.ids, List.append_nil]
            exact fun node held mem =>
              apart ((Code.ids_sublist_of_flat sameHead).subset
                ((Code.ids_contents_sublist newHead).subset held)) mem
          have both := (second.keep left.contents beside).append tailShows
          rw [Code.append_assoc, Code.append_nil_left] at both
          exact ⟨_, both, Code.bare_splice sameHead sameTail⟩

/-- A block that nothing is left of is removed with a notice. -/
theorem tells_rewriteBlock (sound : walk.toSite.Sound)
    (found : walk.arena.stmt? id = some (.block stmts))
    (shows_ : walk.arena.Shows (.row .stmt stmts) row) (nodup : (Code.block id row).ids.Nodup)
    (low : row.ids.length ≤ depth) :
    TellsRewrite (rewriteBlock visit id stmts) walk id (.block id row) := by
  obtain ⟨free, nodupRow⟩ := List.nodup_cons.1 nodup
  refine .bind (foretold.tells_rewriteStmts sound shows_ nodupRow low) sound
    (foretold.steady_rewriteStmts stmts) (fun kept => ?_) ?_
  · cases kept with
    | nil => exact .pure
    | cons node rest => exact .bind (.editStmt id _) fun _ => .pure
  rintro kept after drawn ⟨whole, spliced⟩
  obtain ⟨newRow, left, same⟩ := spliced.shows_
  cases kept with
  | nil =>
    cases left
    rw [if_pos (Code.bare_eq_nil _ |>.1 same.symm)]
    exact .due drawn.sound rfl
  | cons node rest =>
    have something : row.flat ≠ .nil := by
      intro nothing
      rw [nothing] at same
      cases left
      cases same
    rw [if_neg something]
    dsimp only
    rw [Tells.editStmt_bind]
    have foundNow := (spliced.stmt?_eq free).trans found
    have edited := Arena.Stays.mapStmt foundNow (.withStmts (node :: rest))
      fun flat : row.isFlat = true => by rw [whole flat]; rfl
    refine .pure drawn.sound
      ⟨rfl, (spliced.above edited).widen (by simp [Code.ids]) (by simp [Code.isFlat]), ?_⟩
    obtain ⟨newRow, left, same⟩ := spliced.shows_.keep_of_free edited free
    refine ⟨.block id newRow, .block (Arena.stmt?_mapStmt_self foundNow _) left, ?_⟩
    simp only [Code.flat, Code.bare, same]

end Foretold

end Walk

end ValueFlow
