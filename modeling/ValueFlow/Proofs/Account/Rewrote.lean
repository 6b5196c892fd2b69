import ValueFlow.Proofs.Account.Changes
import ValueFlow.Proofs.Account.Paths
import ValueFlow.Proofs.Notices
import ValueFlow.Proofs.Tree.Weight

/-!
# What a part of a walk has done

A part of a walk has moved the site and changed the arena (`Walk.Passed`), and what it leaves of a
tree has an account in every ledger that closes the part (`Walk.Rewrote`). Parts that stand side by
side are put together (`Passed.append`), and then the node above them is changed (`Passed.above`).

Each notice that a part gave, or owes, stands for some weight that it took from the tree
(`Walk.Pays`).
-/

namespace ValueFlow
set_option autoImplicit false

/-- How many notices are still to be given of an answer. -/
def Rewritten.owed {α : Type} (answer : Rewritten α) : Nat := if answer.edit.isSome then 1 else 0

@[simp] theorem Rewritten.owed_unchanged {α : Type} (node : α) :
    (Rewritten.unchanged node).owed = 0 :=
  rfl

@[simp] theorem Rewritten.owed_changed {α : Type} (node : α) (tag : EditTag) (message : String) :
    (Rewritten.changed node tag message).owed = 1 := rfl

namespace Walk

/-- The notices that a part of a walk gave, and those that are still owed, weigh no more than what
it took from the tree. -/
def Pays (before : Walk) (code : Code) (owed : Nat) (after : Walk) (newCode : Code) : Prop :=
  after.analysis.edits.size + owed + newCode.weight ≤ before.analysis.edits.size + code.weight

/-- A part of a walk has moved the site, changed nodes of some ids, and left others. A node was
noted at most once. -/
structure Passed (before : Walk) (old : List NodeId) (after : Walk) (left : List NodeId) (breaks : List Scope)
    (notes : List Note) : Prop where
  moved : before.toSite.Moved after.toSite breaks notes
  changes : before.arena.Changes old after.arena left
  noted : ∀ note ∈ notes, note.node ∈ old
  distinct : (notes.map (·.node)).Nodup

/-- A part of a walk has rewritten a tree, and what is left stands at a place. -/
structure Rewrote (before : Walk) (code : Code) (after : Walk) (place : Place) (newCode : Code) (breaks : List Scope)
    (notes : List Note) : Prop extends Passed before code.ids after newCode.ids breaks notes where
  shows_ : after.arena.Shows place newCode
  ordered : (notes.filterMap Note.write?).Sublist code.writes
  walks : ∀ ledger : Ledger, ledger.Closes before.analysis after.analysis notes →
    ledger.Walks code before.scope.versionOf newCode after.scope.versionOf (breaks.map Scope.versionOf)

variable {before middle after : Walk} {old left more rest : List NodeId} {breaks out : List Scope}
  {notes others : List Note} {id : NodeId}

namespace Passed

/-- Nothing was done. -/
theorem idle (sound : before.toSite.Sound) (inside : ∀ id ∈ old, id < before.arena.size)
    (nodup : old.Nodup) :
    before.Passed old before old [] [] where
  moved := .refl sound
  changes := .refl inside nodup
  noted := by simp
  distinct := .nil

/-- Less may be left. -/
theorem sublist (passed : before.Passed old after left breaks notes) (sub : rest.Sublist left) :
    before.Passed old after rest breaks notes :=
  { passed with changes := passed.changes.sublist sub }

/-- More may count as changed. -/
theorem widen (passed : before.Passed old after left breaks notes) (sub : old ⊆ more) :
    before.Passed more after left breaks notes :=
  { passed with
    changes := passed.changes.widen sub, noted := fun note mem => sub (passed.noted note mem) }

/-- Two parts side by side. -/
theorem append (first : before.Passed old middle left breaks notes)
    (second : middle.Passed more after rest out others)
    (inside : ∀ id ∈ more, id < before.arena.size) (apart : old.Disjoint more) :
    before.Passed (old ++ more) after (left ++ rest) (breaks ++ out) (notes ++ others) where
  moved := first.moved.trans second.moved
  changes := first.changes.append second.changes inside apart
  noted note mem := by
    rcases List.mem_append.1 mem with mem | mem
    · exact List.mem_append_left _ (first.noted note mem)
    · exact List.mem_append_right _ (second.noted note mem)
  distinct := by
    rw [List.map_append]
    refine List.nodup_append.2 ⟨first.distinct, second.distinct, ?_⟩
    rintro _ memFirst _ memSecond rfl
    obtain ⟨note, mem, rfl⟩ := List.mem_map.1 memFirst
    obtain ⟨other, memOther, same⟩ := List.mem_map.1 memSecond
    exact apart (first.noted note mem) (same ▸ second.noted other memOther)

/-- The site has moved on, and the node above was changed and noted. -/
theorem above (passed : before.Passed old middle left breaks notes)
    (moved : middle.toSite.Moved after.toSite out others) (one : others.length ≤ 1)
    (here : ∀ note ∈ others, note.node = id) (inside : id < before.arena.size) (free : id ∉ old)
    (size : after.arena.size = middle.arena.size)
    (same : ∀ other, other ≠ id → after.arena.node? other = middle.arena.node? other) :
    before.Passed (id :: old) after (id :: left) (breaks ++ out) (notes ++ others) where
  moved := passed.moved.trans moved
  changes := passed.changes.edit inside free size same
  noted note mem := by
    rcases List.mem_append.1 mem with mem | mem
    · exact List.mem_cons_of_mem _ (passed.noted note mem)
    · rw [here note mem]
      exact List.mem_cons_self
  distinct := by
    rw [List.map_append]
    have single : (others.map (·.node)).Nodup := by
      match others, one with
      | [], _ => exact .nil
      | [note], _ => simp
    refine List.nodup_append.2 ⟨passed.distinct, single, ?_⟩
    rintro _ memFirst _ memSecond rfl
    obtain ⟨note, mem, rfl⟩ := List.mem_map.1 memFirst
    obtain ⟨other, memOther, same⟩ := List.mem_map.1 memSecond
    rw [here other memOther] at same
    exact free (same ▸ passed.noted note mem)

/-- The site has moved on, and the node above was changed. -/
theorem under (passed : before.Passed old middle left breaks notes)
    (moved : middle.toSite.Moved after.toSite [] []) (inside : id < before.arena.size)
    (free : id ∉ old) (size : after.arena.size = middle.arena.size)
    (same : ∀ other, other ≠ id → after.arena.node? other = middle.arena.node? other) :
    before.Passed (id :: old) after (id :: left) breaks notes := by
  simpa using passed.above moved (by simp) (by simp) inside free size same

/-- The site has moved on by itself. -/
theorem settle (passed : before.Passed old middle left breaks notes)
    (moved : middle.toSite.Moved after.toSite [] []) (same : after.arena = middle.arena) :
    before.Passed old after left breaks notes :=
  { passed with
    moved := by simpa using passed.moved.trans moved
    changes := same ▸ passed.changes }

/-- The statement above was edited. -/
theorem editStmt (passed : before.Passed old after left breaks notes) {stmt : Stmt}
    (found : before.arena.stmt? id = some stmt) (free : id ∉ old) (edit : Stmt → Stmt) :
    before.Passed (id :: old) { after with arena := after.arena.mapStmt id edit }
      (id :: left) breaks notes :=
  passed.under (.refl passed.moved.sound) (Arena.lt_size_of_stmt? found) free
    (Arena.size_mapStmt _ _ _) fun _ apart => Arena.node?_mapStmt_of_ne _ apart _

/-- A node was added above what is left. -/
theorem push (passed : before.Passed old after left breaks notes) (node : Node) (span : Span) :
    before.Passed old { after with arena := after.arena.push node span }
      (after.arena.size :: left) breaks notes :=
  { passed with changes := passed.changes.push node span }

/-- The node above is not one of those below. -/
theorem not_mem (passed : before.Passed old after (id :: left) breaks notes) : id ∉ left :=
  (List.nodup_cons.1 passed.changes.nodup).1

/-- What stands beside a part stays as it is. -/
theorem keep (passed : before.Passed old after left breaks notes) {place : Place} {code : Code}
    (shows_ : before.arena.Shows place code) (apart : code.ids.Disjoint old) :
    after.arena.Shows place code :=
  passed.changes.keep shows_ apart

/-- The statement above a part stays as it is. -/
theorem stmt?_eq (passed : before.Passed old after left breaks notes) {stmt : Stmt}
    (found : before.arena.stmt? id = some stmt) (free : id ∉ old) :
    after.arena.stmt? id = some stmt :=
  passed.changes.stmt?_eq found free

theorem expr?_eq (passed : before.Passed old after left breaks notes) {expr : Expr}
    (found : before.arena.expr? id = some expr) (free : id ∉ old) :
    after.arena.expr? id = some expr :=
  passed.changes.expr?_eq found free

end Passed

namespace Rewrote

variable {code newCode head tail newHead newTail : Code} {place headPlace tailPlace : Place}
  {class_ : NodeClass}

/-- Notices, reads and other looks behind a part do not concern its account. -/
theorem settle (rewrote : before.Rewrote code middle place newCode breaks notes)
    (quiet : middle.toSite.Quiet after.toSite) (same : after.arena = middle.arena) :
    before.Rewrote code after place newCode breaks notes where
  toPassed := rewrote.toPassed.settle quiet.toMoved same
  shows_ := same ▸ rewrote.shows_
  ordered := rewrote.ordered
  walks ledger closes := by
    rw [quiet.same]
    exact rewrote.walks ledger { closes with traces := quiet.grows.traces.trans closes.traces }

/-- What is left of a part stays as it is where the next part is beside it. -/
theorem beside (first : before.Rewrote code middle place newCode breaks notes)
    (second : middle.Passed more after rest out others)
    (inside : ∀ id ∈ more, id < before.arena.size) (apart : code.ids.Disjoint more) :
    after.arena.Shows place newCode :=
  second.keep first.shows_ (first.changes.disjoint inside apart)

/-- What is left of an end of a row, or of an absent arm, is nothing. -/
theorem nil (sound : before.toSite.Sound) (shows_ : before.arena.Shows place .nil) :
    before.Rewrote .nil before place .nil [] [] where
  toPassed := .idle sound nofun .nil
  shows_ := shows_
  ordered := .slnil
  walks _ _ := .still rfl

/-- A row was rewritten: first its head, of which nothing aborting is left, then its tail. -/
theorem through (first : before.Rewrote head middle headPlace newHead breaks notes)
    (goes : newHead.aborts = false)
    (second : middle.Rewrote tail after tailPlace newTail out others)
    (apart : head.ids.Disjoint tail.ids) (inside : ∀ id ∈ tail.ids, id < before.arena.size)
    (shows_ : after.arena.Shows place (newHead.contents.append newTail)) :
    before.Rewrote (.cons head tail) after place (newHead.contents.append newTail) (breaks ++ out)
      (notes ++ others) where
  toPassed := by
    refine (first.toPassed.append second.toPassed inside apart).sublist ?_
    rw [Code.ids_append]
    exact (Code.ids_contents_sublist newHead).append_right _
  shows_ := shows_
  ordered := by
    rw [List.filterMap_append]
    exact first.ordered.append second.ordered
  walks ledger closes := by
    rw [List.map_append]
    exact .through (first.walks ledger (closes.early second.moved.grows)) goes
      (second.walks ledger (closes.late first.moved.grows))

/-- A row was rewritten up to a statement of which an aborting one is left. -/
theorem dead (first : before.Rewrote head after headPlace newHead breaks notes)
    (stops : newHead.aborts = true)
    (shows_ : after.arena.Shows place (newHead.contents.append .nil)) :
    before.Rewrote (.cons head tail) after place (newHead.contents.append .nil) breaks notes where
  toPassed := by
    refine (first.toPassed.widen (List.subset_append_left _ _)).sublist ?_
    rw [Code.ids_append]
    simpa [Code.ids] using Code.ids_contents_sublist newHead
  shows_ := shows_
  ordered := first.ordered.trans (List.sublist_append_left _ _)
  walks ledger closes := .dead (first.walks ledger closes) stops

end Rewrote

namespace Pays

variable {code head tail newCode newHead newTail : Code} {owed : Nat}

/-- What comes behind a part may leave the notices as they are. -/
theorem settle (paid : before.Pays code owed middle newCode)
    (same : after.analysis.edits = middle.analysis.edits) :
    before.Pays code owed after newCode := by
  unfold Pays
  rw [same]
  exact paid

/-- The notice is given that was owed. -/
theorem signalled (paid : before.Pays code owed middle newCode)
    (noticed : after.analysis.edits.size = middle.analysis.edits.size + owed) :
    before.Pays code 0 after newCode := by
  unfold Pays at *
  omega

/-- The tail of a row pays for the notice that it is dead. -/
theorem dead (first : before.Pays head 0 middle newHead)
    (noticed : after.analysis.edits.size ≤ middle.analysis.edits.size + tail.weight) :
    before.Pays (.cons head tail) 0 after (newHead.contents.append .nil) := by
  have brought := newHead.weight_contents_le
  unfold Pays at *
  rw [Code.weight, Code.weight_append, Code.weight]
  omega

/-- A row pays if its head and its tail do. To put the statements of a block into the row costs
nothing. -/
theorem through (first : before.Pays head 0 middle newHead)
    (second : middle.Pays tail 0 after newTail) :
    before.Pays (.cons head tail) 0 after (newHead.contents.append newTail) := by
  have brought := newHead.weight_contents_le
  unfold Pays at *
  rw [Code.weight, Code.weight_append]
  omega

end Pays

section Lifts

variable {α : Type} {walk : Walk} {act : SiteM α} {well : α → Site → Prop}

/-- An operation on the site that is discreet gives no notice. -/
theorem gives_liftDiscreet (gives : Gives act walk.toSite well) (discreet : Site.IsDiscreet act) :
    Gives (liftM act : WalkM α) walk fun value after =>
      well value after.toSite ∧ after.arena = walk.arena ∧
        after.analysis.edits = walk.analysis.edits :=
  ends_liftSite.2
    (Gives.mono (gives.and (discreet walk.toSite).gives) fun _ _ told => ⟨told.1, rfl, told.2⟩)

theorem gives_signal (sound : walk.toSite.Sound) (id : NodeId) (edit : Option Edit) :
    Gives (signal id edit) walk fun _ after => walk.toSite.Quiet after.toSite ∧
      after.arena = walk.arena ∧
      after.analysis.edits.size = walk.analysis.edits.size + if edit.isSome then 1 else 0 := by
  cases edit with
  | none => exact .pure ⟨.refl sound, rfl, rfl⟩
  | some edit =>
    exact ⟨Site.quiet_unseen sound walk.analysis.dynamicNames (EditLog.size_le_signal _ _ _), rfl,
      EditLog.size_signal _ _ _⟩

/-- A look is quiet, and counted. -/
theorem gives_look (sound : walk.toSite.Sound) (var : VarId) :
    Gives (liftM (Site.read var) : WalkM Unit) walk fun _ after =>
      (walk.toSite.Quiet after.toSite ∧
        after.analysis.traces.IsCounted ⟨var, walk.scope.versionOf var⟩) ∧
        after.arena = walk.arena ∧
        after.analysis.edits = walk.analysis.edits := by
  have looked : Gives (Site.read var) walk.toSite fun _ after =>
      walk.toSite.Quiet after ∧ after.analysis.traces.IsCounted ⟨var, walk.scope.versionOf var⟩ :=
    ((Site.ends_read sound var).gives.and (Site.gives_read_counted sound var)).mono fun _ _ told =>
      ⟨told.1.quiet, told.2⟩
  exact gives_liftDiscreet looked (Site.discreet_read var)

/-- If the node is a read, it is counted. -/
theorem gives_countRead (sound : walk.toSite.Sound) (id : NodeId) :
    Gives (countRead id) walk fun _ after => walk.toSite.Quiet after.toSite ∧
      after.arena = walk.arena ∧
      after.analysis.edits = walk.analysis.edits ∧
      ∀ var version, walk.arena.expr? id = some (.read var version) →
        after.analysis.traces.IsCounted ⟨var, walk.scope.versionOf var⟩ := by
  unfold countRead
  rw [gives_arenaHere_bind]
  split
  · rename_i var _ found
    refine .bind (gives_look sound var) fun _ middle told => ?_
    obtain ⟨⟨quiet, counted⟩, still, unnoticed⟩ := told
    have asked : Gives (fallback? var) middle fun _ after => after = middle := rfl
    refine .bind asked ?_
    rintro other last rfl
    have here : ∀ other version, walk.arena.expr? id = some (.read other version) →
        last.analysis.traces.IsCounted ⟨other, walk.scope.versionOf other⟩ := by
      intro other version again
      rw [found] at again
      obtain ⟨rfl, -⟩ := Expr.read.inj (Option.some.inj again)
      exact counted
    split
    · refine (gives_look quiet.sound _).mono fun _ _ late => ?_
      obtain ⟨⟨further, -⟩, same, unseen⟩ := late
      refine ⟨quiet.trans further, same.trans still, unseen.trans unnoticed, ?_⟩
      exact fun other version again => further.grows.uses.counted _ (here other version again)
    · exact .pure ⟨quiet, still, unnoticed, here⟩
  · rename_i noRead
    exact .pure ⟨.refl sound, rfl, rfl, fun var version found => absurd found (noRead var version)⟩

end Lifts

end Walk

end ValueFlow
