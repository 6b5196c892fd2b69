import ValueFlow.Proofs.Account.Changes
import ValueFlow.Proofs.Normal.Annotated
import ValueFlow.Proofs.Normal.Code
import ValueFlow.Proofs.Routing.Registries

/-!
# What a walk leaves, what it has entered, and what it has noted

A part of a walk changes nodes of the arena, enters exits and adds to the log (`Walk.Altered`).
Where a tree stood it leaves a normal one, has entered as many exits of each kind as are left in
that, and the notes in it account for what the log has gained (`Walk.Reshaped`). Nothing is asked of
the site at which it started. What is done beside, at the scope and short of a write and a read,
leaves the arena and the registries alone and needs no note (`Walk.Spares`).
-/

namespace ValueFlow
set_option autoImplicit false

/-- How many exits of a kind are in the tree. -/
def Code.exitCount (code : Code) (kind : ExitKind) : Nat := (code.exitNodes kind).length

/-- There is no exit in an expression. -/
theorem Arena.Shows.exitCount_of_exprs {arena : Arena} {place : Place} {code : Code}
    (shows_ : arena.Shows place code) (exprs : place.stmts = []) (kind : ExitKind) :
    code.exitCount kind = 0 := by
  have none_ : code.exitNodes kind = [] :=
    (shows_.exitNodes_eq_nil_iff (Nat.le_refl _)).2 (by rw [exprs]; rfl)
  rw [Code.exitCount, none_, List.length_nil]

namespace Walk

/-- The arena and the registries are as they were, and no note is due. -/
structure Spared (before after : Walk) : Prop where
  arena : after.arena = before.arena
  exits : after.analysis.exits = before.analysis.exits
  notes : before.analysis.Annotates [] after.analysis

theorem Spared.refl (walk : Walk) : walk.Spared walk := ⟨rfl, rfl, .refl _⟩

/-- The computation leaves the arena and the registries as they are, and asks for no note. -/
def Spares {α : Type} (act : WalkM α) : Prop := ∀ walk, Gives act walk fun _ after => walk.Spared after

namespace Spares

variable {α : Type}

theorem pure (value : α) : Spares (Pure.pure value) := fun walk => .pure (.refl walk)

/-- What is done at a scope is told by the log and the registries. -/
theorem lift {act : SiteM α}
    (keeps : Site.Keeps
      (fun before after => after.exits = before.exits ∧ before.Annotates [] after) act) :
    Spares (liftM act : WalkM α) :=
  fun walk => (gives_lift (keeps walk.toSite).gives).mono fun _ _ told =>
    ⟨told.2, told.1.1, told.1.2⟩

theorem signal (id : NodeId) (edit : Option Edit) : Spares (signal id edit) := by
  cases edit with
  | none => exact .pure _
  | some edit => exact fun _ => ⟨rfl, rfl, .of_log rfl rfl⟩

theorem signalDead (dead : List NodeId) : Spares (signalDead dead) := by
  cases dead with
  | nil => exact .pure _
  | cons first _ => exact signal first (some ⟨.statements, _⟩)

theorem joinBehind (yes no : Arm) : Spares (joinBehind yes no) := by
  unfold Walk.joinBehind
  split
  · exact .pure _
  · exact .pure _
  · exact .pure _
  · exact .lift (annotates_quiet.join _)
  · exact .lift (annotates_quiet.join _)
  · exact .lift (annotates_quiet.joinArms _ _)

theorem joinBreaks (breaks : List Scope) : Spares (joinBreaks breaks) := by
  cases breaks with
  | nil => exact .pure _
  | cons => exact .lift (annotates_quiet.join _)

end Spares

/-- A part of a walk has changed nodes of some ids and left others, has entered this many exits, and
has added to the log what these notes tell of. -/
structure Altered (before : Walk) (old : List NodeId) (after : Walk) (left : List NodeId) (count : ExitKind → Nat)
    (notes : List NodeNote) : Prop where
  changes : before.arena.Changes old after.arena left
  counts : before.analysis.exits.Counts count after.analysis.exits
  noted : before.analysis.Annotates notes after.analysis

/-- A part of a walk has left a normal tree where one stood, has entered as many exits as are in it,
and has added to the log what the notes in it tell of. -/
structure Reshaped (before : Walk) (code : Code) (after : Walk) (place : Place) (newCode : Code) : Prop
    extends Altered before code.ids after newCode.ids newCode.exitCount newCode.notes where
  shows_ : after.arena.Shows place newCode
  normal : newCode.IsNormal

variable {before middle after : Walk} {old left more rest : List NodeId}
  {count others : ExitKind → Nat} {id : NodeId} {notes moreNotes : List NodeNote}

namespace Altered

/-- Nothing was done. -/
theorem idle (inside : ∀ id ∈ old, id < before.arena.size) (nodup : old.Nodup) :
    before.Altered old before old (fun _ => 0) [] :=
  ⟨.refl inside nodup, .refl _, .refl _⟩

/-- Less may be left. -/
theorem sublist (altered : before.Altered old after left count notes) (sub : rest.Sublist left) :
    before.Altered old after rest count notes :=
  { altered with changes := altered.changes.sublist sub }

/-- More may count as changed. -/
theorem widen (altered : before.Altered old after left count notes) (sub : old ⊆ more) :
    before.Altered more after left count notes :=
  { altered with changes := altered.changes.widen sub }

theorem congr (altered : before.Altered old after left count notes)
    (same : ∀ kind, others kind = count kind) :
    before.Altered old after left others notes :=
  { altered with counts := altered.counts.congr same }

theorem renote (altered : before.Altered old after left count notes) (same : moreNotes = notes) :
    before.Altered old after left count moreNotes :=
  same ▸ altered

/-- Two parts side by side. -/
theorem append (first : before.Altered old middle left count notes)
    (second : middle.Altered more after rest others moreNotes)
    (inside : ∀ id ∈ more, id < before.arena.size) (apart : old.Disjoint more) :
    before.Altered (old ++ more) after (left ++ rest) (fun kind => count kind + others kind)
      (notes ++ moreNotes) :=
  ⟨first.changes.append second.changes inside apart, first.counts.trans second.counts,
    first.noted.trans second.noted⟩

/-- More exits were entered, and that is all. -/
theorem enter (altered : before.Altered old middle left count notes)
    (same : after.arena = middle.arena)
    (counts : middle.analysis.exits.Counts others after.analysis.exits)
    (log : middle.analysis.Annotates [] after.analysis) :
    before.Altered old after left (fun kind => count kind + others kind) notes :=
  ⟨same ▸ altered.changes, altered.counts.trans counts, altered.noted.quiet_after log⟩

/-- More was added to the log, of which these notes tell, and that is all. -/
theorem note (altered : before.Altered old middle left count notes)
    (same : after.arena = middle.arena) (still : after.analysis.exits = middle.analysis.exits)
    (noted : middle.analysis.Annotates moreNotes after.analysis) :
    before.Altered old after left count (notes ++ moreNotes) :=
  ⟨same ▸ altered.changes, still ▸ altered.counts, altered.noted.trans noted⟩

/-- What spares the arena and the registries does not show. -/
theorem spared (altered : before.Altered old middle left count notes)
    (spared : middle.Spared after) :
    before.Altered old after left count notes :=
  ⟨spared.arena ▸ altered.changes, spared.exits ▸ altered.counts,
    altered.noted.quiet_after spared.notes⟩

/-- The statement above was edited. -/
theorem editStmt (altered : before.Altered old after left count notes) {stmt : Stmt}
    (found : before.arena.stmt? id = some stmt) (free : id ∉ old) (edit : Stmt → Stmt) :
    before.Altered (id :: old) { after with arena := after.arena.mapStmt id edit }
      (id :: left) count notes :=
  ⟨altered.changes.editStmt found free edit, altered.counts, altered.noted⟩

/-- The expression above was edited. -/
theorem editExpr (altered : before.Altered old after left count notes) {expr : Expr}
    (found : before.arena.expr? id = some expr) (free : id ∉ old) (edit : Expr → Expr) :
    before.Altered (id :: old) { after with arena := after.arena.mapExpr id edit }
      (id :: left) count notes :=
  ⟨altered.changes.editExpr found free edit, altered.counts, altered.noted⟩

/-- A node was added above what is left. -/
theorem push (altered : before.Altered old after left count notes) (node : Node) (span : Span) :
    before.Altered old { after with arena := after.arena.push node span }
      (after.arena.size :: left) count notes :=
  ⟨altered.changes.push node span, altered.counts, altered.noted⟩

/-- The node above is not one of those below. -/
theorem not_mem (altered : before.Altered old after (id :: left) count notes) : id ∉ left :=
  (List.nodup_cons.1 altered.changes.nodup).1

/-- The statement above was edited, and stands above what is left. -/
theorem above {code newCode above newAbove : Code} {place : Place}
    (altered : before.Altered code.ids after newCode.ids newCode.exitCount notes)
    (shows_ : after.arena.Shows place newCode) {stmt : Stmt}
    (found : before.arena.stmt? id = some stmt) (edit : Stmt → Stmt)
    (ids : above.ids = id :: code.ids) (newIds : newAbove.ids = id :: newCode.ids)
    (nodup : above.ids.Nodup) (count : ∀ kind, newAbove.exitCount kind = newCode.exitCount kind)
    (same : newAbove.notes.Perm notes)
    (stands : ∀ {arena : Arena}, arena.stmt? id = some (edit stmt) → arena.Shows place newCode →
      arena.Shows (.one .stmt id) newAbove)
    (normal : newAbove.IsNormal) :
    before.Reshaped above { after with arena := after.arena.mapStmt id edit }
      (.maybe .stmt (some id)) newAbove := by
  have free : id ∉ code.ids := (List.nodup_cons.1 (ids ▸ nodup)).1
  have edited := altered.editStmt found free edit
  have settled := edited.congr count
  exact {
    toAltered := ids ▸ newIds ▸ ⟨settled.changes, settled.counts, settled.noted.perm same.symm⟩
    shows_ := .present (stands (Arena.stmt?_mapStmt_self (altered.changes.stmt?_eq found free) edit)
      (shows_.mapStmt edited.not_mem edit))
    normal := normal }

end Altered

namespace Reshaped

variable {code newCode head tail newHead newTail : Code} {place headPlace tailPlace : Place}

/-- A normal tree without exits and notes was left as it is. -/
theorem idle (shows_ : before.arena.Shows place code) (nodup : code.ids.Nodup)
    (normal : code.IsNormal) (none_ : ∀ kind, code.exitCount kind = 0) (bare : code.notes = []) :
    before.Reshaped code before place code where
  toAltered := ((Altered.idle shows_.inside nodup).congr none_).renote bare
  shows_ := shows_
  normal := normal

/-- What spares the arena and the registries does not show. -/
theorem spared (reshaped : before.Reshaped code middle place newCode)
    (spared : middle.Spared after) :
    before.Reshaped code after place newCode where
  toAltered := reshaped.toAltered.spared spared
  shows_ := spared.arena ▸ reshaped.shows_
  normal := reshaped.normal

/-- What is left of a part stays as it is where the next part is beside it. -/
theorem beside (first : before.Reshaped code middle place newCode)
    (second : middle.Altered more after rest others notes)
    (inside : ∀ id ∈ more, id < before.arena.size) (apart : code.ids.Disjoint more) :
    after.arena.Shows place newCode :=
  second.changes.keep first.shows_ (first.changes.disjoint inside apart)

/-- Two parts that stand side by side. -/
theorem append (first : before.Reshaped head middle headPlace newHead)
    (second : middle.Reshaped tail after tailPlace newTail)
    (inside : ∀ id ∈ tail.ids, id < before.arena.size) (apart : head.ids.Disjoint tail.ids) :
    before.Altered (head.ids ++ tail.ids) after (newHead.ids ++ newTail.ids)
      (fun kind => newHead.exitCount kind + newTail.exitCount kind)
      (newHead.notes ++ newTail.notes) :=
  first.toAltered.append second.toAltered inside apart

/-- A row was rewritten: first its head, of which nothing aborting is left, then its tail. -/
theorem through (first : before.Reshaped head middle headPlace newHead)
    (goes : newHead.aborts = false)
    (form : newHead.contents.isRow = true ∨ newHead.contents.standsAlone = true)
    (second : middle.Reshaped tail after tailPlace newTail)
    (inside : ∀ id ∈ tail.ids, id < before.arena.size) (apart : head.ids.Disjoint tail.ids)
    (shows_ : after.arena.Shows place (newHead.contents.append newTail)) :
    before.Reshaped (.cons head tail) after place (newHead.contents.append newTail) where
  toAltered := by
    refine (((first.append second inside apart).sublist ?_).congr fun kind => ?_).renote ?_
    · rw [Code.ids_append]
      exact (Code.ids_contents_sublist newHead).append_right _
    · simp only [Code.exitCount, Code.exitNodes_append, Code.exitNodes_contents, List.length_append]
    · rw [Code.notes_append, Code.notes_contents]
  shows_ := shows_
  normal := first.normal.contents.append form (by simp [goes]) second.normal

/-- A row was rewritten up to a statement of which an aborting one is left. -/
theorem dead (first : before.Reshaped head after headPlace newHead)
    (form : newHead.contents.isRow = true ∨ newHead.contents.standsAlone = true)
    (shows_ : after.arena.Shows place (newHead.contents.append .nil)) :
    before.Reshaped (.cons head tail) after place (newHead.contents.append .nil) where
  toAltered := by
    refine (((first.toAltered.widen (List.subset_append_left _ _)).sublist ?_).congr
      fun kind => ?_).renote ?_
    · rw [Code.ids_append]
      simpa [Code.ids] using Code.ids_contents_sublist newHead
    · simp only [Code.exitCount, Code.exitNodes_append, Code.exitNodes_contents, Code.exitNodes,
        List.append_nil]
    · simp [Code.notes_append, Code.notes]
  shows_ := shows_
  normal := first.normal.contents.append form (fun _ => rfl) trivial

end Reshaped

end Walk

end ValueFlow
