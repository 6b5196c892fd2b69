import ValueFlow.Proofs.Arena.Bare
import ValueFlow.Proofs.Integrity.Join

/-!
# The same versions under other numbers

Two runs that start from other counters number the versions of a variable differently. A version of
the one stands for a version of the other if both are the entry version, or if both are the first,
the second, and so on that was handed out (`Numbering.Same`). That keeps the order of versions.
Origins, traces, logs, scopes, registries and states are the same but for their numbers if what they
hold is.

Arenas carry versions as notes. Those that a run has not touched are whatever they were, so two
arenas are compared from where they started (`Numbering.SameArenas`).
-/

namespace ValueFlow
set_option autoImplicit false

/-- The counters that two runs start from. -/
structure Numbering where
  left : VarId → Version
  right : VarId → Version

/-- Versions of the two runs that stand for each other. -/
inductive Numbering.Same (numbering : Numbering) (var : VarId) : Version → Version → Prop
  | entry : numbering.Same var .entry .entry
  | handedOut (count : Nat) : numbering.Same var (numbering.left var + (count + 1)) (numbering.right var + (count + 1))

namespace Numbering.Same

variable {numbering : Numbering} {var : VarId} {first second other : Version}
  {firstRight secondRight : Version}

theorem lt_iff (one : numbering.Same var first firstRight)
    (two : numbering.Same var second secondRight) :
    firstRight < secondRight ↔ first < second := by
  cases one with
  | entry =>
    cases two with
    | entry => exact Iff.rfl
    | handedOut count => exact iff_of_true (Nat.succ_pos _) (Nat.succ_pos _)
  | handedOut count =>
    cases two with
    | entry => exact iff_of_false (Nat.not_lt_zero _) (Nat.not_lt_zero _)
    | handedOut later => exact Nat.add_lt_add_iff_left.trans Nat.add_lt_add_iff_left.symm

theorem eq_iff (one : numbering.Same var first firstRight)
    (two : numbering.Same var second secondRight) :
    firstRight = secondRight ↔ first = second := by
  have less := one.lt_iff two
  have greater := two.lt_iff one
  constructor
  · rintro rfl
    have apart := Nat.lt_irrefl firstRight
    exact Nat.le_antisymm (Nat.not_lt.1 fun above => apart (greater.2 above))
      (Nat.not_lt.1 fun below => apart (less.2 below))
  · rintro rfl
    have apart := Nat.lt_irrefl first
    exact Nat.le_antisymm (Nat.not_lt.1 fun above => apart (greater.1 above))
      (Nat.not_lt.1 fun below => apart (less.1 below))

end Numbering.Same

/-- Two increasing lists correspond item by item, if each item of either has a counterpart in the
other, and counterparts are in the same order. -/
theorem forall₂_of_increasing {same : Version → Version → Prop} {versions others : List Version}
    (ordered : ∀ {first second firstRight secondRight}, same first firstRight →
      same second secondRight → (firstRight < secondRight ↔ first < second))
    (sorted : versions.Pairwise (· < ·)) (sortedRight : others.Pairwise (· < ·))
    (forth : ∀ version ∈ versions, ∃ other ∈ others, same version other)
    (back : ∀ other ∈ others, ∃ version ∈ versions, same version other) :
    List.Forall₂ same versions others := by
  induction versions generalizing others with
  | nil =>
    cases others with
    | nil => exact .nil
    | cons other rest =>
      obtain ⟨_, mem, -⟩ := back other List.mem_cons_self
      cases mem
  | cons version rest ih =>
    cases others with
    | nil =>
      obtain ⟨_, mem, -⟩ := forth version List.mem_cons_self
      cases mem
    | cons other restRight =>
      obtain ⟨below, sorted⟩ := List.pairwise_cons.1 sorted
      obtain ⟨belowRight, sortedRight⟩ := List.pairwise_cons.1 sortedRight
      -- The least items correspond: each has a counterpart, and neither counterpart is less than
      -- the other's least.
      have heads : same version other := by
        obtain ⟨image, memImage, here⟩ := forth version List.mem_cons_self
        rcases List.mem_cons.1 memImage with rfl | later
        · exact here
        obtain ⟨source, memSource, there⟩ := back other List.mem_cons_self
        rcases List.mem_cons.1 memSource with rfl | laterSource
        · exact there
        have less := (ordered there here).1 (belowRight image later)
        exact absurd (Nat.lt_trans less (below source laterSource)) (Nat.lt_irrefl _)
      refine .cons heads (ih sorted sortedRight ?_ ?_)
      · intro item mem
        obtain ⟨image, memImage, here⟩ := forth item (List.mem_cons_of_mem _ mem)
        rcases List.mem_cons.1 memImage with rfl | later
        · exact absurd ((ordered heads here).2 (below item mem)) (Nat.lt_irrefl _)
        · exact ⟨image, later, here⟩
      · intro item mem
        obtain ⟨source, memSource, here⟩ := back item (List.mem_cons_of_mem _ mem)
        rcases List.mem_cons.1 memSource with rfl | later
        · exact absurd ((ordered heads here).1 (belowRight item mem)) (Nat.lt_irrefl _)
        · exact ⟨source, later, here⟩

/-- The origins are of one kind, and the versions in them correspond. -/
inductive Origin.Same (same : Version → Version → Prop) : Origin → Origin → Prop
  | unbound {previous other : Option Version} (here : Option.Rel same previous other) : Origin.Same same (.unbound previous) (.unbound other)
  | bound : Origin.Same same .bound .bound
  | unknown {previous other : Option Version} (here : Option.Rel same previous other) : Origin.Same same (.unknown previous) (.unknown other)
  | assigned (node : NodeId) {previous other : Version} (here : same previous other) :
    Origin.Same same (.assigned node previous) (.assigned node other)
  | joined {sources others : List Version} (here : List.Forall₂ same sources others) : Origin.Same same (.joined sources) (.joined others)

/-- The traces tell of corresponding origins, with the same notes of use. -/
structure Trace.Same (same : Version → Version → Prop) (trace other : Trace) : Prop where
  origin : Origin.Same same trace.origin other.origin
  reads : other.reads = trace.reads
  mayBeRead : other.mayBeRead = trace.mayBeRead
  released : other.released = trace.released
  escaped : other.escaped = trace.escaped

namespace Numbering

variable (numbering : Numbering)

/-- Keys of one variable, at versions that correspond. -/
def SameKeys (key other : TraceKey) : Prop := other.var = key.var ∧ numbering.Same key.var key.version other.version

/-- Corresponding versions have corresponding traces, and no other version has one. -/
structure SameTraces (left right : Traces) : Prop where
  found : ∀ {var version other}, numbering.Same var version other →
    Option.Rel (Trace.Same (numbering.Same var)) left[(⟨var, version⟩ : TraceKey)]? right[(⟨var, other⟩ : TraceKey)]?
  known : ∀ key ∈ left, ∃ other, numbering.Same key.var key.version other
  knownRight : ∀ key ∈ right, ∃ version, numbering.Same key.var version key.version

/-- The scopes have looked at the same variables, and hold them at corresponding versions. -/
structure SameScopes (left right : Scope) : Prop where
  label : right.label = left.label
  active : ∀ var, Option.Rel (numbering.Same var) left.active[var]? right.active[var]?

/-- The same variables, with counters that have gone equally far. -/
def SameSlots (var : VarId) (slot other : Variable) : Prop :=
  ∃ count, slot.lastVersion = numbering.left var + count ∧ other = { slot with lastVersion := numbering.right var + count }

/-- The states are the same but for the numbers of versions. -/
structure SameStates (left right : Analysis) : Prop where
  vars : ∀ var, Option.Rel (numbering.SameSlots var) (left.vars.get? var) (right.vars.get? var)
  options : right.options = left.options
  traces : numbering.SameTraces left.traces right.traces
  exits : ∀ kind, Option.Rel (List.Forall₂ numbering.SameScopes) (left.exits.get kind) (right.exits.get kind)
  dynamicNames : right.dynamicNames = left.dynamicNames
  edits : right.edits = left.edits

/-- The sites are the same but for the numbers of versions. -/
structure SameSites (left right : Site) : Prop where
  scope : numbering.SameScopes left.scope right.scope
  state : numbering.SameStates left.analysis right.analysis

end Numbering

/-- The version that is noted at a node, with the variable that it is one of. Only writes and reads
have a note. -/
def Node.note? : Node → Option (VarId × Option Version)
  | .stmt (.assign target _ version) => some (target, version)
  | .stmt (.delete target _ version) => some (target, version)
  | .expr (.read var version) => some (var, version)
  | _ => none

/-- The note under an id. -/
def Arena.note? (arena : Arena) (id : NodeId) : Option (VarId × Option Version) := (arena.node? id).bind (·.note?)

/-- The variable that the note under an id is about. -/
def Arena.noted? (arena : Arena) (id : NodeId) : Option VarId := (arena.note? id).map (·.1)

namespace Numbering

variable (numbering : Numbering)

/-- The versions noted at a node correspond. -/
def SameNotes (note other : Option (VarId × Option Version)) : Prop :=
  ∃ var version otherVersion, note = some (var, version) ∧ other = some (var, otherVersion) ∧
    Option.Rel (numbering.Same var) version otherVersion

/-- The arenas are the same up to versions. A note is about the variable that it was about at the
start, and is either as it was then on both sides, or was renewed on both sides, by versions that
correspond. -/
structure SameArenas (start startRight left right : Arena) : Prop where
  bare : left.bare = right.bare
  noted : ∀ id, left.noted? id = start.noted? id
  notes : ∀ id, left.note? id = start.note? id ∧ right.note? id = startRight.note? id ∨
    numbering.SameNotes (left.note? id) (right.note? id)

/-- The walks are the same but for the numbers of versions and for the notes from before. -/
structure SameWalks (start startRight : Arena) (left right : Walk) : Prop where
  sites : numbering.SameSites left.toSite right.toSite
  arenas : numbering.SameArenas start startRight left.arena right.arena

end Numbering

section Queries

variable {numbering : Numbering}

theorem isSome_of_rel {α β : Type} {same : α → β → Prop} {value : Option α} {other : Option β}
    (related : Option.Rel same value other) :
    other.isSome = value.isSome := by
  cases related <;> rfl

theorem exists_of_forall₂ {α β : Type} {same : α → β → Prop} {items : List α} {others : List β}
    (related : List.Forall₂ same items others) {item : α} (mem : item ∈ items) :
    ∃ other ∈ others, same item other := by
  induction related with
  | nil => cases mem
  | cons here _ ih =>
    rcases List.mem_cons.1 mem with rfl | later
    · exact ⟨_, List.mem_cons_self, here⟩
    · obtain ⟨other, memOther, same⟩ := ih later
      exact ⟨other, List.mem_cons_of_mem _ memOther, same⟩

namespace Origin.Same

variable {same : Version → Version → Prop} {origin other : Origin}

theorem isTransparent (related : Origin.Same same origin other) :
    other.isTransparent = origin.isTransparent := by
  cases related <;> rfl

theorem previous (related : Origin.Same same origin other) :
    List.Forall₂ same origin.previous other.previous := by
  cases related with
  | unbound here | unknown here =>
    cases here with
    | some here => exact .cons here .nil
    | none => exact .nil
  | bound => exact .nil
  | assigned node here => exact .cons here .nil
  | joined here => exact here

end Origin.Same

theorem Trace.Same.flagsOn {same : Version → Version → Prop} {trace other : Trace}
    (related : Trace.Same same trace other) :
    List.Forall₂ same trace.flagsOn other.flagsOn := by
  unfold Trace.flagsOn
  rw [related.origin.isTransparent]
  split
  · exact List.rel_reverse related.origin.previous
  · exact .nil

theorem Trace.Same.ofOrigin {same : Version → Version → Prop} {origin other : Origin}
    (related : Origin.Same same origin other) :
    Trace.Same same (.ofOrigin origin) (.ofOrigin other) := ⟨related, rfl, rfl, rfl, rfl⟩

namespace Numbering

variable {left right : Traces} {var : VarId} {version other : Version}

theorem SameTraces.mem_iff (traces : numbering.SameTraces left right)
    (same : numbering.Same var version other) :
    (⟨var, other⟩ : TraceKey) ∈ right ↔ (⟨var, version⟩ : TraceKey) ∈ left := by
  rw [Std.ExtTreeMap.mem_iff_isSome_getElem?, Std.ExtTreeMap.mem_iff_isSome_getElem?,
    isSome_of_rel (traces.found same)]

/-- Corresponding traces may be put under corresponding keys. -/
theorem SameTraces.insert (traces : numbering.SameTraces left right)
    (same : numbering.Same var version other) {trace image : Trace}
    (related : Trace.Same (numbering.Same var) trace image) :
    numbering.SameTraces (left.insert ⟨var, version⟩ trace) (right.insert ⟨var, other⟩ image) where
  found {var' version' other'} same' := by
    rw [Traces.getElem?_insert_trace, Traces.getElem?_insert_trace]
    by_cases here : (⟨var', version'⟩ : TraceKey) = ⟨var, version⟩
    · obtain ⟨rfl, rfl⟩ := TraceKey.mk.inj here
      obtain rfl := (same'.eq_iff same).2 rfl
      rw [if_pos rfl, if_pos rfl]
      exact .some related
    · have apart : (⟨var', other'⟩ : TraceKey) ≠ ⟨var, other⟩ := by
        intro again
        obtain ⟨rfl, rfl⟩ := TraceKey.mk.inj again
        obtain rfl := (same'.eq_iff same).1 rfl
        exact here rfl
      rw [if_neg here, if_neg apart]
      exact traces.found same'
  known key mem := by
    rcases Std.ExtTreeMap.mem_insert.1 mem with here | old
    · obtain rfl := Std.LawfulEqCmp.eq_of_compare here
      exact ⟨other, same⟩
    · exact traces.known key old
  knownRight key mem := by
    rcases Std.ExtTreeMap.mem_insert.1 mem with here | old
    · obtain rfl := Std.LawfulEqCmp.eq_of_compare here
      exact ⟨version, same⟩
    · exact traces.knownRight key old

end Numbering

namespace Numbering.SameScopes

variable {left right : Scope} {var : VarId}

theorem fork (scopes : numbering.SameScopes left right) (label : String) :
    numbering.SameScopes (left.fork label) (right.fork label) :=
  ⟨rfl, scopes.active⟩

theorem setVersion (scopes : numbering.SameScopes left right) {version other : Version}
    (same : numbering.Same var version other) :
    numbering.SameScopes (left.setVersion var version) (right.setVersion var other) := by
  refine ⟨scopes.label, fun asked => ?_⟩
  rw [Scope.getElem?_setVersion, Scope.getElem?_setVersion]
  split
  · rename_i here
    exact here ▸ .some same
  · exact scopes.active asked

theorem adopt {path pathRight : Scope} (scopes : numbering.SameScopes left right)
    (paths : numbering.SameScopes path pathRight) :
    numbering.SameScopes (left.adopt path) (right.adopt pathRight) := by
  refine ⟨scopes.label, fun var => ?_⟩
  rw [Scope.getElem?_adopt, Scope.getElem?_adopt]
  have own := scopes.active var
  have taken := paths.active var
  revert taken
  generalize path.active[var]? = held
  generalize pathRight.active[var]? = heldRight
  intro taken
  cases taken with
  | some here => exact .some here
  | none => exact own

theorem fresh (label : String) : numbering.SameScopes (.fresh label) (.fresh label) :=
  ⟨rfl, fun var => by simp [Scope.fresh]⟩

theorem versionOf (scopes : numbering.SameScopes left right) (var : VarId) :
    numbering.Same var (left.versionOf var) (right.versionOf var) := by
  unfold Scope.versionOf
  have held := scopes.active var
  revert held
  generalize left.active[var]? = version
  generalize right.active[var]? = other
  intro held
  cases held with
  | some here => exact here
  | none => exact .entry

theorem mem_activeVars (scopes : numbering.SameScopes left right) (var : VarId) :
    var ∈ right.activeVars ↔ var ∈ left.activeVars := by
  unfold Scope.activeVars
  rw [Std.ExtTreeMap.mem_keys, Std.ExtTreeMap.mem_keys, Std.ExtTreeMap.mem_iff_isSome_getElem?,
    Std.ExtTreeMap.mem_iff_isSome_getElem?, isSome_of_rel (scopes.active var)]

theorem activeVars (scopes : numbering.SameScopes left right) :
    right.activeVars = left.activeVars := by
  have sorted (scope : Scope) : scope.activeVars.Pairwise (· < ·) :=
    Std.ExtTreeMap.ordered_keys.imp fun below => Nat.compare_eq_lt.1 below
  have nodup (scope : Scope) : scope.activeVars.Nodup := (sorted scope).imp fun below =>
    Nat.ne_of_lt below
  refine List.Perm.eq_of_pairwise
    (fun first second _ _ below above => absurd (Nat.lt_trans below above) (Nat.lt_irrefl _))
    (sorted right) (sorted left) ?_
  rw [List.perm_ext_iff_of_nodup (nodup right) (nodup left)]
  exact scopes.mem_activeVars

end Numbering.SameScopes

section Paths

variable {paths others : List Scope} (related : List.Forall₂ numbering.SameScopes paths others)
include related

theorem Numbering.varsOf_same : Scope.varsOf others = Scope.varsOf paths := by
  have active : others.flatMap (·.activeVars) = paths.flatMap (·.activeVars) := by
    induction related with
    | nil => rfl
    | cons here _ ih => rw [List.flatMap_cons, List.flatMap_cons, here.activeVars, ih]
  rw [Scope.varsOf, active]
  rfl

theorem Numbering.versionsOf_same (var : VarId) :
    List.Forall₂ (numbering.Same var) (Scope.versionsOf paths var)
      (Scope.versionsOf others var) := by
  refine forall₂_of_increasing (fun one two => one.lt_iff two) (Scope.versionsOf_sorted paths var)
    (Scope.versionsOf_sorted others var) ?_ ?_
  · intro version mem
    obtain ⟨path, memPath, rfl⟩ := Scope.mem_versionsOf.1 mem
    obtain ⟨other, memOther, same⟩ := exists_of_forall₂ related memPath
    exact ⟨_, Scope.mem_versionsOf.2 ⟨other, memOther, rfl⟩, same.versionOf var⟩
  · intro version mem
    obtain ⟨other, memOther, rfl⟩ := Scope.mem_versionsOf.1 mem
    obtain ⟨path, memPath, same⟩ := exists_of_forall₂ (.flip related) memOther
    exact ⟨_, Scope.mem_versionsOf.2 ⟨path, memPath, rfl⟩, same.versionOf var⟩

end Paths

end Queries

end ValueFlow
