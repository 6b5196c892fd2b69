import ValueFlow.Proofs.Account.Walks
import ValueFlow.Proofs.Integrity.Law
import ValueFlow.Proofs.Loop.Drift

/-!
# How a walk moves its site

What holds of the scope and of the state behind any part of a walk that ended well, and what is kept
of the part for the account (`Site.Moved`): the snapshots that it took at breaks, and for each node
that reads or writes the version seen or made there. Parts that only look are quiet: they leave
every variable at its version.

A ledger closes a part of a walk if it holds what the part has recorded and noted (`Ledger.Closes`).
-/

namespace ValueFlow
set_option autoImplicit false

/-- The version that a node has seen of a variable, or made if it binds or unbinds the variable. -/
structure Note where
  node : NodeId
  var : VarId
  version : Version
  binds : Option Bool

/-- What is recorded of a version that was made at a node. -/
def Note.origin (node : NodeId) : Bool → Version → Origin
  | true, previous => .assigned node previous
  | false, previous => .unbound (some previous)

/-- The write that a note is of, if it is of one. -/
def Note.write? (note : Note) : Option (NodeId × VarId × Bool) := note.binds.map fun binds => (note.node, note.var, binds)

/-- Of two versions of a variable the one that was made later is above the other. -/
def Note.Rises (first second : Note) : Prop :=
  first.binds.isSome → second.binds.isSome → first.var = second.var → first.version < second.version

/-- The ledger holds what a part of a walk has recorded and noted. -/
structure Ledger.Closes (ledger : Ledger) (before after : Analysis) (notes : List Note) : Prop where
  vars : ledger.vars.Advances before.vars
  options : before.options = ledger.options
  traces : after.traces.Extends ledger.traces
  labels : ∀ note ∈ notes, ledger.labels note.node = note.version
  made : ∀ note ∈ notes, note.binds.isSome → ledger.made note.node note.var
  counted : ∀ note ∈ notes, note.binds = none → ledger.traces.IsCounted ⟨note.var, note.version⟩

namespace Ledger.Closes

variable {ledger : Ledger} {before middle after : Analysis} {first second : List Note}

/-- What closes a part closes its beginning. -/
theorem upTo (closes : ledger.Closes before after first) (late : middle.Grows after) :
    ledger.Closes before middle first :=
  { closes with traces := late.traces.trans closes.traces }

/-- What closes a part closes its end. -/
theorem onward (closes : ledger.Closes before after first) (early : before.Grows middle) :
    ledger.Closes middle after first :=
  { closes with
    vars := closes.vars.trans early.vars, options := early.options.trans closes.options }

/-- What closes two parts closes the first one. -/
theorem early (closes : ledger.Closes before after (first ++ second)) (late : middle.Grows after) :
    ledger.Closes before middle first where
  vars := closes.vars
  options := closes.options
  traces := late.traces.trans closes.traces
  labels note mem := closes.labels note (List.mem_append_left _ mem)
  made note mem := closes.made note (List.mem_append_left _ mem)
  counted note mem := closes.counted note (List.mem_append_left _ mem)

theorem late (closes : ledger.Closes before after (first ++ second)) (early : before.Grows middle) :
    ledger.Closes middle after second where
  vars := closes.vars.trans early.vars
  options := early.options.trans closes.options
  traces := closes.traces
  labels note mem := closes.labels note (List.mem_append_right _ mem)
  made note mem := closes.made note (List.mem_append_right _ mem)
  counted note mem := closes.counted note (List.mem_append_right _ mem)

/-- Code elsewhere cannot rebind a private variable. -/
theorem not_mayRebind (closes : ledger.Closes before after first) {var : VarId}
    (isPrivate : ledger.vars.IsPrivate var) :
    ¬ before.MayRebind var := by
  rintro ⟨slot, found, rebound⟩
  obtain ⟨old, foundOld, -, same⟩ := closes.vars.slot_back found
  obtain ⟨notGlobal, notCaptured⟩ := isPrivate old foundOld
  rw [same] at rebound
  simp only [Variable.mayBeRebound, Variable.isGlobal] at rebound notGlobal
  simp [notGlobal, notCaptured] at rebound

/-- A step that forgets what it moves, and moves only what code elsewhere may rebind, is an
escape. -/
theorem escapes (closes : ledger.Closes before after first) {here there : Versions}
    (moves : ∀ var, there var = here var ∨ before.MayRebind var ∧
      after.traces.IsUnknown var (there var)) :
    ledger.Escapes here there :=
  fun var => (moves var).imp_right fun told =>
    ⟨fun isPrivate => closes.not_mayRebind isPrivate told.1, told.2.extend closes.traces⟩

end Ledger.Closes

namespace Site

/-- A part of a walk has moved the site: it is sound and has lost nothing, the breaks taken on the
way are entered, and the versions made are above those before and recorded. -/
structure Moved (before after : Site) (breaks : List Scope) (notes : List Note) : Prop where
  sound : after.Sound
  grows : before.analysis.Grows after.analysis
  within : before.scope.Within after.scope
  exits : after.analysis.exits.get .brk = (before.analysis.exits.get .brk).map (· ++ breaks)
  taken : ∀ path ∈ breaks, before.scope.Within path ∧ path.Backed after.analysis.traces
  recorded : ∀ note ∈ notes, ∀ binds ∈ note.binds,
    (∀ slot, before.analysis.vars.get? note.var = some slot → slot.lastVersion < note.version) ∧
      ∃ previous, after.analysis.traces.origin? ⟨note.var, note.version⟩ = some (Note.origin note.node binds previous)
  counted : ∀ note ∈ notes, note.binds = none → after.analysis.traces.IsCounted ⟨note.var, note.version⟩
  rising : notes.Pairwise Note.Rises

/-- A part of a walk that moved no variable. -/
structure Quiet (before after : Site) : Prop extends Moved before after [] [] where
  same : after.scope.versionOf = before.scope.versionOf

variable {before middle after : Site} {breaks more : List Scope} {notes others : List Note}
  {var : VarId} {node : NodeId}

/-- A part that meets no break and has nothing noted. -/
theorem Moved.plain (sound : after.Sound) (grows : before.analysis.Grows after.analysis)
    (within : before.scope.Within after.scope)
    (exits : after.analysis.exits.get .brk = before.analysis.exits.get .brk) :
    before.Moved after [] [] where
  sound := sound
  grows := grows
  within := within
  exits := by simp [exits]
  taken := by simp
  recorded := by simp
  counted := by simp
  rising := .nil

theorem Moved.refl (sound : before.Sound) : before.Moved before [] [] :=
  .plain sound (.refl _) (.refl _) rfl

theorem Quiet.refl (sound : before.Sound) : before.Quiet before := ⟨.refl sound, rfl⟩

theorem Moved.trans (early : before.Moved middle breaks notes)
    (late : middle.Moved after more others) :
    before.Moved after (breaks ++ more) (notes ++ others) where
  sound := late.sound
  grows := early.grows.trans late.grows
  within := early.within.trans late.within
  exits := by
    rw [late.exits, early.exits, Option.map_map]
    congr 1
    funext snapshots
    simp
  taken path mem := by
    rcases List.mem_append.1 mem with mem | mem
    · exact ⟨(early.taken path mem).1, (early.taken path mem).2.extend late.grows.traces⟩
    · exact ⟨early.within.trans (late.taken path mem).1, (late.taken path mem).2⟩
  recorded note mem binds made := by
    rcases List.mem_append.1 mem with mem | mem
    · obtain ⟨above, previous, known⟩ := early.recorded note mem binds made
      exact ⟨above, previous, late.grows.traces _ _ known⟩
    · obtain ⟨above, known⟩ := late.recorded note mem binds made
      refine ⟨fun slot found => ?_, known⟩
      obtain ⟨last, le, found⟩ := early.grows.vars.slot _ _ found
      exact Nat.lt_of_le_of_lt le (above _ found)
  counted note mem seen := by
    rcases List.mem_append.1 mem with mem | mem
    · exact late.grows.uses.counted _ (early.counted note mem seen)
    · exact late.counted note mem seen
  rising := by
    refine List.pairwise_append.2 ⟨early.rising, late.rising, ?_⟩
    intro first memFirst second memSecond madeFirst madeSecond sameVar
    obtain ⟨binds, first_⟩ := Option.isSome_iff_exists.1 madeFirst
    obtain ⟨_, previous, known⟩ := early.recorded first memFirst binds first_
    obtain ⟨slot, found, le, -⟩ := early.sound.analysis.traces.entry _ (Traces.mem_of_origin? known)
    obtain ⟨binds, second_⟩ := Option.isSome_iff_exists.1 madeSecond
    exact Nat.lt_of_le_of_lt le
      ((late.recorded second memSecond binds second_).1 slot (sameVar ▸ found))

theorem Quiet.trans (early : before.Quiet middle) (late : middle.Quiet after) :
    before.Quiet after :=
  ⟨early.toMoved.trans late.toMoved, late.same.trans early.same⟩

theorem versionOf_set {scope : Scope} (var : VarId) (version : Version) :
    (scope.setVersion var version).versionOf = Versions.set scope.versionOf var version := by
  funext other
  exact Scope.versionOf_setVersion scope var other version

/-- A look moves nothing. -/
theorem Looked.quiet (looked : before.Looked var after) : before.Quiet after where
  toMoved := .plain looked.sound looked.grows (looked.scope ▸ Scope.within_setVersion _ _ _)
    (by rw [looked.logOnly.exits])
  same := looked.versionOf

/-- What a node has seen may be noted, if the read is counted. -/
theorem Quiet.seen (quiet : before.Quiet after) (node : NodeId) {var : VarId} {version : Version}
    (counted : after.analysis.traces.IsCounted ⟨var, version⟩) :
    before.Moved after [] [⟨node, var, version, none⟩] :=
  { quiet.toMoved with
    recorded := by simp
    counted := by simpa using counted
    rising := List.pairwise_singleton _ _ }

/-- A write moves one variable. -/
theorem Wrote.moved {origin : Version → Origin} {version : Version}
    (wrote : before.Wrote var origin version after) :
    before.Moved after [] [] :=
  .plain wrote.sound wrote.grows (wrote.scope ▸ Scope.within_setVersion _ _ _)
    (by rw [wrote.logOnly.exits])

/-- The version that a node makes may be noted. -/
theorem Wrote.made {binds : Bool} {version : Version}
    (wrote : before.Wrote var (Note.origin node binds) version after) :
    before.Moved after [] [⟨node, var, version, some binds⟩] :=
  { wrote.moved with
    recorded := by
      intro note mem _ same
      obtain rfl := List.mem_singleton.1 mem
      obtain rfl := Option.some.inj same
      refine ⟨fun slot found => ?_, _, wrote.recorded⟩
      obtain ⟨before, again, next, -⟩ := wrote.next
      obtain rfl := Option.some.inj (found.symm.trans again)
      exact next ▸ Nat.lt_succ_self _
    counted := by simp
    rising := List.pairwise_singleton _ _ }

theorem Wrote.versionOf {origin : Version → Origin} {version : Version}
    (wrote : before.Wrote var origin version after) :
    after.scope.versionOf = Versions.set before.scope.versionOf var version := by
  rw [wrote.scope, versionOf_set]

/-- The loss of variables makes versions that no node is noted for. -/
theorem Forgot.moved {vars : List VarId} (forgot : Forgot vars before [] after) :
    before.Moved after [] [] :=
  .plain forgot.sound forgot.grows forgot.within (by rw [forgot.logOnly.exits])

/-- Other notices, and dynamic names, move nothing. -/
theorem quiet_unseen (sound : before.Sound) {edits : EditLog} (dynamicNames : Bool)
    (more : before.analysis.edits.size ≤ edits.size) :
    before.Quiet { before with analysis := { before.analysis with edits, dynamicNames } } where
  toMoved := .plain ⟨sound.analysis.unseen edits dynamicNames, sound.scope⟩
    ⟨.refl _, .refl _, .refl _, rfl, more⟩ (.refl _) rfl
  same := rfl

/-- Only what code elsewhere may rebind has moved, and nothing is known of it. -/
def Forgets (before after : Site) : Prop :=
  ∀ var, after.scope.versionOf var = before.scope.versionOf var ∨
    before.analysis.MayRebind var ∧ after.analysis.traces.IsUnknown var (after.scope.versionOf var)

theorem Forgets.refl (site : Site) : site.Forgets site := fun _ => .inl rfl

theorem Forgets.trans (early : before.Forgets middle) (late : middle.Forgets after)
    (growsEarly : before.analysis.Grows middle.analysis)
    (growsLate : middle.analysis.Grows after.analysis) : before.Forgets after := by
  intro var
  rcases late var with same | ⟨rebinds, unknown⟩
  · rw [same]
    exact (early var).imp_right fun told => ⟨told.1, told.2.extend growsLate.traces⟩
  · exact .inr ⟨growsEarly.mayRebind rebinds, unknown⟩

/-- A variable that may be rebound elsewhere is forgotten, and no other one moves. -/
theorem gives_escape {site : Site} (sound : site.Sound) (var : VarId) :
    Gives (escape var) site fun _ after => site.Moved after [] [] ∧ site.Forgets after := by
  refine (ends_escape sound var).gives.mono ?_
  rintro _ after ⟨slot, found, outcome⟩
  split at outcome
  · rename_i rebound
    obtain ⟨version, wrote⟩ := outcome
    refine ⟨wrote.moved, fun other => ?_⟩
    rw [wrote.versionOf, Versions.set]
    split
    · rename_i same
      subst same
      exact .inr ⟨⟨slot, found, rebound⟩, _, wrote.recorded⟩
    · exact .inl rfl
  · subst outcome
    exact ⟨.refl sound, .refl _⟩

theorem gives_escapeAll {site : Site} (sound : site.Sound) :
    Gives escapeAll site fun _ after => site.Moved after [] [] ∧ site.Forgets after := by
  change Gives (site.scope.activeVars.forM escape) site _
  refine ends_forM (fun _ after => site.Moved after [] [] ∧ site.Forgets after) ?_
    ⟨.refl sound, .refl site⟩
  rintro var pending middle ⟨moved, forgets⟩
  refine (gives_escape moved.sound var).mono fun _ after told =>
    ⟨by simpa using moved.trans told.1, ?_⟩
  exact forgets.trans told.2 moved.grows told.1.grows

end Site

end ValueFlow
