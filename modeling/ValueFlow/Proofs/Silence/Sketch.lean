import ValueFlow.Proofs.Integrity.Law

/-!
# Sketches of a site

The decisions of a walk depend on little of its state: the storage of the variables and the options,
of each variable that the scope has looked at whether it is sure to be unbound there, and the same
of the scopes parked at open exits. A sketch keeps just this. It has no versions, so two walks that
count on different versions may have the same sketch.

Every operation on a scope has an image among sketches, and no fault but where the image is missing
(`Site.Draws`).
-/

namespace ValueFlow
set_option autoImplicit false

/-- Of each variable that a scope has looked at, whether it is sure to be unbound there. -/
abbrev Outline := VarId → Option Bool

/-- A site without its versions. -/
@[ext]
structure Sketch where
  slots : VarId → Option Variable
  options : Options
  scope : Outline
  exits : ExitKind → Option (List Outline)

namespace Sketch

variable (sketch : Sketch)

/-- Whether a variable is sure to be unbound on entry, if it is registered. -/
def entry (var : VarId) : Option Bool :=
  (sketch.slots var).map fun slot => Traces.leavesUnbound (Analysis.entryOrigin slot.storage)

/-- Whether a variable is sure to be unbound where a scope has it. -/
def standsIn (scope : Outline) (var : VarId) : Option Bool := (scope var).or (sketch.entry var)

/-- Whether a variable is sure to be unbound here. -/
def stands (var : VarId) : Option Bool := sketch.standsIn sketch.scope var

/-- Enters a variable in the scope. -/
def set (var : VarId) (unbound : Bool) : Sketch :=
  { sketch with scope := fun other => if other = var then some unbound else sketch.scope other }

/-- A look enters a variable as it stands. -/
def look (var : VarId) : Option Sketch := (sketch.stands var).map (sketch.set var)

/-- A write enters a variable as the write leaves it. -/
def write (var : VarId) (unbound : Bool) : Option Sketch := (sketch.stands var).map fun _ => sketch.set var unbound

/-- What code elsewhere may rebind is no longer sure to be unbound. -/
def escape : Sketch :=
  { sketch with scope := fun var =>
      if (sketch.slots var).any (·.mayBeRebound sketch.options) then (sketch.scope var).map fun _ => false else sketch.scope var }

/-- None of the variables listed is sure to be unbound any longer. -/
def forget (vars : List VarId) : Option Sketch :=
  if (vars.all fun var => (sketch.stands var).isSome) = true then
    some { sketch with scope := fun var => if var ∈ vars then some false else sketch.scope var }
  else none

/-- The scope behind the paths given: a single one is taken over, and of several ones each has its
say. -/
def join : List Outline → Sketch
  | [] => sketch
  | [path] => { sketch with scope := fun var => (path var).or (sketch.scope var) }
  | paths => { sketch with scope := fun var =>
      if (paths.any fun path => (path var).isSome) = true then some (paths.all fun path => (sketch.standsIn path var).getD false) else none }

/-- Exchanges what is parked in the registry of one kind. -/
def park (kind : ExitKind) (paths : List Outline) : Sketch :=
  { sketch with exits := fun other => if other = kind then some paths else sketch.exits other }

/-- An exit parks the scope in the open registry of its kind. -/
def exit (kind : ExitKind) : Option Sketch :=
  match kind, sketch.exits kind with
  | kind, some paths => some (sketch.park kind (paths ++ [sketch.scope]))
  | .ret, none => some sketch
  | _, none => none

/-- Inside a construct that catches some kinds of exits. -/
def inside (caught : Catch) : Sketch :=
  { sketch with exits := fun kind => if caught.catches kind then some [] else sketch.exits kind }

/-- Behind a construct that caught some kinds of exits. -/
def leave (caught : Catch) (inner : Sketch) : Sketch :=
  { inner with exits := fun kind => if caught.catches kind then sketch.exits kind else inner.exits kind }

/-- What was parked at exits of a kind was taken out. -/
def take (kind : ExitKind) : Sketch :=
  { sketch with exits := fun other => if other = kind then (sketch.exits kind).map fun _ => [] else sketch.exits other }

/-- Behind a part that was walked in a fork of the scope. -/
def beside (inner : Sketch) : Sketch := { sketch with exits := inner.exits }

/-- How an arm of a conditional reaches the join behind it. -/
inductive Arm where
  | absent
  | aborting
  | reached (scope : Outline)

/-- The scope behind the two arms of a conditional. -/
def joinBehind : Arm → Arm → Sketch
  | .aborting, .reached only => sketch.join [only]
  | .reached only, .aborting => sketch.join [only]
  | .reached yes, .reached no => sketch.join [yes, no]
  | .reached yes, .absent => sketch.join [sketch.scope, yes]
  | .absent, .reached no => sketch.join [sketch.scope, no]
  | _, _ => sketch

variable {sketch}

theorem join_several {paths : List Outline} (several : 2 ≤ paths.length) (var : VarId) :
    (sketch.join paths).scope var = if (paths.any fun path => (path var).isSome) = true then
      some (paths.all fun path => (sketch.standsIn path var).getD false) else none :=
  match paths, several with
  | _ :: _ :: _, _ => rfl

theorem join_eq (paths : List Outline) :
    sketch.join paths = { sketch with scope := (sketch.join paths).scope } := by
  unfold join
  split <;> rfl

theorem exit_of_open {kind : ExitKind} {paths : List Outline}
    (opened : sketch.exits kind = some paths) :
    sketch.exit kind = some (sketch.park kind (paths ++ [sketch.scope])) := by
  unfold exit
  rw [opened]

end Sketch

namespace Traces

variable {vars newVars : Variables} {traces newer : Traces} {var : VarId} {version : Version}
  {origin : Origin}

/-- The variable is sure to be unbound at the version. -/
def unboundAt (traces : Traces) (var : VarId) (version : Version) : Bool :=
  match traces.isSurelyUnbound ⟨var, version⟩ with
  | .ok answer => answer
  | .error _ => false

/-- At a recorded version of a sound log it can be told. -/
theorem Sound.isSurelyUnbound_eq (sound : traces.Sound vars)
    (recorded : (⟨var, version⟩ : TraceKey) ∈ traces) :
    traces.isSurelyUnbound ⟨var, version⟩ = .ok (traces.unboundAt var version) := by
  obtain ⟨answer, told, -⟩ := sound.everyLeaf leavesUnbound recorded
  have asked : traces.isSurelyUnbound ⟨var, version⟩ = .ok answer := told
  rw [unboundAt, asked]

theorem Sound.unboundAt_iff (sound : traces.Sound vars)
    (recorded : (⟨var, version⟩ : TraceKey) ∈ traces) :
    traces.unboundAt var version = true ↔ traces.AllLeaves var version leavesUnbound := by
  obtain ⟨answer, told, iff⟩ := sound.everyLeaf leavesUnbound recorded
  have asked : traces.isSurelyUnbound ⟨var, version⟩ = .ok answer := told
  rw [unboundAt, asked, iff]

theorem Sound.unboundAt_of_plain (sound : traces.Sound vars)
    (known : traces.origin? ⟨var, version⟩ = some origin)
    (plain : ∀ sources, origin ≠ .joined sources) :
    traces.unboundAt var version = leavesUnbound origin := by
  rw [Bool.eq_iff_iff, sound.unboundAt_iff (mem_of_origin? known), allLeaves_of_plain known plain]

theorem Sound.unboundAt_joined (sound : traces.Sound vars) {sources : List Version}
    (joined : traces.origin? ⟨var, version⟩ = some (.joined sources)) :
    traces.unboundAt var version = sources.all (traces.unboundAt var) := by
  rw [Bool.eq_iff_iff, sound.unboundAt_iff (mem_of_origin? joined), allLeaves_of_joined joined,
    List.all_eq_true]
  exact forall₂_congr fun source mem =>
    (sound.unboundAt_iff (sound.previous _ _ joined source mem).1).symm

/-- What is sure at a recorded version stays so while the log grows. -/
theorem Sound.unboundAt_extend (sound : traces.Sound vars) (later : newer.Sound newVars)
    (extends_ : traces.Extends newer) (recorded : (⟨var, version⟩ : TraceKey) ∈ traces) :
    newer.unboundAt var version = traces.unboundAt var version := by
  rw [Bool.eq_iff_iff, sound.unboundAt_iff recorded, later.unboundAt_iff (extends_.mem recorded),
    allLeaves_extend_iff sound.linked extends_ recorded]

end Traces

/-- The variables without their counters. -/
def Variables.slots (vars : Variables) (var : VarId) : Option Variable := (vars.get? var).map ({ · with lastVersion := .entry })

/-- Counters do not show. -/
theorem Variables.Advances.slots {older newer : Variables} (advances : older.Advances newer) :
    newer.slots = older.slots := by
  funext var
  unfold Variables.slots
  cases found : newer.get? var with
  | some slot =>
    obtain ⟨old, foundOld, -, same⟩ := advances.slot_back found
    rw [foundOld, same]
    rfl
  | none =>
    cases foundOld : older.get? var with
    | none => rfl
    | some slot =>
      obtain ⟨last, -, foundNew⟩ := advances.slot var slot foundOld
      cases found.symm.trans foundNew

/-- What a scope tells of unbound variables. -/
def Scope.outline (scope : Scope) (traces : Traces) : Outline := fun var => scope.active[var]?.map (traces.unboundAt var)

theorem Scope.Backed.outline_eq {scope : Scope} {vars newVars : Variables} {traces newer : Traces}
    (backed : scope.Backed traces) (sound : traces.Sound vars) (later : newer.Sound newVars)
    (extends_ : traces.Extends newer) :
    scope.outline newer = scope.outline traces := by
  funext var
  unfold Scope.outline
  cases active : scope.active[var]? with
  | none => rfl
  | some version =>
    exact congrArg some (sound.unboundAt_extend later extends_ (backed var version active))

namespace Site

/-- What is kept of a site in its sketch. -/
def sketch (site : Site) : Sketch where
  slots := site.analysis.vars.slots
  options := site.analysis.options
  scope := site.scope.outline site.analysis.traces
  exits kind := (site.analysis.exits.get kind).map (·.map (·.outline site.analysis.traces))

variable {α : Type} {site before middle after : Site} {var : VarId} {version : Version}

/-- Where the log grows and no exit is taken, only the scope may change. -/
theorem Sound.sketch_eq (sound : before.Sound) (later : after.Sound)
    (grows : before.analysis.Grows after.analysis)
    (exits : after.analysis.exits = before.analysis.exits) :
    after.sketch = { before.sketch with scope := after.scope.outline after.analysis.traces } := by
  refine Sketch.ext grows.vars.slots grows.options rfl (funext fun kind => ?_)
  simp only [sketch]
  rw [exits]
  cases opened : before.analysis.exits.get kind with
  | none => rfl
  | some paths =>
    refine congrArg some (List.map_congr_left fun path mem => ?_)
    exact (sound.analysis.parked kind paths opened path mem).outline_eq sound.analysis.traces
      later.analysis.traces grows.traces

/-- At the version at which it stands a variable is as sure to be unbound as the sketch says. -/
theorem Sound.standsIn_eq (sound : before.Sound) (later : after.Sound)
    (grows : before.analysis.Grows after.analysis) {scope : Scope}
    (backed : scope.Backed before.analysis.traces)
    (recorded : (⟨var, scope.versionOf var⟩ : TraceKey) ∈ after.analysis.traces) :
    before.sketch.standsIn (scope.outline before.analysis.traces) var =
      some (after.analysis.traces.unboundAt var (scope.versionOf var)) := by
  unfold Sketch.standsIn Scope.outline
  cases active : scope.active[var]? with
  | some version =>
    rw [Scope.versionOf_of_active active,
      sound.analysis.traces.unboundAt_extend later.analysis.traces grows.traces
      (backed var version active)]
    rfl
  | none =>
    have entry : scope.versionOf var = .entry := by simp [Scope.versionOf, active]
    rw [entry] at recorded ⊢
    obtain ⟨slot, found, -, known⟩ := later.analysis.traces.entry _ recorded
    rw [later.analysis.traces.unboundAt_of_plain known (Analysis.entryOrigin_plain _)]
    simp only [Sketch.entry, sketch, ← grows.vars.slots, Variables.slots]
    rw [found]
    rfl

theorem Sound.stands_eq (sound : before.Sound) (later : after.Sound)
    (grows : before.analysis.Grows after.analysis)
    (recorded : (⟨var, before.scope.versionOf var⟩ : TraceKey) ∈ after.analysis.traces) :
    before.sketch.stands var =
      some (after.analysis.traces.unboundAt var (before.scope.versionOf var)) :=
  sound.standsIn_eq later grows sound.scope recorded

/-- An unregistered variable stands nowhere. -/
theorem Sound.stands_none (sound : site.Sound) (absent : site.analysis.vars.get? var = none) :
    site.sketch.stands var = none := by
  have free : site.scope.active[var]? = none := by
    cases active : site.scope.active[var]? with
    | none => rfl
    | some version =>
      obtain ⟨slot, found, -⟩ := sound.analysis.traces.entry _ (sound.scope var version active)
      cases absent.symm.trans found
  simp [Sketch.stands, Sketch.standsIn, Sketch.entry, sketch, Scope.outline,
    Variables.slots, free, absent]

/-- One variable was put at a recorded version. -/
theorem Sound.sketch_of_setVersion (sound : before.Sound) (later : after.Sound)
    (grows : before.analysis.Grows after.analysis) (only : before.analysis.LogOnly after.analysis)
    (scope : after.scope = before.scope.setVersion var version) :
    after.sketch = before.sketch.set var (after.analysis.traces.unboundAt var version) := by
  rw [sound.sketch_eq later grows only.exits, scope]
  refine Sketch.ext rfl rfl (funext fun other => ?_) rfl
  simp only [Sketch.set, Scope.outline]
  rw [Scope.getElem?_setVersion]
  split
  · rename_i same
    rw [same]
    rfl
  · exact congrFun
      (sound.scope.outline_eq sound.analysis.traces later.analysis.traces grows.traces) other

theorem Looked.sketch (looked : before.Looked var after) (sound : before.Sound) :
    before.sketch.look var = some after.sketch := by
  rw [Sketch.look, sound.stands_eq looked.sound looked.grows looked.recorded,
    sound.sketch_of_setVersion looked.sound looked.grows looked.logOnly looked.scope]
  rfl

theorem Wrote.sketch {origin : Version → Origin} (wrote : before.Wrote var origin version after)
    (sound : before.Sound) (writes : Origin.IsWrite origin) {unbound : Bool}
    (leaves : ∀ previous, Traces.leavesUnbound (origin previous) = unbound) :
    before.sketch.write var unbound = some after.sketch := by
  have entered := wrote.sound.analysis.traces.unboundAt_of_plain wrote.recorded (writes.plain _)
  rw [leaves] at entered
  rw [Sketch.write, sound.stands_eq wrote.sound wrote.grows (wrote.previous_mem writes),
    sound.sketch_of_setVersion wrote.sound wrote.grows wrote.logOnly wrote.scope, entered]
  rfl

/-- An operation that gives no notice has led where its image among sketches is. -/
structure Drawn (before : Site) (image : Option Sketch) (after : Site) : Prop where
  sound : after.Sound
  grows : before.analysis.Grows after.analysis
  edits : after.analysis.edits = before.analysis.edits
  image : image = some after.sketch

/-- The operation has an image among sketches: it ends well where the image is, and fails where
there is none. -/
def Draws (act : SiteM α) (site : Site) (image : Option Sketch) (also : α → Site → Prop) : Prop :=
  Ends act site (fun value after => site.Drawn image after ∧ also value after) (fun _ _ => image = none)

theorem Draws.mono {act : SiteM α} {image : Option Sketch} {also more : α → Site → Prop}
    (draws : Draws act site image also)
    (further : ∀ value after, also value after → more value after) : Draws act site image more :=
  Ends.mono draws (fun value after told => ⟨told.1, further value after told.2⟩)
    fun _ _ fell => fell

theorem Looked.drawn (looked : before.Looked var after) (sound : before.Sound) :
    before.Drawn (before.sketch.look var) after :=
  ⟨looked.sound, looked.grows, by rw [looked.logOnly], looked.sketch sound⟩

theorem Wrote.drawn {origin : Version → Origin} (wrote : before.Wrote var origin version after)
    (sound : before.Sound) (writes : Origin.IsWrite origin) {unbound : Bool}
    (leaves : ∀ previous, Traces.leavesUnbound (origin previous) = unbound) :
    before.Drawn (before.sketch.write var unbound) after :=
  ⟨wrote.sound, wrote.grows, by rw [wrote.logOnly], wrote.sketch sound writes leaves⟩

theorem Refuses.look {fault : Fault} (refuses : before.Refuses var fault after)
    (sound : before.Sound) : before.sketch.look var = none := by
  rw [Sketch.look, sound.stands_none refuses.absent]
  rfl

theorem Refuses.write {fault : Fault} (refuses : before.Refuses var fault after)
    (sound : before.Sound) (unbound : Bool) :
    before.sketch.write var unbound = none := by
  rw [Sketch.write, sound.stands_none refuses.absent]
  rfl

/-- Whatever looks at a variable has the look for its image. -/
theorem Sound.draws_of_looked (sound : site.Sound) {act : SiteM α}
    (ends : Ends act site (fun _ after => site.Looked var after) (site.Refuses var)) :
    Draws act site (site.sketch.look var) fun _ _ => True :=
  ends.mono (fun _ _ looked => ⟨looked.drawn sound, trivial⟩) fun _ _ refuses => refuses.look sound

theorem draws_currentVersion (sound : site.Sound) (var : VarId) :
    Draws (currentVersion var) site (site.sketch.look var) fun _ _ => True :=
  sound.draws_of_looked
    ((ends_currentVersion sound var).mono (fun _ _ told => told.2) fun _ _ fell => fell)

theorem draws_read (sound : site.Sound) (var : VarId) :
    Draws (read var) site (site.sketch.look var) fun _ _ => True :=
  sound.draws_of_looked (ends_read sound var)

theorem draws_release (sound : site.Sound) (var : VarId) :
    Draws (release var) site (site.sketch.look var) fun _ _ => True :=
  sound.draws_of_looked (ends_release sound var)

theorem draws_write (sound : site.Sound) (var : VarId) {origin : Version → Origin}
    (writes : Origin.IsWrite origin) {unbound : Bool}
    (leaves : ∀ previous, Traces.leavesUnbound (origin previous) = unbound) :
    Draws (write var origin) site (site.sketch.write var unbound) fun answer after =>
      answer.1 = site.scope.versionOf var ∧ site.Wrote var origin answer.2 after :=
  (ends_write sound writes var).mono (fun _ _ told => ⟨told.2.drawn sound writes leaves, told⟩)
    fun _ _ refuses => refuses.write sound _

theorem draws_assign (sound : site.Sound) (var : VarId) (node : NodeId) :
    Draws (assign var node) site (site.sketch.write var false) fun _ _ => True :=
  ends_bind.2 ((draws_write sound var (Origin.isWrite_assigned node) fun _ => rfl).mono
    fun _ _ _ => trivial)

/-- Behind a delete it can be told whether the delete was sure to find its variable unbound. -/
theorem draws_delete (sound : site.Sound) (var : VarId) :
    Draws (delete var) site (site.sketch.write var true) fun prior after =>
      ∃ unbound, site.sketch.stands var = some unbound ∧
        after.analysis.traces.isSurelyUnbound prior = .ok unbound := by
  refine ends_bind.2 ((draws_write sound var Origin.isWrite_unbound fun _ => rfl).mono ?_)
  rintro answer after ⟨prior, wrote⟩
  have recorded := wrote.previous_mem Origin.isWrite_unbound
  refine ⟨_, sound.stands_eq wrote.sound wrote.grows recorded, ?_⟩
  rw [prior]
  exact wrote.sound.analysis.traces.isSurelyUnbound_eq recorded

theorem draws_forget (sound : site.Sound) (var : VarId) :
    Draws (forget var) site (site.sketch.write var false) fun _ _ => True :=
  ends_bind.2 ((draws_write sound var Origin.isWrite_unknown fun _ => rfl).mono
    fun _ _ _ => trivial)

end Site

end ValueFlow
