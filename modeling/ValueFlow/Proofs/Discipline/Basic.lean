import ValueFlow.Body
import ValueFlow.Proofs.Arena.Region
import ValueFlow.Proofs.Exits

/-!
# Disciplines

A discipline is a demand on the state of an analysis that a walk has to keep wherever it ends, well
or with a fault: which scopes are good in which state, how the state may grow, and which faults may
come up. It may be one for the walks in a region of the arena only, and then operations that the
region rules out owe it nothing. `Law` lists what the single operations of an analysis owe to a
discipline. Everything a walk is made of then obeys it (`Discipline/Walk`), so that an invariant of
all walks costs the proof of its law and no induction over walks.
-/

namespace ValueFlow
set_option autoImplicit false

/-- A demand on all ends of all operations of an analysis. -/
structure Discipline where
  /-- The scope stands on its feet in the state. -/
  good : Scope → Analysis → Prop
  /-- The state may become the other one. -/
  grows : Analysis → Analysis → Prop
  /-- The fault may come up. -/
  fault : Fault → Prop
  /-- The part of the arena that is walked. -/
  region : Region

/-- A state that has a site in it, and a demand on what else is in it. -/
structure View (σ : Type) where
  site : σ → Site
  fits : σ → Prop

/-- A site by itself. -/
def View.ofSite : View Site := ⟨id, fun _ => True⟩

/-- A write whose origin names the version before and is no join. -/
structure Origin.IsWrite (origin : Version → Origin) : Prop where
  previous : ∀ version, (origin version).previous = [version]
  plain : ∀ version sources, origin version ≠ .joined sources

theorem Origin.isWrite_assigned (node : NodeId) : Origin.IsWrite (.assigned node) :=
  ⟨fun _ => rfl, fun _ _ => nofun⟩

theorem Origin.isWrite_unbound : Origin.IsWrite fun previous => .unbound (some previous) :=
  ⟨fun _ => rfl, fun _ _ => nofun⟩

theorem Origin.isWrite_unknown : Origin.IsWrite fun previous => .unknown (some previous) :=
  ⟨fun _ => rfl, fun _ _ => nofun⟩

namespace Discipline

variable (D : Discipline)

/-- The walk of an arena that keeps to the region. -/
def ofWalk : View Walk := ⟨Walk.toSite, fun walk => D.region.Encloses walk.arena⟩

section Holds

variable {σ α : Type} (view : View σ)

/-- A state whose scope is good, and which has what else is demanded. -/
structure Ready (state : σ) : Prop where
  good : D.good (view.site state).scope (view.site state).analysis
  fits : view.fits state

/-- The later state is ready, and has grown from the earlier one. -/
structure Kept (before after : σ) : Prop extends D.Ready view after where
  grows : D.grows (view.site before).analysis (view.site after).analysis

/-- From this state the computation keeps to the discipline, and a value it ends with is as
described. -/
def Holds (act : EStateM Fault σ α) (state : σ) (gives : α → σ → Prop) : Prop :=
  Ends act state (fun value after => D.Kept view state after ∧ gives value after)
    (fun fault after => D.Kept view state after ∧ D.fault fault)

/-- From every ready state the computation keeps to the discipline, and its values are as
described. -/
def Yields (act : EStateM Fault σ α) (given : α → Prop) : Prop :=
  ∀ state, D.Ready view state → D.Holds view act state fun value _ => given value

/-- From every ready state the computation keeps to the discipline. -/
def Obeys (act : EStateM Fault σ α) : Prop := D.Yields view act fun _ => True

end Holds

/-- Where a scope is good, so are the snapshots that are parked at exits of a kind. -/
def Parks (kind : ExitKind) : Prop :=
  ∀ scope state, D.good scope state → ∀ snapshots ∈ state.exits.get kind, ∀ snapshot ∈ snapshots, D.good snapshot state

/-- Inside a construct the snapshots are good that it has collected at exits of a kind. -/
def Collects (kind : ExitKind) : Prop :=
  ∀ {scope : Scope} {before after : Analysis} (caught : Catch), caught.catches kind = true → D.good scope after → D.grows (before.inside caught) after →
    ∀ snapshots ∈ after.exits.get kind, ∀ snapshot ∈ snapshots, D.good snapshot after

/-- What the operations of an analysis owe to a discipline. -/
structure Law : Prop where
  refl : ∀ state, D.grows state state
  trans : ∀ {first second third}, D.grows first second → D.grows second third → D.grows first third
  /-- A good scope stays good while the state grows. -/
  carry : ∀ {scope other before after}, D.good scope before → D.good other after →
    D.grows before after → D.good scope after
  fork : ∀ {scope state} (label), D.good scope state → D.good (scope.fork label) state
  inside : ∀ {scope state} (caught), D.good scope state → D.good scope (state.inside caught)
  behind : ∀ {scope other before after} (caught), D.good scope before → D.good other after →
    D.grows (before.inside caught) after →
    D.good other (after.behind caught before.exits) ∧ D.grows before (after.behind caught before.exits)
  /-- More notices of edits, and whether names are dynamic, are no concern of a discipline. -/
  unseen : ∀ {scope state edits} (dynamicNames), state.edits.size ≤ edits.size → D.good scope state →
    D.good scope { state with edits, dynamicNames } ∧ D.grows state { state with edits, dynamicNames }
  current : ∀ var, D.Obeys .ofSite (Site.currentVersion var)
  write : ∀ var origin, D.region.writes var → Origin.IsWrite origin → D.Obeys .ofSite (Site.write var origin)
  escape : D.region.calls → ∀ var, D.Obeys .ofSite (Site.escape var)
  read : ∀ var, D.Obeys .ofSite (Site.read var)
  release : ∀ var, D.Obeys .ofSite (Site.release var)
  /-- Behind a delete it can be told whether the delete found its variable unbound. -/
  delete : ∀ var site, D.region.writes var → D.Ready .ofSite site →
    D.Holds .ofSite (Site.delete var) site fun prior after =>
      ∀ fault, after.analysis.traces.isSurelyUnbound prior = .error fault → D.fault fault
  join : ∀ paths site, paths ≠ [] → D.Ready .ofSite site → (∀ path ∈ paths, D.good path site.analysis) →
    D.Holds .ofSite (Site.join paths) site fun _ _ => True
  exit : ∀ kind, D.Obeys .ofSite (Site.scopeHere >>= fun scope => liftM (Analysis.recordExit kind scope))
  /-- The snapshots that a loop has collected at its breaks are good. -/
  breaks : D.Collects .brk
  unregistered : ∀ var, D.fault (.unregistered var)
  wrongShape : ∀ node expected, D.fault (.wrongShape node expected)
  cyclicNesting : ∀ node, D.fault (.cyclicNesting node)
  within : ∀ {fault} (span), D.fault fault → D.fault (fault.within span)

variable {D}

/-- If parked snapshots are good wherever they come from, so are those that a construct has
collected. -/
theorem Parks.collects {kind : ExitKind} (parks : D.Parks kind) : D.Collects kind :=
  fun _ _ good _ => parks _ _ good

section Composition

variable {σ α β : Type} {view : View σ} {act : EStateM Fault σ α} {state : σ} {gives : α → σ → Prop}
  {given : α → Prop}

theorem Kept.refl (law : D.Law) (ready : D.Ready view state) : D.Kept view state state :=
  ⟨ready, law.refl _⟩

theorem Kept.trans (law : D.Law) {first second third : σ} (early : D.Kept view first second)
    (late : D.Kept view second third) : D.Kept view first third :=
  ⟨late.toReady, law.trans early.grows late.grows⟩

theorem Holds.pure (law : D.Law) {value : α} (ready : D.Ready view state)
    (given : gives value state) :
    D.Holds view (Pure.pure value) state gives :=
  ends_pure.2 ⟨.refl law ready, given⟩

theorem Holds.throw (law : D.Law) {fault : Fault} (ready : D.Ready view state)
    (allowed : D.fault fault) :
    D.Holds view (throw fault) state gives :=
  ends_throw.2 ⟨.refl law ready, allowed⟩

theorem Holds.bind (law : D.Law) {next : α → EStateM Fault σ β} {last : β → σ → Prop}
    (first : D.Holds view act state gives)
    (rest : ∀ value after, D.Kept view state after → gives value after →
      D.Holds view (next value) after last) :
    D.Holds view (act >>= next) state last := by
  unfold Holds
  rw [ends_bind]
  refine Ends.mono first ?_ (fun _ _ fell => fell)
  rintro value after ⟨kept, given⟩
  exact (rest value after kept given).mono (fun _ _ late => ⟨kept.trans law late.1, late.2⟩)
    (fun _ _ late => ⟨kept.trans law late.1, late.2⟩)

theorem Holds.map {f : α → β} {last : β → σ → Prop} (first : D.Holds view act state gives)
    (given : ∀ value after, gives value after → last (f value) after) :
    D.Holds view (f <$> act) state last := by
  unfold Holds
  rw [ends_map]
  exact Ends.mono first (fun value after late => ⟨late.1, given value after late.2⟩)
    (fun _ _ fell => fell)

theorem Holds.mono {last : α → σ → Prop} (first : D.Holds view act state gives)
    (given : ∀ value after, D.Kept view state after → gives value after → last value after) :
    D.Holds view act state last :=
  Ends.mono first (fun value after late => ⟨late.1, given value after late.1 late.2⟩)
    (fun _ _ fell => fell)

theorem Yields.pure (law : D.Law) {value : α} (held : given value) :
    D.Yields view (Pure.pure value : EStateM Fault σ α) given :=
  fun _ ready => .pure law ready held

theorem Yields.throw (law : D.Law) {fault : Fault} (allowed : D.fault fault) :
    D.Yields view (throw fault : EStateM Fault σ α) given :=
  fun _ ready => .throw law ready allowed

theorem Yields.bind (law : D.Law) {next : α → EStateM Fault σ β} {last : β → Prop}
    (first : D.Yields view act given)
    (rest : ∀ value, given value → D.Yields view (next value) last) :
    D.Yields view (act >>= next) last :=
  fun state ready => .bind law (first state ready) fun value after kept held =>
    rest value held after kept.toReady

/-- What is done next does not depend on the value. -/
theorem Obeys.bind (law : D.Law) {next : α → EStateM Fault σ β} {last : β → Prop}
    (first : D.Obeys view act) (rest : ∀ value, D.Yields view (next value) last) :
    D.Yields view (act >>= next) last :=
  Yields.bind law first fun value _ => rest value

theorem Yields.map {f : α → β} {last : β → Prop} (first : D.Yields view act given)
    (held : ∀ value, given value → last (f value)) : D.Yields view (f <$> act) last :=
  fun state ready => (first state ready).map fun value _ given => held value given

theorem Yields.discard (first : D.Yields view act given) : D.Obeys view (discard act) :=
  first.map fun _ _ => trivial

/-- Reading the state costs nothing. -/
theorem Yields.get_bind {next : σ → EStateM Fault σ β} {last : β → Prop}
    (rest : ∀ value, view.fits value → D.Yields view (next value) last) :
    D.Yields view (get >>= next) last := by
  intro state ready
  unfold Holds
  rw [ends_bind, ends_get]
  exact rest state ready.fits state ready

theorem Yields.forM (law : D.Law) {f : α → EStateM Fault σ PUnit} {list : List α}
    (each : ∀ value ∈ list, D.Obeys view (f value)) : D.Obeys view (list.forM f) := by
  induction list with
  | nil => exact .pure law trivial
  | cons head tail ih =>
    have rest := ih fun value mem => each value (by simp [mem])
    exact Obeys.bind law (each head (by simp)) fun _ => rest

theorem Yields.mapM (law : D.Law) {f : α → EStateM Fault σ β} {given : β → Prop} {list : List α}
    (each : ∀ value ∈ list, D.Yields view (f value) given) :
    D.Yields view (list.mapM f) fun values => ∀ value ∈ values, given value := by
  induction list with
  | nil => exact .pure law (by simp)
  | cons head tail ih =>
    have rest := ih fun value mem => each value (by simp [mem])
    rw [List.mapM_cons]
    refine .bind law (each head (by simp)) fun value held => .bind law rest
      fun values holds => .pure law ?_
    simpa using ⟨held, holds⟩

end Composition

end Discipline

end ValueFlow
