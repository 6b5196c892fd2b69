import ValueFlow.Proofs.Numbering.Statements
import ValueFlow.Proofs.Renewal.Passes

/-!
# A pass does not depend on counters and old notes

A pass over a body reads neither the counters from which versions are handed out nor the versions
that an earlier pass has noted at the nodes (`runPass_renumbered`). From tables that differ in their
counters and arenas that differ in their notes it answers the same, gives the same notices and
leaves the same arena up to versions. The versions in its log, in the top scope and in the notes
that it renewed are those of the other pass under a renaming that keeps their order (`Renaming`).
-/

namespace ValueFlow
set_option autoImplicit false

/-- The last version that was handed out for a variable. -/
def Variables.counter (vars : Variables) (var : VarId) : Version := ((vars.get? var).map (·.lastVersion)).getD .entry

/-- The versions that are in use over a table from now on: the entry version, and those not yet
handed out. -/
def Variables.Issues (vars : Variables) (var : VarId) (version : Version) : Prop := version = .entry ∨ vars.counter var < version

/-- Other numbers for the versions that are in use over a table, in the same order. -/
structure Renaming (vars : Variables) where
  rename : VarId → Version → Version
  entry : ∀ var, rename var .entry = .entry
  increasing : ∀ {var version later}, vars.Issues var version → vars.Issues var later → version < later →
    rename var version < rename var later

/-- The origin with other numbers for the versions in it. -/
def Origin.rename (number : Version → Version) : Origin → Origin
  | .unbound previous => .unbound (previous.map number)
  | .bound => .bound
  | .unknown previous => .unknown (previous.map number)
  | .assigned node previous => .assigned node (number previous)
  | .joined sources => .joined (sources.map number)

/-- The trace with other numbers for the versions in it, and the same notes of use. -/
def Trace.rename (number : Version → Version) (trace : Trace) : Trace := { trace with origin := trace.origin.rename number }

namespace Renaming

variable {vars : Variables} (numbers : Renaming vars)

/-- The second log is the first under other numbers. -/
structure MapsTraces (first second : Traces) : Prop where
  issued : ∀ key ∈ first, vars.Issues key.var key.version
  found : ∀ {var version}, vars.Issues var version →
    second[(⟨var, numbers.rename var version⟩ : TraceKey)]? = first[(⟨var, version⟩ : TraceKey)]?.map (·.rename (numbers.rename var))
  onto : ∀ key ∈ second, ∃ version, (⟨key.var, version⟩ : TraceKey) ∈ first ∧ numbers.rename key.var version = key.version

/-- The second scope is the first under other numbers. -/
structure MapsScope (first second : Scope) : Prop where
  label : second.label = first.label
  issued : ∀ var, ∀ version ∈ first.active[var]?, vars.Issues var version
  active : ∀ var, second.active[var]? = first.active[var]?.map (numbers.rename var)

/-- The notes at a node are those from the start on both sides, or the second is the first under
other numbers. -/
inductive MapsNote (start startRight : Option (VarId × Option Version)) :
    Option (VarId × Option Version) → Option (VarId × Option Version) → Prop
  | kept : MapsNote start startRight start startRight
  | renewed (var : VarId) (version : Option Version) (issued : ∀ held ∈ version, vars.Issues var held) :
    MapsNote start startRight (some (var, version)) (some (var, version.map (numbers.rename var)))

end Renaming

namespace Numbering

/-- The numbering that starts from the counters of two tables. -/
def between (vars others : Variables) : Numbering := ⟨vars.counter, others.counter⟩

variable {numbering : Numbering} {vars others : Variables} {var : VarId} {version other : Version}

/-- Versions of the first run under the numbers of the second. -/
def renumber (numbering : Numbering) (var : VarId) (version : Version) : Version :=
  if version = .entry then .entry else numbering.right var + (version - numbering.left var)

theorem Same.renumber (same : numbering.Same var version other) :
    numbering.renumber var version = other := by
  cases same with
  | entry => rfl
  | handedOut count =>
    have later : numbering.left var + (count + 1) ≠ 0 := Nat.succ_ne_zero _
    rw [Numbering.renumber, if_neg later, Nat.add_sub_cancel_left]

theorem Same.issues (same : (between vars others).Same var version other) :
    vars.Issues var version := by
  cases same with
  | entry => exact .inl rfl
  | handedOut count => exact .inr (Nat.lt_add_of_pos_right (Nat.succ_pos count))

/-- A version that is in use has a counterpart. -/
theorem same_renumber (issued : vars.Issues var version) :
    (between vars others).Same var version ((between vars others).renumber var version) := by
  rcases issued with rfl | above
  · exact .entry
  · obtain ⟨count, rfl⟩ := Nat.exists_eq_add_of_lt above
    have same : (between vars others).Same var (vars.counter var + (count + 1)) _ :=
      .handedOut count
    exact same.renumber.symm ▸ same

/-- The renaming between two tables. -/
def renames (vars others : Variables) : Renaming vars where
  rename := (between vars others).renumber
  entry _ := rfl
  increasing issued issuedLater below := ((same_renumber issued).lt_iff (same_renumber issuedLater)).2 below

theorem map_eq_of_forall₂ {versions image : List Version}
    (related : List.Forall₂ (numbering.Same var) versions image) :
    image = versions.map (numbering.renumber var) := by
  induction related with
  | nil => rfl
  | cons here _ ih => rw [List.map_cons, here.renumber, ← ih]

theorem map_eq_of_rel {held image : Option Version}
    (related : Option.Rel (numbering.Same var) held image) :
    image = held.map (numbering.renumber var) := by
  cases related with
  | none => rfl
  | some here => exact congrArg some here.renumber.symm

theorem rename_of_same {trace image : Trace}
    (related : Trace.Same (numbering.Same var) trace image) :
    image = trace.rename (numbering.renumber var) := by
  have origin : image.origin = trace.origin.rename (numbering.renumber var) := by
    obtain ⟨told, -⟩ := related
    revert told
    generalize trace.origin = origin
    generalize image.origin = other
    intro told
    cases told with
    | bound => rfl
    | unbound here => exact congrArg Origin.unbound (map_eq_of_rel here)
    | unknown here => exact congrArg Origin.unknown (map_eq_of_rel here)
    | assigned node here => exact congrArg (Origin.assigned node) here.renumber.symm
    | joined here => exact congrArg Origin.joined (map_eq_of_forall₂ here)
  obtain ⟨-, reads, flagged, released, escaped⟩ := related
  cases trace
  cases image
  simp only at origin reads flagged released escaped
  simp only [Trace.rename, origin, reads, flagged, released, escaped]

theorem SameTraces.maps {first second : Traces}
    (traces : (between vars others).SameTraces first second) :
    (renames vars others).MapsTraces first second where
  issued key mem := by
    obtain ⟨_, same⟩ := traces.known key mem
    exact same.issues
  found {var version} issued := by
    have held := traces.found (same_renumber issued)
    revert held
    generalize first[(⟨var, version⟩ : TraceKey)]? = trace
    intro held
    cases trace with
    | none => exact rel_none held
    | some trace =>
      obtain ⟨image, here, related⟩ := rel_some held
      exact here.trans (congrArg some (rename_of_same related))
  onto key mem := by
    obtain ⟨version, same⟩ := traces.knownRight key mem
    exact ⟨version, (traces.mem_iff same).1 mem, same.renumber⟩

theorem SameScopes.maps {first second : Scope}
    (scopes : (between vars others).SameScopes first second) :
    (renames vars others).MapsScope first second where
  label := scopes.label
  issued var version held := by
    have related := scopes.active var
    rw [Option.mem_def.1 held] at related
    obtain ⟨_, -, same⟩ := rel_some related
    exact same.issues
  active var := map_eq_of_rel (scopes.active var)

theorem SameArenas.maps {start startRight first second : Arena}
    (arenas : (between vars others).SameArenas start startRight first second) (id : NodeId) :
    (renames vars others).MapsNote (start.note? id) (startRight.note? id) (first.note? id)
      (second.note? id) := by
  rcases arenas.notes id with ⟨kept, keptRight⟩ |
    ⟨var, version, image, renewed, renewedRight, related⟩
  · rw [kept, keptRight]
    exact .kept
  · rw [renewed, renewedRight, map_eq_of_rel related]
    refine .renewed var version fun held mem => ?_
    obtain rfl := Option.mem_def.1 mem
    obtain ⟨_, -, same⟩ := rel_some related
    exact same.issues

/-- Walks of a body start the same but for the numbers of versions, if the tables differ in their
counters and the arenas in their notes. -/
theorem sameWalks_forBody (kind : BodyKind) (options : Options) {arena another : Arena}
    (slots : ∀ var, vars.slots var = others.slots var) (bare : arena.bare = another.bare) :
    (between vars others).SameWalks arena another ⟨.forBody kind vars options, arena⟩
      ⟨.forBody kind others options, another⟩ where
  sites := {
    scope := .fresh kind.label
    state := {
      vars := fun var => by
        have same := slots var
        unfold Variables.slots at same
        change Option.Rel _ (vars.get? var) (others.get? var)
        cases found : vars.get? var with
        | none =>
          rw [found] at same
          rw [Option.map_eq_none_iff.1 same.symm]
          exact .none
        | some slot =>
          rw [found] at same
          obtain ⟨image, foundRight, alike⟩ := Option.map_eq_some_iff.1 same.symm
          rw [foundRight]
          refine .some ⟨0, by simp [between, Variables.counter, found], ?_⟩
          cases slot
          cases image
          simp_all [between, Variables.counter]
      options := rfl
      traces := ⟨fun _ => by simp [Site.forBody, Analysis.fresh],
        fun _ mem => by simp [Site.forBody, Analysis.fresh] at mem,
        fun _ mem => by simp [Site.forBody, Analysis.fresh] at mem⟩
      exits := fun kind => by cases kind <;> exact .none
      dynamicNames := rfl
      edits := rfl } }
  arenas := ⟨bare, fun _ => rfl, fun _ => .inl ⟨rfl, rfl⟩⟩

end Numbering

namespace Walk

/-- No fault of a body blames the log. -/
theorem not_blamesLog_of_runPass {kind : BodyKind} {vars : Variables} {options : Options}
    {arena : Arena} {body : NodeId} {fault : Fault}
    (failed : (runPass kind ⟨.forBody kind vars options, arena⟩ body).answer = .error fault) :
    fault.blamesLog = false := by
  have ready : integrity.Ready integrity.ofWalk ⟨.forBody kind vars options, arena⟩ :=
    ⟨(integrity_ready.2 (Site.sound_forBody kind vars options)).good,
      Region.everything_encloses arena⟩
  have ends := Discipline.yields_walkBody integrity_law kind
    (show integrity.region.stmts body from trivial) (integrity_parks .ret) _ ready
  unfold runPass at failed
  split at failed
  · cases failed
  · rename_i met
    obtain rfl := Except.error.inj failed
    exact (Ends.of_error ends met).2

/-- Passes over tables that differ only in their counters, and over arenas that differ only in the
versions that are noted in them, answer the same, faults among them, give the same notices and leave
the same arena but for versions. The log, the top scope and the renewed notes of the one are those
of the other under a renaming that is strictly increasing and fixes the entry version. -/
theorem runPass_renumbered (kind : BodyKind) {vars others : Variables} (options : Options) {arena another : Arena} (body : NodeId)
    (slots : ∀ var, vars.slots var = others.slots var) (bare : arena.bare = another.bare) :
    (runPass kind ⟨.forBody kind vars options, arena⟩ body).Alike (runPass kind ⟨.forBody kind others options, another⟩ body) ∧
    ∃ numbers : Renaming vars,
      numbers.MapsTraces (runPass kind ⟨.forBody kind vars options, arena⟩ body).after.analysis.traces
        (runPass kind ⟨.forBody kind others options, another⟩ body).after.analysis.traces ∧
      numbers.MapsScope (runPass kind ⟨.forBody kind vars options, arena⟩ body).after.scope
        (runPass kind ⟨.forBody kind others options, another⟩ body).after.scope ∧
      ∀ id, numbers.MapsNote (arena.note? id) (another.note? id)
        ((runPass kind ⟨.forBody kind vars options, arena⟩ body).after.arena.note? id)
        ((runPass kind ⟨.forBody kind others options, another⟩ body).after.arena.note? id) := by
  have inStep := Numbering.walkBody kind body _ _
    (Numbering.sameWalks_forBody kind options slots bare)
  have fails {fault other : Fault} (agrees : fault.Agrees other)
      (failed : (runPass kind ⟨.forBody kind vars options, arena⟩ body).answer = .error fault) : other = fault := by
    rcases agrees with same | ⟨blames, -⟩
    · exact same
    · exact absurd ((not_blamesLog_of_runPass failed).symm.trans blames) Bool.false_ne_true
  have mapped {first second : Walk} (walks : (Numbering.between vars others).SameWalks arena another first second) :=
    And.intro walks.sites.state.traces.maps (And.intro walks.sites.scope.maps walks.arenas.maps)
  unfold runPass at fails ⊢
  cases walked : walkBody kind body ⟨.forBody kind vars options, arena⟩ with
  | ok node after =>
    cases walkedRight : walkBody kind body ⟨.forBody kind others options, another⟩ with
    | ok other afterRight =>
      rw [walked, walkedRight] at inStep
      obtain ⟨rfl, walks⟩ := inStep
      exact ⟨⟨rfl, congrArg EditLog.notices walks.sites.state.edits, walks.arenas.bare⟩, _, mapped walks⟩
    | error other afterRight =>
      rw [walked, walkedRight] at inStep
      exact inStep.elim
  | error fault after =>
    cases walkedRight : walkBody kind body ⟨.forBody kind others options, another⟩ with
    | ok other afterRight =>
      rw [walked, walkedRight] at inStep
      exact inStep.elim
    | error other afterRight =>
      rw [walked, walkedRight] at inStep
      obtain ⟨agrees, walks⟩ := inStep
      rw [walked] at fails
      obtain rfl := fails agrees rfl
      exact ⟨⟨rfl, congrArg EditLog.notices walks.sites.state.edits, walks.arenas.bare⟩, _, mapped walks⟩

/-- A local and a parameter, with a counter for both. -/
def countedVars (counter : Version) : Variables := ⟨#[⟨"x", .localSlot, false, counter⟩, ⟨"c", .parameter, false, counter⟩]⟩

/-- A variable that is bound on one way, with a version noted at all nodes: `if c { x = 1 }; x`. -/
def notedArms (note : Option Version) : Arena :=
  ⟨#[⟨.expr (.literal (.int 1)), ⟨0, 1⟩⟩, ⟨.stmt (.assign 0 0 note), ⟨1, 2⟩⟩, ⟨.expr (.read 1 note), ⟨2, 3⟩⟩,
    ⟨.stmt (.branch 2 (some 1) none), ⟨3, 4⟩⟩, ⟨.expr (.read 0 note), ⟨4, 5⟩⟩, ⟨.stmt (.effect 4), ⟨5, 6⟩⟩, ⟨.stmt (.block [3, 5]), ⟨6, 7⟩⟩]⟩

/-- A second pass, over counters that have gone on and over the notes of an earlier one. The join
behind the conditional is version 2 of the one and version 9 of the other. -/
theorem notedArms_renumbered :
    (∀ var, (countedVars 0).slots var = (countedVars 7).slots var) ∧ (notedArms none).bare = (notedArms (some 3)).bare ∧
    (runPass .functionBody ⟨.forBody .functionBody (countedVars 0) {}, notedArms none⟩ 6).after.scope.active[0]? = some 2 ∧
    (runPass .functionBody ⟨.forBody .functionBody (countedVars 7) {}, notedArms (some 3)⟩ 6).after.scope.active[0]? = some 9 ∧
    (runPass .functionBody ⟨.forBody .functionBody (countedVars 0) {}, notedArms none⟩ 6).Alike
      (runPass .functionBody ⟨.forBody .functionBody (countedVars 7) {}, notedArms (some 3)⟩ 6) := by
  have slots (var : VarId) : (countedVars 0).slots var = (countedVars 7).slots var := by
    match var with
    | 0 | 1 | _ + 2 => rfl
  have bare : (notedArms none).bare = (notedArms (some 3)).bare := by decide +kernel
  exact ⟨slots, bare, by decide +kernel, by decide +kernel, (runPass_renumbered .functionBody {} 6 slots bare).1⟩

end Walk

end ValueFlow
