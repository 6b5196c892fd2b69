import ValueFlow.Proofs.Ends

/-!
# Entering and taking out exits

The state inside a construct and behind it, and what the two operations on the open registries do.
What a part of a walk has entered stands behind what was entered before it (`Exits.Gains`), and can
be counted (`Exits.Counts`). A construct keeps to itself what it catches.
-/

namespace ValueFlow
set_option autoImplicit false

namespace Exits

/-- A registry that a construct catches does not show behind it. -/
theorem leave_set (exits outer : Exits) {caught : Catch} {kind : ExitKind}
    (catches : caught.catches kind = true) (registry : Option (List Scope)) :
    (exits.set kind registry).leave caught outer = exits.leave caught outer := by
  cases kind <;> simp_all [set, leave, Catch.catches]

theorem leave_take (exits outer : Exits) (caught : Catch) (kind : ExitKind) :
    (exits.take caught kind).2.leave caught outer = exits.leave caught outer := by
  unfold take
  split
  · exact leave_set exits outer ‹_› _
  · rfl

/-- Every open registry has gained snapshots behind those that it had, and this is told of them. A
closed one stays closed. -/
def Gains (before : Exits) (told : ExitKind → List Scope → Prop) (after : Exits) : Prop :=
  ∀ kind, ∃ taken, after.get kind = (before.get kind).map (· ++ taken) ∧ told kind taken

namespace Gains

variable {before middle after : Exits} {told also whole : ExitKind → List Scope → Prop}
  {caught : Catch}

/-- Nothing was entered. -/
theorem of_eq (same : after = before) (none_ : ∀ kind, told kind []) : before.Gains told after :=
  fun kind => ⟨[], by simp [same], none_ kind⟩

theorem mono (gains : before.Gains told after)
    (wider : ∀ kind taken, told kind taken → whole kind taken) : before.Gains whole after :=
  fun kind => (gains kind).imp fun taken gained => ⟨gained.1, wider kind taken gained.2⟩

theorem trans (first : before.Gains told middle) (second : middle.Gains also after)
    (both : ∀ kind early late, told kind early → also kind late → whole kind (early ++ late)) :
    before.Gains whole after := by
  intro kind
  obtain ⟨early, gained, tells⟩ := first kind
  obtain ⟨late, gainedLate, tellsLate⟩ := second kind
  exact ⟨early ++ late, by simp [gainedLate, gained, Option.map_map, Function.comp_def],
    both kind early late tells tellsLate⟩

/-- What is told twice of the snapshots is told of the same ones. Of a closed registry there are
none. -/
theorem and (first : before.Gains told after) (second : before.Gains also after)
    (none_ : ∀ kind, told kind [] ∧ also kind []) :
    before.Gains (fun kind taken => told kind taken ∧ also kind taken) after := by
  intro kind
  obtain ⟨taken, gained, tells⟩ := first kind
  obtain ⟨same, gainedSame, tellsSame⟩ := second kind
  cases opened : before.get kind with
  | none => exact ⟨[], by simp [gained, opened], none_ kind⟩
  | some snapshots =>
    rw [opened] at gained gainedSame
    obtain rfl := List.append_cancel_left (Option.some.inj (gained.symm.trans gainedSame))
    exact ⟨taken, gained, tells, tellsSame⟩

/-- What a construct catches does not show in the registries around it. -/
theorem leave (inner : (before.enter caught).Gains told after)
    (caught_ : ∀ kind, caught.catches kind = true → whole kind [])
    (passed : ∀ kind taken, caught.catches kind = false → told kind taken → whole kind taken) :
    before.Gains whole (after.leave caught before) := by
  intro kind
  obtain ⟨taken, gained, tells⟩ := inner kind
  rw [get_enter] at gained
  rw [get_leave]
  cases catches : caught.catches kind with
  | true => exact ⟨[], by simp, caught_ kind catches⟩
  | false =>
    rw [if_neg (by simp [catches])] at gained
    exact ⟨taken, gained, passed kind taken catches tells⟩

/-- A construct has collected all that it catches. -/
theorem collected (inner : (before.enter caught).Gains told after) {kind : ExitKind}
    (catches : caught.catches kind = true) :
    ∃ taken, after.get kind = some taken ∧ told kind taken := by
  obtain ⟨taken, gained, tells⟩ := inner kind
  rw [get_enter, if_pos catches] at gained
  exact ⟨taken, gained, tells⟩

end Gains

/-- Every open registry has gained this many snapshots. -/
def Counts (before : Exits) (count : ExitKind → Nat) (after : Exits) : Prop := before.Gains (fun kind taken => taken.length = count kind) after

namespace Counts

variable {before middle after : Exits} {count more : ExitKind → Nat}

theorem refl (exits : Exits) : exits.Counts (fun _ => 0) exits := .of_eq rfl fun _ => rfl

theorem congr (counts : before.Counts count after) (same : ∀ kind, more kind = count kind) :
    before.Counts more after :=
  counts.mono fun kind _ counted => counted.trans (same kind).symm

theorem trans (first : before.Counts count middle) (second : middle.Counts more after) :
    before.Counts (fun kind => count kind + more kind) after :=
  Gains.trans first second fun _ _ _ early late => by rw [List.length_append, early, late]

theorem leave {caught : Catch} (inner : (before.enter caught).Counts count after) :
    before.Counts (fun kind => if caught.catches kind then 0 else count kind)
      (after.leave caught before) :=
  Gains.leave inner (fun kind catches => by simp [catches]) fun kind taken passed counted => by
    simp [passed, counted]

end Counts

end Exits

namespace Analysis

variable {state : Analysis} {caught : Catch} {kind : ExitKind}

/-- The state inside a construct that catches some kinds of exits. -/
def inside (state : Analysis) (caught : Catch) : Analysis :=
  { state with exits := state.exits.enter caught }

/-- The state behind such a construct, with the registries from around it put back. -/
def behind (state : Analysis) (caught : Catch) (outer : Exits) : Analysis :=
  { state with exits := state.exits.leave caught outer }

/-- The state with the snapshots of one kind of exit exchanged. -/
def withSnapshots (state : Analysis) (kind : ExitKind) (snapshots : List Scope) : Analysis :=
  { state with exits := state.exits.set kind (some snapshots) }

theorem get_withSnapshots (other : ExitKind) (snapshots : List Scope) :
    (state.withSnapshots kind snapshots).exits.get other = if other = kind then some snapshots else
      state.exits.get other :=
  Exits.get_set _ _ _ _

/-- No registry is closed by an exchange of snapshots. -/
theorem isSome_withSnapshots {other : ExitKind} (snapshots : List Scope)
    (opened : (state.exits.get other).isSome) :
    ((state.withSnapshots kind snapshots).exits.get other).isSome := by
  rw [get_withSnapshots]
  split
  · rfl
  · exact opened

/-- An exit adds a snapshot to the open registry of its kind. Without one, a return passes and any
other exit is a fault. -/
theorem ends_recordExit (scope : Scope) :
    Ends (recordExit kind scope) state
      (fun _ after => (∃ snapshots, state.exits.get kind = some snapshots ∧
          after = state.withSnapshots kind (snapshots ++ [scope.fork kind.snapshotLabel])) ∨
        state.exits.get kind = none ∧ kind = .ret ∧ after = state)
      (fun fault after => fault = .strayExit kind ∧ after = state ∧ state.exits.get kind = none ∧
        kind ≠ .ret) := by
  unfold recordExit
  rw [ends_bind, ends_get]
  dsimp only
  split
  · rename_i snapshots opened
    exact .inl ⟨snapshots, opened, rfl⟩
  · rename_i closed
    exact .inr ⟨closed, rfl, rfl⟩
  · rename_i notReturn closed
    exact ⟨rfl, rfl, closed, notReturn⟩

/-- An exit enters a copy of the scope in the registry of its kind. -/
theorem gives_recordExit_gains (scope : Scope) : Gives (recordExit kind scope) state fun _ after =>
    state.exits.Gains
      (fun other taken => taken = if other = kind then [scope.fork kind.snapshotLabel] else [])
      after.exits := by
  refine (ends_recordExit scope).gives.mono ?_
  rintro _ after (⟨snapshots, opened, rfl⟩ | ⟨closed, rfl, rfl⟩)
  · refine fun other => ⟨_, ?_, rfl⟩
    rw [get_withSnapshots]
    by_cases same : other = kind
    · simp [same, opened]
    · simp [same]
  · refine fun other => ⟨_, ?_, rfl⟩
    by_cases same : other = .ret
    · simp [same, closed]
    · simp [same]

/-- Taking out the exits of a kind empties the registry, if the construct has one of that kind. -/
theorem ends_takeExits (caught : Catch) :
    Ends (takeExits caught kind) state
      (fun snapshots after =>
        caught.catches kind = true ∧ state.exits.get kind = some snapshots ∧
          after = state.withSnapshots kind [] ∨
        snapshots = [] ∧ (caught.catches kind = true → state.exits.get kind = none) ∧ after = state)
      (fun _ _ => False) := by
  unfold takeExits Exits.take
  rw [ends_bind, ends_get]
  cases catches : caught.catches kind with
  | false => exact .inr ⟨rfl, by simp, rfl⟩
  | true =>
    cases opened : state.exits.get kind with
    | none => exact .inr ⟨rfl, by simp, rfl⟩
    | some snapshots => exact .inl ⟨rfl, rfl, rfl⟩

/-- A construct takes out what is in the registry of a kind that it catches. Behind it nothing of
this is to be seen. -/
theorem gives_takeExits (catches : caught.catches kind = true) :
    Gives (takeExits caught kind) state fun snapshots after =>
      snapshots = (state.exits.get kind).getD [] ∧ ∀ outer,
        after.behind caught outer = state.behind caught outer := by
  refine (ends_takeExits caught).gives.mono ?_
  rintro snapshots after (⟨-, opened, rfl⟩ | ⟨rfl, closed, rfl⟩)
  · refine ⟨by rw [opened]; rfl, fun outer => ?_⟩
    unfold behind withSnapshots
    rw [Exits.leave_set _ _ catches]
  · exact ⟨by rw [closed catches]; rfl, fun _ => rfl⟩

end Analysis

namespace Walk

variable {walk : Walk}

/-- The exits that a construct has collected are taken out of its own registry. -/
theorem gives_takeExits {caught : Catch} {kind : ExitKind} (catches : caught.catches kind = true) :
    Gives (liftM (Analysis.takeExits caught kind) : WalkM (List Scope)) walk fun snapshots after =>
      snapshots = (walk.analysis.exits.get kind).getD [] ∧ after.scope = walk.scope ∧
        after.arena = walk.arena ∧
        ∀ outer, after.analysis.behind caught outer = walk.analysis.behind caught outer :=
  ends_liftAnalysisWalk.2
    (Gives.mono (Analysis.gives_takeExits catches) fun _ _ told => ⟨told.1, rfl, rfl, told.2⟩)

end Walk

end ValueFlow
