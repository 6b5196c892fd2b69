import ValueFlow.Proofs.Silence.Draws

/-!
# Two sketches on one track

Two walks of the same part of an arena, from sites that may have seen different things, decide alike
as long as they agree on the variables that tolerant deletes name there. A variable may be told by
the one site and not have been looked at by the other, if it is told as it stands on entry, and if
no escape forgets it in the one where it does not reach it in the other. `Track.Matches` says so of
two sketches. Every image of an operation leads from sketches that match to sketches that match.

A single path is taken over behind a join. What it has not looked at stays as it is, so that it
counts that no path has looked at less than the scope that it came from. For the paths that are
parked at breaks this is what the floor of a frame is for.
-/

namespace ValueFlow
set_option autoImplicit false

/-- The later outline tells of every variable that the earlier one tells of. -/
def Outline.Within (before after : Outline) : Prop := ∀ var, (before var).isSome = true → (after var).isSome = true

theorem Outline.Within.refl (outline : Outline) : outline.Within outline := fun _ told => told

theorem Outline.Within.trans {first second third : Outline} (early : first.Within second)
    (late : second.Within third) : first.Within third :=
  fun var told => late var (early var told)

/-- What two walks side by side have in common: the variables and the options, the statements that
they walk, and the variables that tolerant deletes among these name. -/
structure Track where
  slots : VarId → Option Variable
  options : Options
  stmts : NodeId → Prop
  clears : VarId → Prop

/-- What is open around a part of a walk: registries of some kinds of exits, and for the paths at
breaks a floor of variables that each of them tells of. -/
structure Track.Frame where
  opened : ExitKind → Bool
  floor : VarId → Prop

/-- The frame inside a construct that catches some kinds of exits. -/
def Track.Frame.inside (frame : Frame) (caught : Catch) (scope : Outline) : Frame where
  opened kind := caught.catches kind || frame.opened kind
  floor var := if caught.catches .brk = true then (scope var).isSome = true else frame.floor var

namespace Track

variable (track : Track)

/-- Whether a variable is sure to be unbound on entry, if it is registered. -/
def entry (var : VarId) : Option Bool := (track.slots var).map fun slot => Traces.leavesUnbound (Analysis.entryOrigin slot.storage)

/-- Code elsewhere may rebind the variable. -/
def rebinds (var : VarId) : Bool := (track.slots var).any (·.mayBeRebound track.options)

/-- Two scopes tell the same of a variable, or only the second does: then what is known on entry,
and if it is sure to be unbound there, no code elsewhere rebinds it. -/
def LevelAt (var : VarId) (first second : Option Bool) : Prop :=
  second = first ∨ first = none ∧ second = track.entry var ∧ (second = some true → track.rebinds var = false)

/-- Two scopes tell the same of the variables that deletes clear. -/
def Level (first second : Outline) : Prop := ∀ var, track.clears var → track.LevelAt var (first var) (second var)

/-- Two paths to a break tell the same, and the first tells of the floor. -/
structure Paths (floor : VarId → Prop) (first second : Outline) : Prop where
  level : track.Level first second
  above : ∀ var, floor var → (first var).isSome = true

/-- Two sketches agree on what is decided in the frame. -/
structure Matches (frame : Frame) (first second : Sketch) : Prop where
  slotsFirst : first.slots = track.slots
  slotsSecond : second.slots = track.slots
  optionsFirst : first.options = track.options
  optionsSecond : second.options = track.options
  scope : track.Paths frame.floor first.scope second.scope
  openedFirst : ∀ kind, (first.exits kind).isSome = frame.opened kind
  openedSecond : ∀ kind, (second.exits kind).isSome = frame.opened kind
  breaks : ∀ paths ∈ first.exits .brk, ∀ others ∈ second.exits .brk, List.Forall₂ (track.Paths frame.floor) paths others

/-- Two sketches match, and the first tells no less than an earlier one. -/
structure MatchesFrom (frame : Frame) (before first second : Sketch) : Prop extends track.Matches frame first second where
  within : before.scope.Within first.scope

variable {track} {frame : Frame} {first second before inner innerSecond : Sketch}
  {path other : Outline} {var : VarId}

theorem LevelAt.standsIn (level : track.LevelAt var (path var) (other var))
    (slotsFirst : first.slots = track.slots) (slotsSecond : second.slots = track.slots) :
    second.standsIn other var = first.standsIn path var := by
  have entry : first.entry var = track.entry var := by rw [Sketch.entry, slotsFirst, Track.entry]
  have entrySecond : second.entry var = track.entry var := by
    rw [Sketch.entry, slotsSecond, Track.entry]
  unfold Sketch.standsIn
  rw [entry, entrySecond]
  rcases level with same | ⟨free, known, -⟩
  · rw [same]
  · rw [free, known, Option.or_self, Option.none_or]

/-- Where the first scope tells of a variable, the second tells the same. -/
theorem LevelAt.eq_of_isSome {told known : Option Bool} (level : track.LevelAt var told known)
    (some_ : told.isSome = true) : known = told := by
  rcases level with same | ⟨rfl, -⟩
  · exact same
  · cases some_

section Levels

variable {paths others : List Outline} (levels : List.Forall₂ track.Level paths others)
  (clears : track.clears var)
include levels clears

/-- Where some path of the first tells of a variable, so does one of the second. -/
theorem any_of_levels (told : (paths.any fun path => (path var).isSome) = true) :
    (others.any fun path => (path var).isSome) = true := by
  induction levels with
  | nil => exact told
  | cons level _ ih =>
    simp only [List.any_cons, Bool.or_eq_true] at told ⊢
    exact told.imp (fun here => (level var clears).eq_of_isSome here ▸ here) ih

/-- Where only paths of the second tell of a variable, they tell what is known on entry. -/
theorem entry_of_levels (untold : ∀ path ∈ paths, path var = none)
    (told : (others.any fun path => (path var).isSome) = true) :
    ∃ unbound, track.entry var = some unbound ∧ (unbound = true → track.rebinds var = false) := by
  induction levels with
  | nil => cases told
  | cons level _ ih =>
    simp only [List.any_cons, Bool.or_eq_true] at told
    rcases told with here | later
    · rcases level var clears with same | ⟨-, known, firm⟩
      · rw [same, untold _ List.mem_cons_self] at here
        cases here
      · obtain ⟨unbound, tells⟩ := Option.isSome_iff_exists.1 here
        rw [tells] at known firm
        exact ⟨unbound, known.symm, fun sure => firm (congrArg some sure)⟩
    · exact ih (fun path mem => untold path (List.mem_cons_of_mem _ mem)) later

theorem all_of_levels (ask askSecond : Outline → Bool)
    (same : ∀ path other, track.LevelAt var (path var) (other var) → askSecond other = ask path) :
    others.all askSecond = paths.all ask := by
  induction levels with
  | nil => rfl
  | cons level _ ih => rw [List.all_cons, List.all_cons, ih, same _ _ (level var clears)]

end Levels

namespace Matches

variable (matches_ : track.Matches frame first second)
include matches_

theorem standsIn (level : track.Level path other) (clears : track.clears var) :
    second.standsIn other var = first.standsIn path var :=
  (level var clears).standsIn matches_.slotsFirst matches_.slotsSecond

theorem stands (clears : track.clears var) : second.stands var = first.stands var :=
  matches_.standsIn matches_.scope.level clears

/-- Only the scopes have changed. -/
theorem withScopes {scope scopeSecond : Outline} (level : track.Level scope scopeSecond)
    (within : first.scope.Within scope) :
    track.MatchesFrom frame first { first with scope } { second with scope := scopeSecond } :=
  { matches_ with
    scope := ⟨level, fun var low => within var (matches_.scope.above var low)⟩, within }

/-- A variable is entered in both. -/
theorem set {unbound unboundSecond : Bool} (same : track.clears var → unboundSecond = unbound) :
    track.MatchesFrom frame first (first.set var unbound) (second.set var unboundSecond) := by
  refine matches_.withScopes (fun other clears => ?_) fun other told => ?_
  · by_cases here : other = var
    · subst here
      rw [if_pos rfl, if_pos rfl]
      exact .inl (congrArg some (same clears))
    · rw [if_neg here, if_neg here]
      exact matches_.scope.level other clears
  · split
    · rfl
    · exact told

theorem look {after afterSecond : Sketch} (looked : first.look var = some after)
    (lookedSecond : second.look var = some afterSecond) :
    track.MatchesFrom frame first after afterSecond := by
  obtain ⟨unbound, stands, rfl⟩ := Option.map_eq_some_iff.1 looked
  obtain ⟨unboundSecond, standsSecond, rfl⟩ := Option.map_eq_some_iff.1 lookedSecond
  refine matches_.set fun clears => ?_
  have same := matches_.stands clears
  rw [stands, standsSecond] at same
  exact Option.some.inj same

theorem write {after afterSecond : Sketch} {unbound : Bool}
    (wrote : first.write var unbound = some after)
    (wroteSecond : second.write var unbound = some afterSecond) :
    track.MatchesFrom frame first after afterSecond := by
  obtain ⟨_, -, rfl⟩ := Option.map_eq_some_iff.1 wrote
  obtain ⟨_, -, rfl⟩ := Option.map_eq_some_iff.1 wroteSecond
  exact matches_.set fun _ => rfl

/-- An escape forgets the same, for it forgets nothing that only the second tells for sure. -/
theorem escape : track.MatchesFrom frame first first.escape second.escape := by
  refine matches_.withScopes (fun var clears => ?_) fun var told => ?_
  rotate_left
  · split
    · rwa [Option.isSome_map]
    · exact told
  rw [matches_.slotsFirst, matches_.slotsSecond, matches_.optionsFirst, matches_.optionsSecond]
  split
  · rename_i rebinds
    rcases matches_.scope.level var clears with same | ⟨free, known, firm⟩
    · exact .inl (by rw [same])
    · rw [free, known]
      rw [known] at firm
      cases entry : track.entry var with
      | none => exact .inl rfl
      | some unbound =>
        cases unbound with
        | false => exact .inr ⟨rfl, entry.symm, nofun⟩
        | true =>
          have fixed : track.rebinds var = false := firm entry
          exact absurd rebinds (ne_true_of_eq_false fixed)
  · exact matches_.scope.level var clears

/-- A single path is taken over. -/
theorem adopt (level : track.Level path other) (within : first.scope.Within path) :
    track.MatchesFrom frame first (first.join [path]) (second.join [other]) := by
  refine matches_.withScopes (fun var clears => ?_) fun var told => by simp [within var told]
  have own := matches_.scope.level var clears
  rcases level var clears with same | ⟨free, known, firm⟩
  · rw [same]
    cases told : path var with
    | none => simpa using own
    | some unbound => exact .inl rfl
  · -- The path has not looked at the variable, so the scope had not either.
    have untold : first.scope var = none := by
      by_contra some_
      have told := within var (Option.isSome_iff_ne_none.2 some_)
      rw [free] at told
      cases told
    rw [free, untold]
    rw [untold] at own
    cases entry : track.entry var with
    | none =>
      rw [known, entry]
      simpa using own
    | some unbound =>
      rw [known, entry]
      exact .inr ⟨rfl, entry.symm, fun sure => firm (by rw [known, entry]; exact sure)⟩

/-- Several paths that match pairwise are joined. Of a variable that no path of the first has looked
at, the second tells what is known on entry. -/
theorem joinSeveral {paths others : List Outline} (several : 2 ≤ paths.length)
    (levels : List.Forall₂ track.Level paths others)
    (within : ∀ path ∈ paths, first.scope.Within path) :
    track.MatchesFrom frame first (first.join paths) (second.join others) := by
  have severalSecond : 2 ≤ others.length := levels.length_eq ▸ several
  rw [Sketch.join_eq paths, Sketch.join_eq others]
  refine matches_.withScopes (fun var clears => ?_) fun var told => ?_
  rotate_left
  · obtain ⟨path, mem⟩ := List.exists_mem_of_length_pos (Nat.lt_of_lt_of_le Nat.zero_lt_two several)
    rw [Sketch.join_several several,
      if_pos (List.any_eq_true.2 ⟨path, mem, within path mem var told⟩)]
    rfl
  have all := all_of_levels levels clears (fun path => (first.standsIn path var).getD false)
    (fun path => (second.standsIn path var).getD false) fun _ _ level => by
    rw [level.standsIn matches_.slotsFirst matches_.slotsSecond]
  rw [Sketch.join_several several, Sketch.join_several severalSecond, all]
  by_cases told : (paths.any fun path => (path var).isSome) = true
  · rw [if_pos told, if_pos (any_of_levels levels clears told)]
    exact .inl rfl
  rw [if_neg told]
  by_cases toldSecond : (others.any fun path => (path var).isSome) = true
  · have untold : ∀ path ∈ paths, path var = none := by simpa using told
    obtain ⟨unbound, known, firm⟩ := entry_of_levels levels clears untold toldSecond
    have stands : ∀ path ∈ paths, (first.standsIn path var).getD false = unbound := by
      intro path mem
      have entry : first.entry var = track.entry var := by
        rw [Sketch.entry, matches_.slotsFirst, Track.entry]
      rw [Sketch.standsIn, untold path mem, entry, known]
      rfl
    have joined : (paths.all fun path => (first.standsIn path var).getD false) = unbound := by
      obtain ⟨path, mem⟩ :=
        List.exists_mem_of_length_pos (Nat.lt_of_lt_of_le Nat.zero_lt_two several)
      cases unbound with
      | true => exact List.all_eq_true.2 stands
      | false => exact List.all_eq_false.2 ⟨path, mem, by simp [stands path mem]⟩
    rw [if_pos toldSecond, joined]
    exact .inr ⟨rfl, known.symm, fun sure => firm (Option.some.inj sure)⟩
  · rw [if_neg toldSecond]
    exact .inl rfl

/-- Behind paths that match pairwise and have looked at what the scope has looked at. -/
theorem join {paths others : List Outline} (some_ : paths ≠ [])
    (levels : List.Forall₂ track.Level paths others)
    (within : ∀ path ∈ paths, first.scope.Within path) :
    track.MatchesFrom frame first (first.join paths) (second.join others) := by
  cases levels with
  | nil => exact absurd rfl some_
  | cons level rest =>
    cases rest with
    | nil => exact matches_.adopt level (within _ List.mem_cons_self)
    | cons next rest => exact matches_.joinSeveral (by simp) (.cons level (.cons next rest)) within

/-- The scopes are parked in registries of a kind that are open in both. -/
theorem park {kind : ExitKind} {paths others : List Outline}
    (opened : first.exits kind = some paths) (openedSecond : second.exits kind = some others) :
    track.MatchesFrom frame first (first.park kind (paths ++ [first.scope]))
      (second.park kind (others ++ [second.scope])) := by
  have open_ : frame.opened kind = true := by rw [← matches_.openedFirst, opened]; rfl
  refine { matches_ with
    openedFirst := fun other => ?_
    openedSecond := fun other => ?_
    breaks := fun left mem right memSecond => ?_
    within := .refl _ }
  · dsimp only [Sketch.park]
    split
    · rename_i same
      rw [same, open_]
      rfl
    · exact matches_.openedFirst other
  · dsimp only [Sketch.park]
    split
    · rename_i same
      rw [same, open_]
      rfl
    · exact matches_.openedSecond other
  · dsimp only [Sketch.park] at mem memSecond
    split at mem
    · rename_i same
      subst same
      rw [if_pos rfl] at memSecond
      obtain rfl := Option.some.inj mem
      obtain rfl := Option.some.inj memSecond
      exact List.rel_append (matches_.breaks _ opened _ openedSecond) (.cons matches_.scope .nil)
    · rename_i apart
      rw [if_neg apart] at memSecond
      exact matches_.breaks _ mem _ memSecond

/-- An exit is taken in both or in neither. -/
theorem exit (kind : ExitKind) : first.exit kind = none ∧ second.exit kind = none ∨
    ∃ after afterSecond, first.exit kind = some after ∧ second.exit kind = some afterSecond ∧
      track.MatchesFrom frame first after afterSecond := by
  have same : (second.exits kind).isSome = (first.exits kind).isSome := by
    rw [matches_.openedSecond, matches_.openedFirst]
  cases opened : first.exits kind with
  | some paths =>
    rw [opened] at same
    obtain ⟨others, openedSecond⟩ := Option.isSome_iff_exists.1 same
    exact .inr ⟨_, _, Sketch.exit_of_open opened, Sketch.exit_of_open openedSecond,
      matches_.park opened openedSecond⟩
  | none =>
    rw [opened] at same
    have closed : second.exits kind = none :=
      Option.not_isSome_iff_eq_none.1 (ne_true_of_eq_false same)
    unfold Sketch.exit
    rw [opened, closed]
    cases kind with
    | ret => exact .inr ⟨_, _, rfl, rfl, { matches_ with within := .refl _ }⟩
    | _ => exact .inl ⟨rfl, rfl⟩

/-- Inside a construct the registries are empty of the kinds that it catches. -/
theorem inside (caught : Catch) :
    track.Matches (frame.inside caught first.scope) (first.inside caught)
      (second.inside caught) where
  slotsFirst := matches_.slotsFirst
  slotsSecond := matches_.slotsSecond
  optionsFirst := matches_.optionsFirst
  optionsSecond := matches_.optionsSecond
  scope := by
    refine ⟨matches_.scope.level, fun var low => ?_⟩
    dsimp only [Frame.inside] at low
    split at low
    · exact low
    · exact matches_.scope.above var low
  openedFirst kind := by
    dsimp only [Sketch.inside, Frame.inside]
    split <;> simp [*, matches_.openedFirst]
  openedSecond kind := by
    dsimp only [Sketch.inside, Frame.inside]
    split <;> simp [*, matches_.openedSecond]
  breaks paths mem others memSecond := by
    dsimp only [Sketch.inside, Frame.inside] at mem memSecond ⊢
    split at mem
    · rename_i catches
      rw [if_pos catches] at memSecond
      obtain rfl := Option.some.inj mem
      obtain rfl := Option.some.inj memSecond
      exact .nil
    · rename_i outer
      rw [if_neg outer] at memSecond
      simpa [outer] using matches_.breaks paths mem others memSecond

/-- Behind a construct the registries are back of the kinds that it caught. -/
theorem leave {caught : Catch} (within : first.scope.Within inner.scope)
    (innerMatches : track.Matches (frame.inside caught first.scope) inner innerSecond) :
    track.MatchesFrom frame first (first.leave caught inner) (second.leave caught innerSecond) where
  slotsFirst := innerMatches.slotsFirst
  slotsSecond := innerMatches.slotsSecond
  optionsFirst := innerMatches.optionsFirst
  optionsSecond := innerMatches.optionsSecond
  scope := ⟨innerMatches.scope.level, fun var low => within var (matches_.scope.above var low)⟩
  openedFirst kind := by
    have inside := innerMatches.openedFirst kind
    dsimp only [Sketch.leave, Frame.inside] at inside ⊢
    split
    · exact matches_.openedFirst kind
    · rename_i outer
      simpa [outer] using inside
  openedSecond kind := by
    have inside := innerMatches.openedSecond kind
    dsimp only [Sketch.leave, Frame.inside] at inside ⊢
    split
    · exact matches_.openedSecond kind
    · rename_i outer
      simpa [outer] using inside
  breaks paths mem others memSecond := by
    have inside := innerMatches.breaks paths
    dsimp only [Sketch.leave, Frame.inside] at mem memSecond inside
    split at mem
    · rename_i catches
      rw [if_pos catches] at memSecond
      exact matches_.breaks paths mem others memSecond
    · rename_i outer
      rw [if_neg outer] at memSecond
      simpa [outer] using inside mem others memSecond
  within := within

/-- What was parked at exits of a kind is taken out. -/
theorem take (kind : ExitKind) :
    track.MatchesFrom frame first (first.take kind) (second.take kind) := by
  refine { matches_ with
    openedFirst := fun other => ?_
    openedSecond := fun other => ?_
    breaks := fun paths mem others memSecond => ?_
    within := .refl _ }
  · dsimp only [Sketch.take]
    split
    · rename_i same
      rw [Option.isSome_map, same, matches_.openedFirst]
    · exact matches_.openedFirst other
  · dsimp only [Sketch.take]
    split
    · rename_i same
      rw [Option.isSome_map, same, matches_.openedSecond]
    · exact matches_.openedSecond other
  · dsimp only [Sketch.take] at mem memSecond
    split at mem
    · rename_i same
      rw [if_pos same] at memSecond
      obtain ⟨_, -, rfl⟩ := Option.map_eq_some_iff.1 mem
      obtain ⟨_, -, rfl⟩ := Option.map_eq_some_iff.1 memSecond
      exact .nil
    · rename_i apart
      rw [if_neg apart] at memSecond
      exact matches_.breaks paths mem others memSecond

/-- Behind a part that was walked in a fork the scope is the one from before. -/
theorem beside (innerMatches : track.Matches frame inner innerSecond) :
    track.MatchesFrom frame first (first.beside inner) (second.beside innerSecond) :=
  { matches_ with
    openedFirst := innerMatches.openedFirst
    openedSecond := innerMatches.openedSecond
    breaks := innerMatches.breaks
    within := .refl _ }

end Matches

end Track

end ValueFlow
