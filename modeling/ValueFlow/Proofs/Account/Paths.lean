import ValueFlow.Proofs.Account.Moved
import ValueFlow.Proofs.Loop.View

/-!
# Where paths part and meet

How exits, forks, constructs and joins move a site. A break parks the scope at hand. Behind a fork
the scope is the one before it, and behind a construct the breaks are gone that it caught. Behind a
join each path leads to the scope that goes on, and nothing else does: `Traces.Meets` and
`Traces.ComesFrom` hold of the versions.
-/

namespace ValueFlow
set_option autoImplicit false

namespace Site

variable {site before after last : Site} {breaks : List Scope} {notes : List Note} {label : String}
  {caught : Catch}

/-- A break enters the scope at hand. -/
theorem gives_recordBreak (sound : site.Sound) :
    Gives (liftM (Analysis.recordExit .brk site.scope) : SiteM Unit) site fun _ after =>
      site.Moved after [site.scope.fork ExitKind.brk.snapshotLabel] [] ∧
        after.scope = site.scope := by
  have kept : Gives (liftM (Analysis.recordExit .brk site.scope) : SiteM Unit) site _ :=
    (obeys_recordExit .brk site (integrity_ready.2 sound)).gives
  have entered : Gives (liftM (Analysis.recordExit .brk site.scope) : SiteM Unit)
      site fun _ after =>
      after.scope = site.scope ∧
        after.analysis.exits.get .brk = (site.analysis.exits.get .brk).map
          (· ++ [site.scope.fork ExitKind.brk.snapshotLabel]) := by
    refine ends_liftAnalysis.2
      (Ends.mono (Analysis.ends_recordExit site.scope).gives ?_ fun _ _ _ => trivial)
    rintro _ state (⟨snapshots, opened, rfl⟩ | ⟨-, wrong, -⟩)
    · refine ⟨rfl, ?_⟩
      rw [Analysis.get_withSnapshots, if_pos rfl, opened]
      rfl
    · cases wrong
  refine (kept.and entered).mono ?_
  rintro _ after ⟨⟨kept, -⟩, scope, exits⟩
  have soundAfter := integrity_ready.1 kept.toReady
  refine ⟨?_, scope⟩
  exact {
    sound := soundAfter
    grows := kept.grows
    within := scope ▸ .refl _
    exits := exits
    taken := by
      intro path mem
      rw [List.mem_singleton.1 mem]
      exact ⟨.refl _, scope ▸ soundAfter.scope⟩
    recorded := by simp
    counted := by simp
    rising := .nil }

/-- Other exits are no breaks. -/
theorem gives_recordExit (sound : site.Sound) {kind : ExitKind} (other : kind ≠ .brk) :
    Gives (liftM (Analysis.recordExit kind site.scope) : SiteM Unit) site fun _ after =>
      site.Quiet after := by
  have kept : Gives (liftM (Analysis.recordExit kind site.scope) : SiteM Unit) site _ :=
    (obeys_recordExit kind site (integrity_ready.2 sound)).gives
  have entered : Gives (liftM (Analysis.recordExit kind site.scope) : SiteM Unit)
      site fun _ after =>
      after.scope = site.scope ∧ after.analysis.exits.get .brk = site.analysis.exits.get .brk := by
    refine ends_liftAnalysis.2
      (Ends.mono (Analysis.ends_recordExit site.scope).gives ?_ fun _ _ _ => trivial)
    rintro _ state (⟨snapshots, opened, rfl⟩ | ⟨-, -, rfl⟩)
    · exact ⟨rfl, by rw [Analysis.get_withSnapshots, if_neg other.symm]⟩
    · exact ⟨rfl, rfl⟩
  refine (kept.and entered).mono ?_
  rintro _ after ⟨⟨kept, -⟩, scope, exits⟩
  exact ⟨.plain (integrity_ready.1 kept.toReady) kept.grows (scope ▸ .refl _) exits, by rw [scope]⟩

/-- Behind a fork the scope is the one before it. -/
theorem Moved.outOfFork
    (moved : Moved ⟨before.scope.fork label, before.analysis⟩ last breaks notes)
    (sound : before.Sound) :
    before.Moved ⟨before.scope, last.analysis⟩ breaks notes :=
  { moved with
    sound := ⟨moved.sound.analysis, sound.scope.extend moved.grows.traces⟩
    within := .refl _ }

/-- Behind a construct those breaks are gone that it caught. -/
theorem Moved.outOf (sound : before.Sound)
    (moved : Moved ⟨before.scope, before.analysis.inside caught⟩ last breaks notes) :
    before.Moved ⟨last.scope, last.analysis.behind caught before.analysis.exits⟩
      (if caught.breaks then [] else breaks) notes :=
  { moved with
    sound := ⟨moved.sound.analysis.behind sound.analysis moved.grows.traces caught,
      moved.sound.scope⟩
    grows := ⟨moved.grows.traces, moved.grows.uses, moved.grows.vars, moved.grows.options,
      moved.grows.edits⟩
    exits := by
      have inner := moved.exits
      rw [Analysis.inside, Exits.get_enter] at inner
      rw [Analysis.behind, Exits.get_leave]
      change (if caught.breaks = true then _ else _) = _
      change _ = ((if caught.breaks = true then _ else _) : Option _).map _ at inner
      split
      · simp
      · rename_i free
        rw [inner, if_neg free]
    taken := by
      split
      · simp
      · exact moved.taken }

/-- A path that is taken over leads to the scope at hand, and nothing else does. -/
theorem adopted (sound : site.Sound) {path : Scope} (within : site.scope.Within path)
    (backed : path.Backed site.analysis.traces) :
    site.Moved { site with scope := site.scope.adopt path } [] [] ∧
      site.analysis.traces.Meets path.versionOf (site.scope.adopt path).versionOf ∧
      site.analysis.traces.ComesFrom (· = path.versionOf) (site.scope.adopt path).versionOf := by
  refine ⟨?_, fun var => .inl (within.versionOf_adopt var),
    fun var => .inl ⟨_, rfl, within.versionOf_adopt var⟩⟩
  have more : site.scope.Within (site.scope.adopt path) :=
    fun var mem => Std.ExtTreeMap.mem_union_iff.2 (.inl mem)
  exact .plain ⟨sound.analysis, sound.scope.adopt backed⟩ (.refl _) more rfl

/-- So it is with several paths that are joined. -/
theorem Joined.moved {paths : List Scope} (joined : site.Joined paths [] after)
    (nonempty : paths ≠ []) (within : ∀ path ∈ paths, site.scope.Within path) :
    site.Moved after [] [] ∧
      (∀ path ∈ paths, after.analysis.traces.Meets path.versionOf after.scope.versionOf) ∧
      after.analysis.traces.ComesFrom (fun versions => ∃ path ∈ paths, versions = path.versionOf)
        after.scope.versionOf := by
  obtain ⟨first, memFirst⟩ := List.exists_mem_of_ne_nil paths nonempty
  refine ⟨?_, fun path mem var => ?_, fun var => ?_⟩
  · exact .plain joined.sound joined.grows ((within first memFirst).trans (joined.within memFirst))
      (by rw [joined.logOnly.exits])
  · rcases joined.joins var with same | merged
    · exact .inl (same path mem).symm
    · exact .inr ⟨_, merged, Scope.mem_versionsOf.2 ⟨path, mem, rfl⟩⟩
  · rcases joined.joins var with same | merged
    · exact .inl ⟨first.versionOf, ⟨first, memFirst, rfl⟩, (same first memFirst).symm⟩
    · refine .inr ⟨_, merged, fun source mem => ?_⟩
      obtain ⟨path, mem, same⟩ := Scope.mem_versionsOf.1 mem
      exact ⟨path.versionOf, ⟨path, mem, rfl⟩, same⟩

/-- Behind a join each path leads to the scope at hand, and nothing else. -/
theorem gives_join (sound : site.Sound) {paths : List Scope}
    (fits : ∀ path ∈ paths, site.scope.Within path ∧ path.Backed site.analysis.traces) :
    Gives (join paths) site fun _ after => site.Moved after [] [] ∧
      (∀ path ∈ paths, after.analysis.traces.Meets path.versionOf after.scope.versionOf) ∧
      after.analysis.traces.ComesFrom (fun versions => ∃ path ∈ paths, versions = path.versionOf)
        after.scope.versionOf := by
  by_cases nonempty : paths = []
  · subst nonempty
    exact .throw
  refine (ends_join sound nonempty fun path mem => (fits path mem).2).gives.mono ?_
  rintro _ after (⟨path, rfl, rfl⟩ | ⟨-, joined⟩)
  · obtain ⟨within, backed⟩ := fits path List.mem_cons_self
    simpa using adopted sound within backed
  · exact joined.moved nonempty fun path mem => (fits path mem).1

end Site

end ValueFlow
