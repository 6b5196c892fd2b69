import ValueFlow.Proofs.Integrity.Access
import ValueFlow.Scope.Join

/-!
# What a join does to a sound site

Behind the join of several paths a variable that some path looked at stands either at the one
version that all paths hold, or at a new version that may be any of theirs (`Traces.Joins`). No
other variable is in the scope. From a sound site and scopes of recorded versions a join never
fails (`ends_join`).
-/

namespace ValueFlow
set_option autoImplicit false

namespace Scope

variable {paths : List Scope} {var : VarId}

/-- Versions that are not one and the same are several. -/
theorem two_le_length_of_several {versions : List Version} (nonempty : versions ≠ [])
    (several : ∀ version, versions = [version] → False) : 2 ≤ versions.length := by
  match versions, nonempty, several with
  | [version], _, several => exact absurd rfl (several version)
  | _ :: _ :: _, _, _ => simp

theorem mem_activeVars {scope : Scope} :
    var ∈ scope.activeVars ↔ ∃ version, scope.active[var]? = some version := by
  rw [activeVars, Std.ExtTreeMap.mem_keys, Std.ExtTreeMap.mem_iff_isSome_getElem?,
    Option.isSome_iff_exists]

theorem mem_varsOf : var ∈ varsOf paths ↔ ∃ path ∈ paths, var ∈ path.activeVars := by
  simp [varsOf]

theorem nodup_varsOf (paths : List Scope) : (varsOf paths).Nodup := by
  unfold varsOf
  refine Std.ExtTreeSet.distinct_toList.imp fun {first second} distinct same => ?_
  exact distinct (by simp [same])

theorem mem_versionsOf {version : Version} :
    version ∈ versionsOf paths var ↔ ∃ path ∈ paths, path.versionOf var = version := by
  simp [versionsOf]

theorem versionsOf_sorted (paths : List Scope) (var : VarId) :
    (versionsOf paths var).Pairwise (· < ·) := by
  unfold versionsOf
  exact Std.ExtTreeSet.ordered_toList.imp fun {first second} below => Nat.compare_eq_lt.1 below

theorem versionsOf_ne_nil (some : paths ≠ []) (var : VarId) : versionsOf paths var ≠ [] := by
  obtain ⟨path, mem⟩ := List.exists_mem_of_ne_nil paths some
  exact List.ne_nil_of_mem (mem_versionsOf.2 ⟨path, mem, rfl⟩)

/-- All paths hold the variable at one version. -/
theorem versionsOf_eq_singleton {version : Version} (nonempty : paths ≠ []) :
    versionsOf paths var = [version] ↔ ∀ path ∈ paths, path.versionOf var = version := by
  constructor
  · intro single path mem
    exact List.mem_singleton.1 (single ▸ mem_versionsOf.2 ⟨path, mem, rfl⟩)
  · intro same
    have all : ∀ other ∈ versionsOf paths var, other = version := by
      intro other mem
      obtain ⟨path, memPath, rfl⟩ := mem_versionsOf.1 mem
      exact same path memPath
    obtain ⟨first, rest, whole⟩ := List.exists_cons_of_ne_nil (versionsOf_ne_nil nonempty var)
    have sorted := versionsOf_sorted paths var
    rw [whole] at all sorted ⊢
    obtain rfl := all first List.mem_cons_self
    cases rest with
    | nil => rfl
    | cons second rest =>
      have below := (List.pairwise_cons.1 sorted).1 second List.mem_cons_self
      rw [all second (by simp)] at below
      exact absurd below (Nat.lt_irrefl _)

/-- A variable that no path has looked at is active on none of them. -/
theorem inactive_of_unseen (unseen : var ∉ varsOf paths) {path : Scope} (mem : path ∈ paths) :
    path.active[var]? = none := by
  cases held : path.active[var]? with
  | none => rfl
  | some version => exact absurd (mem_varsOf.2 ⟨path, mem, mem_activeVars.2 ⟨version, held⟩⟩) unseen

/-- The version that a path holds is recorded if some path has looked at the variable. -/
theorem mem_of_versionsOf {traces : Traces} {vars : Variables} (sound : traces.Sound vars)
    (backed : ∀ path ∈ paths, path.Backed traces) (seen : var ∈ varsOf paths) {version : Version}
    (mem : version ∈ versionsOf paths var) : (⟨var, version⟩ : TraceKey) ∈ traces := by
  obtain ⟨path, memPath, rfl⟩ := mem_versionsOf.1 mem
  unfold versionOf
  cases held : path.active[var]? with
  | some version => exact backed path memPath var version held
  | none =>
    obtain ⟨looked, memLooked, active⟩ := mem_varsOf.1 seen
    obtain ⟨version, held⟩ := mem_activeVars.1 active
    exact sound.entry_mem (backed looked memLooked var version held)

theorem getElem?_adopt (scope path : Scope) (var : VarId) :
    (scope.adopt path).active[var]? = (path.active[var]?).or scope.active[var]? :=
  Std.ExtTreeMap.getElem?_union

/-- A path that is taken over brings its versions along, and leaves the others where they are. -/
theorem versionOf_adopt (scope path : Scope) (var : VarId) :
    (scope.adopt path).versionOf var = path.versionOf var ∨
      (scope.adopt path).versionOf var = scope.versionOf var := by
  have taken := getElem?_adopt scope path var
  cases held : path.active[var]? with
  | some version => exact .inl (by simp [versionOf, taken, held])
  | none => exact .inr (by simp [versionOf, taken, held])

/-- A path that has looked at all that the scope has looked at is taken over as it is. -/
theorem Within.versionOf_adopt {scope path : Scope} (within : scope.Within path) (var : VarId) :
    (scope.adopt path).versionOf var = path.versionOf var := by
  unfold versionOf
  rw [getElem?_adopt]
  cases held : path.active[var]? with
  | some version => rfl
  | none =>
    have free : var ∉ scope.active := fun mem => by
      simpa [held] using Std.ExtTreeMap.mem_iff_isSome_getElem?.1 (within var mem)
    rw [Std.ExtTreeMap.getElem?_eq_none free]
    rfl

theorem Backed.adopt {scope path : Scope} {traces : Traces} (backed : scope.Backed traces)
    (backedPath : path.Backed traces) : (scope.adopt path).Backed traces := by
  intro var version held
  rw [getElem?_adopt, Option.or_eq_some_iff] at held
  rcases held with held | ⟨-, held⟩
  · exact backedPath var version held
  · exact backed var version held

end Scope

/-- The version stands for those at which the paths hold the variable: it is the version of all of
them, or a recorded join of theirs. -/
def Traces.Joins (traces : Traces) (paths : List Scope) (var : VarId) (version : Version) : Prop :=
  (∀ path ∈ paths, path.versionOf var = version) ∨
    traces.origin? ⟨var, version⟩ = some (.joined (Scope.versionsOf paths var))

theorem Traces.Joins.extend {older newer : Traces} {paths : List Scope} {var : VarId}
    {version : Version} (joins : older.Joins paths var version) (extends_ : older.Extends newer) :
    newer.Joins paths var version :=
  joins.imp_right (extends_ _ _)

namespace Site

/-- Paths were joined, but for the variables that are pending. -/
structure Joined (paths : List Scope) (before : Site) (pending : List VarId) (after : Site) : Prop where
  sound : after.Sound
  grows : before.analysis.Grows after.analysis
  logOnly : before.analysis.LogOnly after.analysis
  seen : ∀ var ∈ pending, var ∈ Scope.varsOf paths
  nodup : pending.Nodup
  done : ∀ var ∈ Scope.varsOf paths, var ∉ pending →
    ∃ version, after.scope.active[var]? = some version ∧ after.analysis.traces.Joins paths var version
  untouched : ∀ var, var ∉ Scope.varsOf paths → after.scope.active[var]? = none
  fresh : ∀ var version, after.scope.active[var]? = some version → (∃ path ∈ paths, path.versionOf var ≠ version) →
    (⟨var, version⟩ : TraceKey) ∉ before.analysis.traces

variable {site : Site}

namespace Joined

variable {paths : List Scope} {path : Scope} {before after : Site} {var : VarId} {version : Version}

/-- What the paths have looked at is in the scope behind the join. -/
theorem within (joined : before.Joined paths [] after) (mem : path ∈ paths) :
    path.Within after.scope := by
  intro var looked
  have seen := Scope.mem_varsOf.2 ⟨path, mem, Std.ExtTreeMap.mem_keys.2 looked⟩
  obtain ⟨version, active, -⟩ := joined.done var seen List.not_mem_nil
  rw [Std.ExtTreeMap.mem_iff_isSome_getElem?, active]
  rfl

/-- Every variable stands for those versions at which the paths hold it, whether they have looked at
it or not. -/
theorem joins (joined : before.Joined paths [] after) (var : VarId) :
    after.analysis.traces.Joins paths var (after.scope.versionOf var) := by
  by_cases seen : var ∈ Scope.varsOf paths
  · obtain ⟨version, active, joins⟩ := joined.done var seen List.not_mem_nil
    rwa [Scope.versionOf_of_active active]
  · refine .inl fun path mem => ?_
    rw [Scope.versionOf, Scope.versionOf, Scope.inactive_of_unseen seen mem,
      joined.untouched var seen]

/-- Where the paths agree, the scope behind the join agrees with them: two versions of a recorded
join differ. -/
theorem versionOf_eq (joined : before.Joined paths [] after) (nonempty : paths ≠ [])
    (agree : ∀ path ∈ paths, path.versionOf var = version) :
    after.scope.versionOf var = version := by
  rcases joined.joins var with same | merged
  · obtain ⟨path, mem⟩ := List.exists_mem_of_ne_nil paths nonempty
    rw [← same path mem, agree path mem]
  · obtain ⟨-, two⟩ := joined.sound.analysis.traces.joined _ _ merged
    rw [(Scope.versionsOf_eq_singleton nonempty).2 agree] at two
    exact absurd two (Nat.not_succ_le_self 1)

/-- Where some path does not agree with the scope behind the join, the version there is a new
one. -/
theorem new_of_ne (joined : before.Joined paths [] after) (mem : path ∈ paths)
    (differs : path.versionOf var ≠ after.scope.versionOf var) :
    (⟨var, after.scope.versionOf var⟩ : TraceKey) ∉ before.analysis.traces := by
  by_cases seen : var ∈ Scope.varsOf paths
  · obtain ⟨version, active, -⟩ := joined.done var seen List.not_mem_nil
    rw [Scope.versionOf_of_active active] at differs ⊢
    exact joined.fresh var version active ⟨path, mem, differs⟩
  · rw [Scope.versionOf, Scope.versionOf, Scope.inactive_of_unseen seen mem,
      joined.untouched var seen] at differs
    exact absurd rfl differs

end Joined

/-- One variable was joined: it stands at a version for all of the versions given. -/
structure JoinedOne (var : VarId) (versions : List Version) (before after : Site) : Prop where
  sound : after.Sound
  grows : before.analysis.Grows after.analysis
  logOnly : before.analysis.LogOnly after.analysis
  joined : ∃ version, after.scope = before.scope.setVersion var version ∧
    (versions = [version] ∨ after.analysis.traces.origin? ⟨var, version⟩ = some (.joined versions) ∧
      (⟨var, version⟩ : TraceKey) ∉ before.analysis.traces)

theorem ends_joinVersions (sound : site.Sound) {var : VarId} {versions : List Version}
    (nonempty : versions ≠ []) (sorted : versions.Pairwise (· < ·))
    (recorded : ∀ version ∈ versions, (⟨var, version⟩ : TraceKey) ∈ site.analysis.traces) :
    Ends (joinVersions var versions) site (fun _ after => site.JoinedOne var versions after)
      (fun _ _ => False) := by
  unfold joinVersions
  split
  · rename_i version
    rw [ends_setVersion]
    exact {
      sound := ⟨sound.analysis, sound.scope.setVersion (recorded version (by simp))⟩
      grows := .refl _
      logOnly := .refl _
      joined := ⟨version, rfl, .inl rfl⟩ }
  · rename_i several
    have two := Scope.two_le_length_of_several nonempty several
    obtain ⟨first, memFirst⟩ := List.exists_mem_of_ne_nil versions nonempty
    rw [ends_bind]
    have found :
        Ends (versions.forM fun version => discard <|
          (liftM (Traces.find ⟨var, version⟩) : SiteM Trace)) site
        (fun _ after => after = site) (fun _ _ => False) := by
      refine (ends_forM (fun pending after => after = site ∧ ∀ version ∈ pending,
        (⟨var, version⟩ : TraceKey) ∈ site.analysis.traces) ?_ ⟨rfl, recorded⟩).mono
        (fun _ _ kept => kept.1) (fun _ _ fell => fell)
      rintro version pending after ⟨rfl, known⟩
      rw [ends_discard, ends_liftTracesSite, Traces.ends_find]
      exact ⟨fun _ _ => ⟨rfl, fun other mem => known other (by simp [mem])⟩,
        fun absent => absurd (known version (by simp)) (Traces.not_mem_of_find absent)⟩
    refine found.mono ?_ (fun _ _ impossible => impossible)
    rintro _ _ rfl
    rw [ends_bind, ends_liftAnalysis]
    refine (Analysis.ends_recordNext sound.analysis (.joined versions)
      ⟨first, recorded first memFirst⟩ recorded (by rintro _ ⟨⟩; exact ⟨sorted, two⟩)).mono ?_
      (fun _ _ impossible => impossible)
    intro version state step
    rw [ends_setVersion]
    exact {
      sound := ⟨step.sound,
        (sound.scope.extend step.grows.traces).setVersion (Traces.mem_of_origin? step.recorded)⟩
      grows := step.grows
      logOnly := step.logOnly
      joined := ⟨version, rfl, .inr ⟨step.recorded, step.free⟩⟩ }

/-- The next pending variable is joined. -/
theorem Joined.step {paths : List Scope} (nonempty : paths ≠ [])
    (backed : ∀ path ∈ paths, path.Backed site.analysis.traces) {var : VarId}
    {pending : List VarId} {middle : Site} (joined : site.Joined paths (var :: pending) middle) :
    Ends (joinVersions var (Scope.versionsOf paths var)) middle
      (fun _ after => site.Joined paths pending after)
      (fun _ _ => False) := by
  have seen := joined.seen var (by simp)
  have recorded : ∀ version ∈ Scope.versionsOf paths var, (⟨var, version⟩ : TraceKey) ∈
      middle.analysis.traces :=
    fun version mem => Scope.mem_of_versionsOf joined.sound.analysis.traces
      (fun path mem => (backed path mem).extend joined.grows.traces) seen mem
  refine (ends_joinVersions joined.sound (Scope.versionsOf_ne_nil nonempty var)
    (Scope.versionsOf_sorted paths var) recorded).mono ?_ (fun _ _ impossible => impossible)
  intro _ after one
  obtain ⟨version, scope, stands⟩ := one.joined
  obtain ⟨fresh, nodup⟩ := List.nodup_cons.1 joined.nodup
  have agree (single : Scope.versionsOf paths var = [version]) : ∀ path ∈ paths,
      path.versionOf var = version := by
    intro path mem
    have held : path.versionOf var ∈ Scope.versionsOf paths var :=
      Scope.mem_versionsOf.2 ⟨path, mem, rfl⟩
    exact List.mem_singleton.1 (single ▸ held)
  have joins : after.analysis.traces.Joins paths var version := stands.imp agree And.left
  exact {
    sound := one.sound
    grows := joined.grows.trans one.grows
    logOnly := joined.logOnly.trans one.logOnly
    seen := fun other mem => joined.seen other (by simp [mem])
    nodup := nodup
    done := by
      intro other known waits
      rw [scope, Scope.getElem?_setVersion]
      by_cases same : other = var
      · subst same
        exact ⟨version, by simp, joins⟩
      · obtain ⟨held, active, old⟩ := joined.done other known (by simp [same, waits])
        exact ⟨held, by simpa [same] using active, old.extend one.grows.traces⟩
    untouched := by
      intro other unknown
      have apart : other ≠ var := fun same => unknown (same ▸ seen)
      simpa [scope, Scope.getElem?_setVersion, apart] using joined.untouched other unknown
    fresh := by
      intro other held active differs
      rw [scope, Scope.getElem?_setVersion] at active
      split at active
      · rename_i same
        subst same
        obtain rfl := Option.some.inj active
        obtain ⟨path, mem, ne⟩ := differs
        rcases stands with single | ⟨-, free⟩
        · exact absurd (agree single path mem) ne
        · exact fun old => free (joined.grows.traces.mem old)
      · exact joined.fresh other held active differs }

/-- Scopes of recorded versions can be joined, unless there is none. A single one is taken over. -/
theorem ends_join (sound : site.Sound) {paths : List Scope} (nonempty : paths ≠ [])
    (backed : ∀ path ∈ paths, path.Backed site.analysis.traces) :
    Ends (join paths) site
      (fun _ after =>
        (∃ path, paths = [path] ∧ after = { site with scope := site.scope.adopt path }) ∨
        2 ≤ paths.length ∧ site.Joined paths [] after)
      (fun _ _ => False) := by
  match paths, nonempty with
  | [path], _ => exact .inl ⟨path, rfl, rfl⟩
  | first :: second :: rest, nonempty =>
    unfold join
    rw [ends_bind, ends_modify]
    refine (ends_forM (site.Joined (first :: second :: rest))
      (fun _ _ _ => Joined.step nonempty backed) ?_).mono (fun _ _ joined => .inr ⟨by simp, joined⟩)
      (fun _ _ impossible => impossible)
    exact {
      sound := ⟨sound.analysis, Scope.backed_fresh _ _⟩
      grows := .refl _
      logOnly := .refl _
      seen := fun _ mem => mem
      nodup := Scope.nodup_varsOf _
      done := fun var known waits => absurd known waits
      untouched := by simp [Scope.fresh]
      fresh := by simp [Scope.fresh] }

end Site

end ValueFlow
