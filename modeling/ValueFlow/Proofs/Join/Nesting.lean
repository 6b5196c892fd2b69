import ValueFlow.Proofs.Integrity.Binding
import ValueFlow.Proofs.Join.Exact

/-!
# Joins of joins

Joins may be nested, as conditionals and loops are. What a nest of joins leaves of a variable is
told by its members alone: the leaves of the version behind it are those of the versions that the
members hold, and it is sure to be bound, or to be unbound, where all members are
(`Traces.Gathers`). Version numbers and the joins recorded on the way depend on the grouping. Leaves
and answers do not (`Session.nested_joins_agree`).
-/

namespace ValueFlow
set_option autoImplicit false

namespace Traces

variable {older newer : Traces} {vars newerVars : Variables} {var : VarId} {versions : List Version}
  {version : Version}

/-- A version of the newer table stands for versions of the older one: it has the leaves of all of
them, and its two answers are sure where those of all of them are. -/
structure Gathers (older newer : Traces) (var : VarId) (versions : List Version) (version : Version) : Prop where
  leaves : ∀ leaf, newer.Leaf var version leaf ↔ ∃ source ∈ versions, older.Leaf var source leaf
  bound : ∃ answer : Version → Bool, (∀ source ∈ versions, older.isSurelyBound ⟨var, source⟩ = .ok (answer source)) ∧
    newer.isSurelyBound ⟨var, version⟩ = .ok (versions.all answer)
  unbound : ∃ answer : Version → Bool, (∀ source ∈ versions, older.isSurelyUnbound ⟨var, source⟩ = .ok (answer source)) ∧
    newer.isSurelyUnbound ⟨var, version⟩ = .ok (versions.all answer)

/-- Two versions, each in its own table, have the same leaves and give the same two answers. -/
structure TellSame (first second : Traces) (var : VarId) (version other : Version) : Prop where
  leaves : ∀ leaf, first.Leaf var version leaf ↔ second.Leaf var other leaf
  bound : first.isSurelyBound ⟨var, version⟩ = second.isSurelyBound ⟨var, other⟩
  unbound : first.isSurelyUnbound ⟨var, version⟩ = second.isSurelyUnbound ⟨var, other⟩

/-- The leaves of a recorded version do not change while the table grows. -/
theorem leaf_extend_iff (linked : older.Linked) (extends_ : older.Extends newer)
    (recorded : (⟨var, version⟩ : TraceKey) ∈ older) (leaf : Version) :
    newer.Leaf var version leaf ↔ older.Leaf var version leaf :=
  ⟨fun below => below.older linked extends_ recorded,
    fun below => below.extend extends_ (below.mem_older linked (.refl _) recorded)⟩

/-- The answer for a version that has the leaves of older versions is yes where all of theirs
are. -/
theorem everyLeaf_of_leaves (sound : older.Sound vars) (soundNewer : newer.Sound newerVars)
    (extends_ : older.Extends newer) (recorded : (⟨var, version⟩ : TraceKey) ∈ newer)
    (known : ∀ source ∈ versions, (⟨var, source⟩ : TraceKey) ∈ older)
    (leaves : ∀ leaf, newer.Leaf var version leaf ↔ ∃ source ∈ versions, older.Leaf var source leaf)
    (holds : Origin → Bool) :
    ∃ answer : Version → Bool,
      (∀ source ∈ versions, older.everyLeaf holds var source = .ok (answer source)) ∧
      newer.everyLeaf holds var version = .ok (versions.all answer) := by
  have told (source : Version) : ∃ answer, source ∈ versions →
      older.everyLeaf holds var source = .ok answer ∧
        (answer = true ↔ older.AllLeaves var source holds) := by
    by_cases mem : source ∈ versions
    · obtain ⟨answer, told⟩ := sound.everyLeaf holds (known source mem)
      exact ⟨answer, fun _ => told⟩
    · exact ⟨true, fun other => absurd other mem⟩
  choose answer told using told
  obtain ⟨all, asked, iff⟩ := soundNewer.everyLeaf holds recorded
  have gathered : newer.AllLeaves var version holds ↔ ∀ source ∈ versions,
      older.AllLeaves var source holds := by
    have later (source : Version) (mem : source ∈ versions) : newer.AllLeaves var source holds ↔
        older.AllLeaves var source holds :=
      allLeaves_extend_iff sound.linked extends_ (known source mem)
    constructor
    · intro every source mem
      refine (later source mem).1 fun leaf below => every leaf ((leaves leaf).2 ⟨source, mem, ?_⟩)
      exact below.older sound.linked extends_ (known source mem)
    · intro every leaf below
      obtain ⟨source, mem, below⟩ := (leaves leaf).1 below
      exact (later source mem).2 (every source mem) leaf
        ((leaf_extend_iff sound.linked extends_ (known source mem) leaf).2 below)
  have same : all = versions.all answer := by
    rw [Bool.eq_iff_iff, iff, gathered, List.all_eq_true]
    exact forall₂_congr fun source mem => (told source mem).2.symm
  exact ⟨answer, fun source mem => (told source mem).1, same ▸ asked⟩

/-- What holds of the leaves settles the answers. -/
theorem gathers_of_leaves (sound : older.Sound vars) (soundNewer : newer.Sound newerVars)
    (extends_ : older.Extends newer) (recorded : (⟨var, version⟩ : TraceKey) ∈ newer)
    (known : ∀ source ∈ versions, (⟨var, source⟩ : TraceKey) ∈ older)
    (leaves : ∀ leaf, newer.Leaf var version leaf ↔ ∃ source ∈ versions,
      older.Leaf var source leaf) :
    older.Gathers newer var versions version :=
  ⟨leaves, everyLeaf_of_leaves sound soundNewer extends_ recorded known leaves leavesBound,
    everyLeaf_of_leaves sound soundNewer extends_ recorded known leaves leavesUnbound⟩

/-- The two answers depend on the set of the versions that are stood for. -/
theorem Gathers.tellSame {second : Traces} {others : List Version} {other : Version}
    (gathers : older.Gathers newer var versions version)
    (gathersOther : older.Gathers second var others other)
    (same : ∀ source, source ∈ others ↔ source ∈ versions) :
    newer.TellSame second var version other := by
  have agree {ask : Version → Except Fault Bool} {asked askedOther : Except Fault Bool}
      (told : ∃ answer : Version → Bool, (∀ source ∈ versions, ask source = .ok (answer source)) ∧
        asked = .ok (versions.all answer))
      (toldOther : ∃ answer : Version → Bool,
        (∀ source ∈ others, ask source = .ok (answer source)) ∧
        askedOther = .ok (others.all answer)) : asked = askedOther := by
    obtain ⟨answer, each, rfl⟩ := told
    obtain ⟨answerOther, eachOther, rfl⟩ := toldOther
    congr 1
    rw [Bool.eq_iff_iff, List.all_eq_true, List.all_eq_true]
    simp only [same]
    refine forall₂_congr fun source mem => ?_
    rw [Except.ok.inj ((each source mem).symm.trans (eachOther source ((same source).2 mem)))]
  refine ⟨fun leaf => ?_, agree gathers.bound gathersOther.bound,
    agree gathers.unbound gathersOther.unbound⟩
  rw [gathers.leaves, gathersOther.leaves]
  simp only [same]

section SameTraces

variable (same : ∀ version, newer[(⟨var, version⟩ : TraceKey)]? = older[(⟨var, version⟩ : TraceKey)]?)

include same

theorem leaf_of_same {leaf : Version} (below : older.Leaf var version leaf) :
    newer.Leaf var version leaf := by
  have origins (version : Version) : newer.origin? ⟨var, version⟩ =
      older.origin? ⟨var, version⟩ := by
    rw [origin?, origin?, same]
  induction below with
  | here plain => exact .here fun sources => origins _ ▸ plain sources
  | through joined mem _ ih => exact .through ((origins _).trans joined) mem ih

theorem everyLeaf_of_same (holds : Origin → Bool) (version : Version) :
    newer.everyLeaf holds var version = older.everyLeaf holds var version := by
  induction version using Nat.strongRecOn with
  | ind version ih =>
    rw [everyLeaf, everyLeaf, same]
    cases older[(⟨var, version⟩ : TraceKey)]? with
    | none => rfl
    | some trace =>
      dsimp only
      split
      · congr 1
        funext source
        split
        · exact ih source ‹_›
        · rfl
      · rfl

/-- Tables with the same traces of a variable tell the same of it. -/
theorem tellSame_of_same (version : Version) : newer.TellSame older var version version where
  leaves _ := ⟨leaf_of_same fun version => (same version).symm, leaf_of_same same⟩
  bound := everyLeaf_of_same same leavesBound version
  unbound := everyLeaf_of_same same leavesUnbound version

end SameTraces

end Traces

/-- Scopes in one state hold what members in an older state held: each variable that some member has
looked at has the leaves that it had in them, and nothing happened to any other. -/
structure Analysis.Gathered (members : List Scope) (before : Analysis) (scopes : List Scope) (after : Analysis) : Prop where
  sound : after.Sound
  grows : before.traces.Extends after.traces
  backed : ∀ scope ∈ scopes, scope.Backed after.traces
  active : ∀ var, (∃ scope ∈ scopes, var ∈ scope.active) ↔ ∃ member ∈ members, var ∈ member.active
  leaves : ∀ var, (⟨var, .entry⟩ : TraceKey) ∈ before.traces → ∀ leaf,
    (∃ scope ∈ scopes, after.traces.Leaf var (scope.versionOf var) leaf) ↔
      ∃ member ∈ members, before.traces.Leaf var (member.versionOf var) leaf
  beside : ∀ var, (¬ ∃ member ∈ members, var ∈ member.active) → before.SameAt var after

theorem Scope.Backed.mem_versionOf {scope : Scope} {traces : Traces}
    (backed : scope.Backed traces) {var : VarId} (entry : (⟨var, .entry⟩ : TraceKey) ∈ traces) :
    (⟨var, scope.versionOf var⟩ : TraceKey) ∈ traces := by
  cases held : scope.active[var]? with
  | some version => exact Scope.versionOf_of_active held ▸ backed var version held
  | none => simpa [Scope.versionOf, held] using entry

theorem Scope.Backed.entry_mem {scope : Scope} {traces : Traces} {vars : Variables}
    (backed : scope.Backed traces) (sound : traces.Sound vars) {var : VarId}
    (looked : var ∈ scope.active) : (⟨var, .entry⟩ : TraceKey) ∈ traces := by
  rw [Std.ExtTreeMap.mem_iff_isSome_getElem?, Option.isSome_iff_exists] at looked
  exact sound.entry_mem (backed var _ looked.choose_spec)

namespace Analysis.Gathered

variable {members others scopes last : List Scope} {before middle after : Analysis}

/-- The members themselves hold what they hold. -/
theorem refl (sound : before.Sound) (backed : ∀ member ∈ members, member.Backed before.traces) :
    before.Gathered members members before :=
  ⟨sound, .refl _, backed, fun _ => .rfl, fun _ _ _ => .rfl, fun _ _ => .refl _ _⟩

theorem trans (early : before.Gathered members scopes middle)
    (late : middle.Gathered scopes last after) :
    before.Gathered members last after where
  sound := late.sound
  grows := early.grows.trans late.grows
  backed := late.backed
  active var := (late.active var).trans (early.active var)
  leaves var entry leaf := (late.leaves var (early.grows.mem entry) leaf).trans
    (early.leaves var entry leaf)
  beside var unseen :=
    (early.beside var unseen).trans (late.beside var fun seen => unseen ((early.active var).1 seen))

/-- More members may be gathered behind the first. -/
theorem append (sound : before.Sound) (backed : ∀ other ∈ others, other.Backed before.traces)
    (early : before.Gathered members scopes middle) (late : middle.Gathered others last after) :
    before.Gathered (members ++ others) (scopes ++ last) after where
  sound := late.sound
  grows := early.grows.trans late.grows
  backed scope mem :=
    (List.mem_append.1 mem).elim (fun mem => (early.backed scope mem).extend late.grows)
      (late.backed scope)
  active var := by
    simp only [List.mem_append, or_and_right, exists_or]
    rw [early.active, late.active]
  leaves var entry leaf := by
    have kept (scope : Scope) (mem : scope ∈ scopes) : after.traces.Leaf var
        (scope.versionOf var) leaf ↔
        middle.traces.Leaf var (scope.versionOf var) leaf :=
      Traces.leaf_extend_iff early.sound.traces.linked late.grows
        ((early.backed scope mem).mem_versionOf (early.grows.mem entry)) leaf
    have untouched (other : Scope) (mem : other ∈ others) : middle.traces.Leaf var
        (other.versionOf var) leaf ↔
        before.traces.Leaf var (other.versionOf var) leaf :=
      Traces.leaf_extend_iff sound.traces.linked early.grows
        ((backed other mem).mem_versionOf entry) leaf
    simp only [List.mem_append, or_and_right, exists_or]
    rw [late.leaves var (early.grows.mem entry), ← early.leaves var entry leaf]
    refine or_congr (exists_congr fun scope => and_congr_right (kept scope)) ?_
    exact exists_congr fun other => and_congr_right (untouched other)
  beside var unseen := by
    refine (early.beside var fun seen => unseen ?_).trans (late.beside var fun seen => unseen ?_)
    · exact seen.imp fun _ held => ⟨List.mem_append_left _ held.1, held.2⟩
    · exact seen.imp fun _ held => ⟨List.mem_append_right _ held.1, held.2⟩

/-- A scope that holds alone what the members held stands for the versions at which they stood. -/
theorem gathers {scope : Scope} (sound : before.Sound)
    (backed : ∀ member ∈ members, member.Backed before.traces)
    (gathered : before.Gathered members [scope] after) {var : VarId}
    (looked : ∃ member ∈ members, var ∈ member.active) :
    before.traces.Gathers after.traces var (members.map (·.versionOf var))
      (scope.versionOf var) := by
  obtain ⟨member, mem, active⟩ := looked
  have entry := (backed member mem).entry_mem sound.traces active
  refine Traces.gathers_of_leaves sound.traces gathered.sound.traces gathered.grows ?_ ?_ ?_
  · exact (gathered.backed scope (by simp)).mem_versionOf (gathered.grows.mem entry)
  · intro source held
    obtain ⟨member, mem, rfl⟩ := List.mem_map.1 held
    exact (backed member mem).mem_versionOf entry
  · intro leaf
    simpa using gathered.leaves var entry leaf

/-- A variable that no member has looked at stands at its entry version. -/
theorem versionOf_unlooked {scope : Scope} (gathered : before.Gathered members [scope] after)
    {var : VarId} (unlooked : ¬ ∃ member ∈ members, var ∈ member.active) :
    scope.versionOf var = .entry := by
  refine Scope.versionOf_of_not_mem fun active => unlooked ?_
  exact (gathered.active var).1 ⟨scope, by simp, active⟩

/-- Scopes that hold alone what the same members held tell the same of every variable. -/
theorem tellSame {scope other : Scope} {afterOther : Analysis} (sound : before.Sound)
    (backed : ∀ member ∈ members, member.Backed before.traces)
    (gathered : before.Gathered members [scope] after)
    (gatheredOther : before.Gathered others [other] afterOther)
    (same : ∀ member, member ∈ others ↔ member ∈ members) (var : VarId) :
    after.traces.TellSame afterOther.traces var (scope.versionOf var) (other.versionOf var) := by
  have lookedIff : (∃ member ∈ others, var ∈ member.active) ↔ ∃ member ∈ members,
      var ∈ member.active := by simp only [same]
  by_cases looked : ∃ member ∈ members, var ∈ member.active
  · have backedOthers : ∀ member ∈ others, member.Backed before.traces :=
      fun member mem => backed member ((same member).1 mem)
    refine (gathered.gathers sound backed looked).tellSame
      (gatheredOther.gathers sound backedOthers (lookedIff.2 looked)) ?_
    simp only [List.mem_map, same, implies_true]
  · have unlookedOther : ¬ ∃ member ∈ others, var ∈ member.active :=
      fun seen => looked (lookedIff.1 seen)
    rw [gathered.versionOf_unlooked looked, gatheredOther.versionOf_unlooked unlookedOther]
    refine Traces.tellSame_of_same (fun version => ?_) _
    rw [(gathered.beside var looked).traces, (gatheredOther.beside var unlookedOther).traces]

end Analysis.Gathered

/-- The join of several paths holds what the paths held. -/
theorem Site.join_gathers (into : Scope) {state : Analysis} (sound : state.Sound)
    {paths : List Scope} (two : 2 ≤ paths.length)
    (backed : ∀ path ∈ paths, path.Backed state.traces) :
    ∃ after, join paths ⟨into, state⟩ = .ok ⟨⟩ after ∧
      state.Gathered paths [after.scope] after.analysis := by
  have some : paths ≠ [] := List.ne_nil_of_length_pos (by omega)
  have fresh : Site.Sound ⟨.fresh into.label, state⟩ := ⟨sound, Scope.backed_fresh _ _⟩
  obtain ⟨_, after, reached, told⟩ := (ends_join fresh some backed).exists_ok
  have exactly := (gives_join_exactly _ two).of_ok reached
  rw [← join_fresh into state two] at reached
  have joined : Joined paths ⟨.fresh into.label, state⟩ [] after := by
    rcases told with ⟨path, rfl, -⟩ | ⟨-, joined⟩
    · simp at two
    · exact joined
  refine ⟨after, reached, joined.sound.analysis, joined.grows.traces, ?_, ?_, ?_, ?_⟩
  · intro scope mem
    rw [List.mem_singleton.1 mem]
    exact joined.sound.scope
  · intro var
    simpa using exactly.active var
  · intro var entry leaf
    simp only [List.mem_singleton, exists_eq_left]
    have older (path : Scope) (mem : path ∈ paths) :=
      Traces.leaf_extend_iff sound.traces.linked joined.grows.traces
        ((backed path mem).mem_versionOf entry) leaf
    -- a version of all paths has their leaves, and that of a join those of its sources
    have agree {version : Version} (agree : ∀ path ∈ paths, path.versionOf var = version) :
        after.analysis.traces.Leaf var version leaf ↔ ∃ path ∈ paths,
          state.traces.Leaf var (path.versionOf var) leaf := by
      obtain ⟨path, mem⟩ := List.exists_mem_of_ne_nil paths some
      constructor
      · intro below
        exact ⟨path, mem, (older path mem).1 (agree path mem ▸ below)⟩
      · rintro ⟨path, mem, below⟩
        exact agree path mem ▸ (older path mem).2 below
    rcases joined.joins var with all | merged
    · exact agree all
    · rw [Traces.leaf_of_joined merged]
      simp only [Scope.mem_versionsOf, exists_exists_and_eq_and]
      exact exists_congr fun path => and_congr_right (older path)
  · exact exactly.unlooked

/-- Scopes joined by any number of joins, each of two or more paths and into a scope of its own. A
path is one of the scopes, or what another join leaves. -/
inductive Nesting where
  | single (scope : Scope)
  | join (into : Scope) (first second : Nesting) (rest : List Nesting)

namespace Nesting

mutual

/-- The scopes that are joined, in the order in which they stand. -/
def members : Nesting → List Scope
  | .single scope => [scope]
  | .join _ first second rest => first.members ++ (second.members ++ allMembers rest)

/-- The scopes that stand in a row of nestings. -/
def allMembers : List Nesting → List Scope
  | [] => []
  | nesting :: rest => nesting.members ++ allMembers rest

end

/-- Joins the paths into a scope, and answers with it. -/
def joinInto (into : Scope) (paths : List Scope) : AnalysisM Scope :=
  focus (⟨into, ·⟩) (fun site _ => site.analysis) do
    Site.join paths
    Site.scopeHere

mutual

/-- Runs the joins, the inner ones first, and answers with the scope that the outermost leaves. -/
def run : Nesting → AnalysisM Scope
  | .single scope => pure scope
  | .join into first second rest => do
    let first ← first.run
    let second ← second.run
    joinInto into (first :: second :: (← runAll rest))

/-- Runs the nestings of a row in turn. -/
def runAll : List Nesting → AnalysisM (List Scope)
  | [] => pure []
  | nesting :: rest => do
    let scope ← nesting.run
    return scope :: (← runAll rest)

end

theorem ends_joinInto (into : Scope) {state : Analysis} (sound : state.Sound) {paths : List Scope}
    (two : 2 ≤ paths.length) (backed : ∀ path ∈ paths, path.Backed state.traces) :
    Ends (joinInto into paths) state (fun scope after => state.Gathered paths [scope] after)
      (fun _ _ => False) := by
  obtain ⟨site, reached, gathered⟩ := Site.join_gathers into sound two backed
  unfold joinInto
  rw [ends_focus, ends_bind]
  unfold Ends
  rw [reached]
  exact gathered

mutual

/-- A nest of joins holds in the end what its members held. -/
theorem ends_run (nesting : Nesting) {state : Analysis} (sound : state.Sound)
    (backed : ∀ member ∈ nesting.members, member.Backed state.traces) :
    Ends nesting.run state (fun scope after => state.Gathered nesting.members [scope] after)
      (fun _ _ => False) := by
  match nesting with
  | .single scope =>
    rw [run, ends_pure, members]
    exact .refl sound (by simpa [members] using backed)
  | .join into first second rest =>
    simp only [members, List.mem_append] at backed
    rw [run, ends_bind]
    refine (ends_run first sound fun member mem => backed member (.inl mem)).mono ?_
      (fun _ _ impossible => impossible)
    intro one afterFirst gatheredFirst
    rw [ends_bind]
    refine (ends_run second gatheredFirst.sound fun member mem =>
      (backed member (.inr (.inl mem))).extend gatheredFirst.grows).mono ?_
      (fun _ _ impossible => impossible)
    intro two afterSecond gatheredSecond
    have grown := gatheredFirst.grows.trans gatheredSecond.grows
    rw [ends_bind]
    refine (ends_runAll rest gatheredSecond.sound fun member mem =>
      (backed member (.inr (.inr mem))).extend grown).mono ?_ (fun _ _ impossible => impossible)
    intro others afterRest gatheredRest
    have gatheredLate := gatheredSecond.append gatheredFirst.sound
      (fun member mem => (backed member (.inr (.inr mem))).extend gatheredFirst.grows) gatheredRest
    have gathered := gatheredFirst.append sound
      (fun member mem => backed member (.inr (List.mem_append.1 mem))) gatheredLate
    have several : 2 ≤ (one :: two :: others).length := by simp
    refine (ends_joinInto into gathered.sound several gathered.backed).mono ?_
      (fun _ _ impossible => impossible)
    intro scope after joined
    rw [members]
    exact gathered.trans joined

/-- So do the nestings of a row, each for its own members. -/
theorem ends_runAll (nestings : List Nesting) {state : Analysis} (sound : state.Sound)
    (backed : ∀ member ∈ allMembers nestings, member.Backed state.traces) :
    Ends (runAll nestings) state
      (fun scopes after => state.Gathered (allMembers nestings) scopes after)
      (fun _ _ => False) := by
  match nestings with
  | [] =>
    rw [runAll, ends_pure, allMembers]
    exact .refl sound (by simp)
  | nesting :: rest =>
    simp only [allMembers, List.mem_append] at backed
    rw [runAll, ends_bind]
    refine (ends_run nesting sound fun member mem => backed member (.inl mem)).mono ?_
      (fun _ _ impossible => impossible)
    intro scope middle gathered
    rw [ends_bind]
    refine (ends_runAll rest gathered.sound fun member mem =>
      (backed member (.inr mem)).extend gathered.grows).mono ?_ (fun _ _ impossible => impossible)
    intro scopes after gatheredRest
    rw [ends_pure, allMembers]
    exact gathered.append sound (fun member mem => backed member (.inr mem)) gatheredRest

end

end Nesting

namespace Session

/-- Joins gather, whatever the grouping. In every state that a session reaches, two or more scopes
of recorded versions can be joined. A variable that one of them has looked at has behind the join
the leaves that it has in them, and it is sure to be bound, or unbound, where it is sure in all of
them. Any nest of joins over the same scopes succeeds too, and tells the same of every variable as
the one join. -/
theorem nested_joins_agree (vars : Variables) (options : Options) (ops : List Op) (into : Scope) (paths : List Scope)
    (two : 2 ≤ paths.length) (backed : ∀ path ∈ paths, path.Backed ((start vars options).run ops).state.traces) :
    ∃ after, Site.join paths ⟨into, ((start vars options).run ops).state⟩ = .ok ⟨⟩ after ∧
      (∀ var, (∃ path ∈ paths, var ∈ path.active) → ((start vars options).run ops).state.traces.Gathers after.analysis.traces var
        (paths.map (·.versionOf var)) (after.scope.versionOf var)) ∧
      ∀ nesting : Nesting, (∀ scope, scope ∈ nesting.members ↔ scope ∈ paths) →
        ∃ scope last, nesting.run ((start vars options).run ops).state = .ok scope last ∧
          ∀ var, after.analysis.traces.TellSame last.traces var (after.scope.versionOf var) (scope.versionOf var) := by
  have sound := ((sound_start vars options).run ops).state
  obtain ⟨after, reached, gathered⟩ := Site.join_gathers into sound two backed
  refine ⟨after, reached, fun var looked => gathered.gathers sound backed looked, fun nesting same => ?_⟩
  have backedMembers : ∀ member ∈ nesting.members, member.Backed ((start vars options).run ops).state.traces :=
    fun member mem => backed member ((same member).1 mem)
  obtain ⟨scope, last, ran, gatheredNest⟩ := (nesting.ends_run sound backedMembers).exists_ok
  exact ⟨scope, last, ran, gathered.tellSame sound backed gatheredNest same⟩

/-- Three paths: one assigns `x`, one deletes it, and one only looks at `c`. -/
def pathOps : List Op :=
  [.openScope "first", .openScope "second", .openScope "third", .atScope 0 (.assign 0 7), .atScope 1 (.delete 0),
    .atScope 2 (.look 1)]

/-- The three paths joined at once tell the same of `x` as the second joined to a join of the
others. -/
theorem three_paths_regrouped :
    2 ≤ ((start armVars {}).run pathOps).scopes.length ∧
      (∀ path ∈ ((start armVars {}).run pathOps).scopes, path.Backed ((start armVars {}).run pathOps).state.traces) ∧
      ∃ first second third after scope last, ((start armVars {}).run pathOps).scopes = [first, second, third] ∧
        Site.join [first, second, third] ⟨.fresh "root", ((start armVars {}).run pathOps).state⟩ = .ok ⟨⟩ after ∧
        (Nesting.join (.fresh "outer") (.join (.fresh "inner") (.single third) (.single first) []) (.single second) []).run
          ((start armVars {}).run pathOps).state = .ok scope last ∧
        after.analysis.traces.TellSame last.traces 0 (after.scope.versionOf 0) (scope.versionOf 0) := by
  have two : 2 ≤ ((start armVars {}).run pathOps).scopes.length := by decide
  have backed := ((sound_start armVars {}).run pathOps).scopes
  obtain ⟨first, second, third, three⟩ : ∃ first second third, ((start armVars {}).run pathOps).scopes = [first, second, third] :=
    List.length_eq_three.1 (by decide)
  obtain ⟨after, joined, -, nested⟩ := nested_joins_agree armVars {} pathOps (.fresh "root") _ two backed
  obtain ⟨scope, last, ran, same⟩ := nested
    (.join (.fresh "outer") (.join (.fresh "inner") (.single third) (.single first) []) (.single second) []) (by
      intro scope
      simp only [three, Nesting.members, Nesting.allMembers, List.append_nil, List.cons_append, List.nil_append,
        List.mem_cons, List.not_mem_nil, or_false]
      tauto)
  exact ⟨two, backed, first, second, third, after, scope, last, three, three ▸ joined, ran, same 0⟩

end Session

end ValueFlow
