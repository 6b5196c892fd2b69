import ValueFlow.Proofs.Trace.Origin
import ValueFlow.Trace.Binding

/-!
# Questions about leaves

A question about a version is put to its leaves: a version that is no join answers for itself, and a
join asks its sources, one after another, until one of them denies. `Traces.Decides` tells of such a
recursion as it stands, with nothing that bounds it, that it comes to an end, and with which answer.
The answer is yes exactly if all leaves say so (`Decides.iff_allLeaves`), and no table that has more
origins gives another one (`Decides.extend`).

Where every join stands on recorded versions that are older than it (`Traces.Rooted`), every
question about recorded versions comes to an end (`Rooted.decides`), and `Traces.everyLeaf`, which
takes nothing from a source that is not older, tells its answer (`Decides.allM_everyLeaf`).
-/

namespace ValueFlow
set_option autoImplicit false

namespace Traces

variable {traces older newer : Traces} {var : VarId} {version : Version} {versions : List Version}
  {holds : Origin → Bool} {answer : Bool}

/-- Every leaf of a version has an origin with the property. -/
def AllLeaves (traces : Traces) (var : VarId) (version : Version) (holds : Origin → Bool) : Prop :=
  ∀ leaf, traces.Leaf var version leaf → ∃ origin, traces.origin? ⟨var, leaf⟩ = some origin ∧ holds origin = true

/-- The versions are asked in turn until one denies, a join by asking its sources first, and this
comes to an end with the answer. -/
inductive Decides (traces : Traces) (holds : Origin → Bool) (var : VarId) : List Version → Bool → Prop
  | done : Decides traces holds var [] true
  | affirm {version : Version} {rest : List Version} {origin : Origin} {answer : Bool}
      (known : traces.origin? ⟨var, version⟩ = some origin) (plain : ∀ sources, origin ≠ .joined sources)
      (yes : holds origin = true) (later : Decides traces holds var rest answer) : Decides traces holds var (version :: rest) answer
  | deny {version : Version} {rest : List Version} {origin : Origin} (known : traces.origin? ⟨var, version⟩ = some origin)
      (plain : ∀ sources, origin ≠ .joined sources) (no : holds origin = false) : Decides traces holds var (version :: rest) false
  | affirmJoin {version : Version} {rest sources : List Version} {answer : Bool}
      (joined : traces.origin? ⟨var, version⟩ = some (.joined sources)) (yes : Decides traces holds var sources true)
      (later : Decides traces holds var rest answer) : Decides traces holds var (version :: rest) answer
  | denyJoin {version : Version} {rest sources : List Version} (joined : traces.origin? ⟨var, version⟩ = some (.joined sources))
      (no : Decides traces holds var sources false) : Decides traces holds var (version :: rest) false

/-- Every join stands on one recorded version at least, and on none that is not recorded and
older. -/
def Rooted (traces : Traces) : Prop :=
  ∀ key sources, traces.origin? key = some (.joined sources) →
    sources ≠ [] ∧ ∀ source ∈ sources, ⟨key.var, source⟩ ∈ traces ∧ source < key.version

theorem allLeaves_of_joined {sources : List Version}
    (joined : traces.origin? ⟨var, version⟩ = some (.joined sources)) :
    traces.AllLeaves var version holds ↔ ∀ source ∈ sources, traces.AllLeaves var source holds := by
  constructor
  · exact fun all source mem leaf below => all leaf (.through joined mem below)
  · intro all leaf below
    obtain ⟨source, mem, below⟩ := (leaf_of_joined joined leaf).1 below
    exact all source mem leaf below

theorem allLeaves_of_plain {origin : Origin} (known : traces.origin? ⟨var, version⟩ = some origin)
    (plain : ∀ sources, origin ≠ .joined sources) :
    traces.AllLeaves var version holds ↔ holds origin = true := by
  constructor
  · intro all
    obtain ⟨other, again, told⟩ := all version (.self_of_origin known plain)
    rwa [Option.some.inj (known.symm.trans again)]
  · intro told leaf below
    have single :=
      leaf_of_plain fun sources joined => plain sources (Option.some.inj (known.symm.trans joined))
    obtain rfl := (single leaf).1 below
    exact ⟨origin, known, told⟩

namespace Decides

/-- A further origin changes no answer. -/
theorem extend (decides : older.Decides holds var versions answer)
    (extends_ : older.Extends newer) :
    newer.Decides holds var versions answer := by
  induction decides with
  | done => exact .done
  | affirm known plain yes _ ih => exact .affirm (extends_ _ _ known) plain yes ih
  | deny known plain no => exact .deny (extends_ _ _ known) plain no
  | affirmJoin joined _ _ ihSources ih => exact .affirmJoin (extends_ _ _ joined) ihSources ih
  | denyJoin joined _ ih => exact .denyJoin (extends_ _ _ joined) ih

/-- The answer is yes if all leaves of all versions say so, and only then. -/
theorem iff_allLeaves (decides : traces.Decides holds var versions answer) :
    answer = true ↔ ∀ version ∈ versions, traces.AllLeaves var version holds := by
  induction decides with
  | done => simp
  | affirm known plain yes _ ih => simp [ih, allLeaves_of_plain known plain, yes]
  | deny known plain no => simp [allLeaves_of_plain known plain, no]
  | affirmJoin joined _ _ ihSources ih =>
    rw [List.forall_mem_cons, ih, allLeaves_of_joined joined]
    exact ⟨fun later => ⟨ihSources.1 rfl, later⟩, And.right⟩
  | denyJoin joined _ ih =>
    rw [← allLeaves_of_joined joined] at ih
    simpa using fun all => absurd (ih.2 all) (by simp)

/-- Where one version affirms, the others are asked. -/
theorem cons_of_affirmed (first : traces.Decides holds var [version] true)
    (later : traces.Decides holds var versions answer) :
    traces.Decides holds var (version :: versions) answer := by
  cases first with
  | affirm known plain yes _ => exact .affirm known plain yes later
  | affirmJoin joined yes _ => exact .affirmJoin joined yes later

/-- Where one version denies, no other is asked. -/
theorem cons_of_denied (first : traces.Decides holds var [version] false) (rest : List Version) :
    traces.Decides holds var (version :: rest) false := by
  cases first with
  | affirm _ _ _ later => cases later
  | deny known plain no => exact .deny known plain no
  | affirmJoin _ _ later => cases later
  | denyJoin joined no => exact .denyJoin joined no

/-- If each version by itself comes to an answer, then all of them in turn do. -/
theorem exists_of_each
    (each : ∀ version ∈ versions, ∃ answer, traces.Decides holds var [version] answer) :
    ∃ answer, traces.Decides holds var versions answer := by
  induction versions with
  | nil => exact ⟨true, .done⟩
  | cons version rest ih =>
    obtain ⟨first, decides⟩ := each version (by simp)
    cases first with
    | false => exact ⟨false, decides.cons_of_denied rest⟩
    | true =>
      obtain ⟨answer, later⟩ := ih fun other mem => each other (by simp [mem])
      exact ⟨answer, decides.cons_of_affirmed later⟩

end Decides

theorem everyLeaf_of_plain {origin : Origin} (known : traces.origin? ⟨var, version⟩ = some origin)
    (plain : ∀ sources, origin ≠ .joined sources) :
    traces.everyLeaf holds var version = .ok (holds origin) := by
  obtain ⟨trace, found, rfl⟩ := Option.map_eq_some_iff.1 known
  rw [everyLeaf, found]
  dsimp only
  split
  · rename_i sources joined
    exact absurd joined (plain sources)
  · rfl

section AllM

variable {ε α : Type} {test other : α → Except ε Bool}

/-- The head of a list is asked first, and the tail only if it affirms. -/
theorem allM_cons_of_ok {head : α} {tail : List α} {first : Bool} (told : test head = .ok first) :
    (head :: tail).allM test = if first then tail.allM test else .ok false := by
  rw [List.allM, told]
  cases first <;> rfl

theorem allM_congr {list : List α} (same : ∀ value ∈ list, test value = other value) :
    list.allM test = list.allM other := by
  induction list with
  | nil => rfl
  | cons head tail ih =>
    obtain ⟨first, rest⟩ := List.forall_mem_cons.1 same
    rw [List.allM, List.allM, first, ih rest]

end AllM

namespace Rooted

/-- Where every join is newer than its sources, each of its sources is asked. -/
theorem everyLeaf_of_joined (rooted : traces.Rooted) {sources : List Version}
    (joined : traces.origin? ⟨var, version⟩ = some (.joined sources)) :
    traces.everyLeaf holds var version = sources.allM (traces.everyLeaf holds var) := by
  obtain ⟨trace, found, held⟩ := Option.map_eq_some_iff.1 joined
  rw [everyLeaf, found]
  dsimp only
  split
  · rename_i others same
    obtain rfl : sources = others := Origin.joined.inj (held.symm.trans same)
    exact allM_congr fun source mem => dif_pos ((rooted _ _ joined).2 source mem).2
  · rename_i plain
    exact absurd held (plain sources)

end Rooted

/-- What the recursion comes to is what `everyLeaf` tells. -/
theorem Decides.allM_everyLeaf (decides : traces.Decides holds var versions answer)
    (rooted : traces.Rooted) :
    versions.allM (traces.everyLeaf holds var) = .ok answer := by
  induction decides with
  | done => rfl
  | affirm known plain yes _ ih =>
    rw [allM_cons_of_ok (everyLeaf_of_plain known plain), yes, if_pos rfl, ih]
  | deny known plain no => rw [allM_cons_of_ok (everyLeaf_of_plain known plain), no, if_neg nofun]
  | affirmJoin joined _ _ ihSources ih =>
    rw [allM_cons_of_ok ((rooted.everyLeaf_of_joined joined).trans ihSources), if_pos rfl, ih]
  | denyJoin joined _ ih =>
    rw [allM_cons_of_ok ((rooted.everyLeaf_of_joined joined).trans ih), if_neg nofun]

/-- The recursion at a single version. -/
theorem Decides.everyLeaf (decides : traces.Decides holds var [version] answer)
    (rooted : traces.Rooted) :
    traces.everyLeaf holds var version = .ok answer := by
  cases decides with
  | affirm known plain yes later =>
    cases later
    rw [everyLeaf_of_plain known plain, yes]
  | deny known plain no => rw [everyLeaf_of_plain known plain, no]
  | affirmJoin joined yes later =>
    cases later
    exact (rooted.everyLeaf_of_joined joined).trans (yes.allM_everyLeaf rooted)
  | denyJoin joined no => exact (rooted.everyLeaf_of_joined joined).trans (no.allM_everyLeaf rooted)

namespace Rooted

/-- Every question about recorded versions comes to an end. -/
theorem decides (rooted : traces.Rooted) (holds : Origin → Bool)
    (recorded : ∀ version ∈ versions, (⟨var, version⟩ : TraceKey) ∈ traces) :
    ∃ answer, traces.Decides holds var versions answer := by
  refine Decides.exists_of_each fun version mem => ?_
  have known := recorded version mem
  clear mem recorded
  induction version using Nat.strongRecOn with
  | ind version ih =>
    obtain ⟨origin, known⟩ := mem_iff_origin?.1 known
    by_cases isJoin : ∃ sources, origin = .joined sources
    · obtain ⟨sources, rfl⟩ := isJoin
      obtain ⟨answer, asked⟩ := Decides.exists_of_each fun source mem =>
        ih source ((rooted _ _ known).2 source mem).2 ((rooted _ _ known).2 source mem).1
      cases answer with
      | false => exact ⟨false, .denyJoin known asked⟩
      | true => exact ⟨true, .affirmJoin known asked .done⟩
    · have plain : ∀ sources, origin ≠ .joined sources := fun sources same => isJoin ⟨sources, same⟩
      cases told : holds origin with
      | false => exact ⟨false, .deny known plain told⟩
      | true => exact ⟨true, .affirm known plain told .done⟩

/-- The leaves of every recorded version can be asked. -/
theorem everyLeaf (rooted : traces.Rooted) (holds : Origin → Bool)
    (recorded : (⟨var, version⟩ : TraceKey) ∈ traces) :
    ∃ answer, traces.everyLeaf holds var version = .ok answer ∧
      (answer = true ↔ traces.AllLeaves var version holds) := by
  obtain ⟨answer, decides⟩ := rooted.decides holds (List.forall_mem_singleton.2 recorded)
  exact ⟨answer, decides.everyLeaf rooted, by simpa using decides.iff_allLeaves⟩

/-- Every version has a leaf. -/
theorem exists_leaf (rooted : traces.Rooted) (var : VarId) (version : Version) :
    ∃ leaf, traces.Leaf var version leaf := by
  induction version using Nat.strongRecOn with
  | ind version ih =>
    by_cases isJoin : ∃ sources, traces.origin? ⟨var, version⟩ = some (.joined sources)
    · obtain ⟨sources, joined⟩ := isJoin
      obtain ⟨some, each⟩ := rooted _ _ joined
      obtain ⟨source, mem⟩ := List.exists_mem_of_ne_nil sources some
      obtain ⟨leaf, below⟩ := ih source (each source mem).2
      exact ⟨leaf, .through joined mem below⟩
    · exact ⟨version, .here fun sources joined => isJoin ⟨sources, joined⟩⟩

end Rooted

end Traces

end ValueFlow
