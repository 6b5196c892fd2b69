import ValueFlow.Proofs.Integrity.Basic
import ValueFlow.Proofs.Trace.Leaves

/-!
# What a sound log tells of bindings

In a sound log the question whether a variable is bound, or unbound, at a recorded version has an
answer, and the answer is yes exactly when every leaf of the version says so.
-/

namespace ValueFlow
set_option autoImplicit false

namespace Traces

variable {traces : Traces} {vars : Variables} {var : VarId} {version : Version}

/-- In an older table that has recorded a version, the version has the same leaves. -/
theorem Leaf.older {older newer : Traces} {leaf : Version} (below : newer.Leaf var version leaf)
    (linked : older.Linked) (extends_ : older.Extends newer)
    (recorded : (⟨var, version⟩ : TraceKey) ∈ older) :
    older.Leaf var version leaf := by
  induction below with
  | here plain => exact .here fun sources joined => plain sources (extends_ _ _ joined)
  | @through version source leaf sources joined mem below ih =>
    obtain ⟨origin, known⟩ := mem_iff_origin?.1 recorded
    obtain rfl : origin = .joined sources :=
      Option.some.inj ((extends_ _ _ known).symm.trans joined)
    exact .through known mem (ih (linked _ _ known source mem))

/-- What all leaves of a recorded version say, they say for good. -/
theorem AllLeaves.extend {older newer : Traces} {holds : Origin → Bool}
    (all : older.AllLeaves var version holds) (linked : older.Linked)
    (extends_ : older.Extends newer) (recorded : (⟨var, version⟩ : TraceKey) ∈ older) :
    newer.AllLeaves var version holds := by
  intro leaf below
  obtain ⟨origin, known, told⟩ := all leaf (below.older linked extends_ recorded)
  exact ⟨origin, extends_ _ _ known, told⟩

/-- What all leaves of a recorded version say does not change while the table grows. -/
theorem allLeaves_extend_iff {older newer : Traces} {holds : Origin → Bool}
    (linked : older.Linked) (extends_ : older.Extends newer)
    (recorded : (⟨var, version⟩ : TraceKey) ∈ older) :
    newer.AllLeaves var version holds ↔ older.AllLeaves var version holds := by
  refine ⟨fun all leaf below => ?_, fun all => all.extend linked extends_ recorded⟩
  have known := below.mem_older linked (.refl _) recorded
  obtain ⟨origin, known⟩ := mem_iff_origin?.1 known
  obtain ⟨again, told, held⟩ := all leaf (below.extend extends_ (mem_of_origin? known))
  obtain rfl := Option.some.inj ((extends_ _ _ known).symm.trans told)
  exact ⟨origin, known, held⟩

/-- In a sound log every join stands on several recorded versions, all of them older. -/
theorem Sound.rooted (sound : traces.Sound vars) : traces.Rooted := by
  intro key sources joined
  obtain ⟨-, several⟩ := sound.joined _ _ joined
  exact ⟨List.ne_nil_of_length_pos (Nat.lt_of_lt_of_le Nat.zero_lt_two several),
    sound.previous _ _ joined⟩

/-- In a sound log every version has a leaf. -/
theorem Sound.exists_leaf (sound : traces.Sound vars) (var : VarId) (version : Version) :
    ∃ leaf, traces.Leaf var version leaf :=
  sound.rooted.exists_leaf var version

/-- An entry version is its own leaf, and has no other. -/
theorem Sound.leaf_entry_iff (sound : traces.Sound vars) {leaf : Version} :
    traces.Leaf var .entry leaf ↔ leaf = .entry := by
  refine leaf_of_plain (fun sources joined => ?_) leaf
  obtain ⟨some, older⟩ := sound.rooted _ _ joined
  obtain ⟨source, mem⟩ := List.exists_mem_of_ne_nil sources some
  exact Nat.not_lt_zero source (older source mem).2

/-- In a sound log the leaves of every recorded version can be asked. -/
theorem Sound.everyLeaf (sound : traces.Sound vars) (holds : Origin → Bool)
    (recorded : ⟨var, version⟩ ∈ traces) :
    ∃ answer, traces.everyLeaf holds var version = .ok answer ∧
      (answer = true ↔ traces.AllLeaves var version holds) :=
  sound.rooted.everyLeaf holds recorded

end Traces

end ValueFlow
