import ValueFlow.Proofs.Ends
import ValueFlow.Trace.Binding
import ValueFlow.Trace.Reads

/-!
# The log seen through its origins

What a trace table knows, its notes of use put aside, is the origin under each key (`origin?`). A
table extends another if it still has every origin of it. Recording extends a table by one origin,
and the notes of use change none (`ends_annotate`, `ends_noteRead`).

The leaves of a version are the versions that stand behind it when joins are seen through. They are
taken in one table only. Where a proof follows a walk it takes them in the table that the walk
leaves, which has all origins that were ever recorded.
-/

namespace ValueFlow
set_option autoImplicit false

namespace Traces

/-- The origin recorded under a key. -/
def origin? (traces : Traces) (key : TraceKey) : Option Origin := traces[key]?.map (·.origin)

/-- Every origin of the older table stands in the newer one. -/
def Extends (older newer : Traces) : Prop :=
  ∀ key origin, older.origin? key = some origin → newer.origin? key = some origin

/-- Two tables that differ in notes of use only. -/
def SameOrigins (older newer : Traces) : Prop := ∀ key, newer.origin? key = older.origin? key

/-- The versions behind a version of a variable when joins are seen through. -/
inductive Leaf (traces : Traces) (var : VarId) : Version → Version → Prop
  | here {version : Version} (plain : ∀ sources, traces.origin? ⟨var, version⟩ ≠ some (.joined sources)) :
      Leaf traces var version version
  | through {version source leaf : Version} {sources : List Version}
      (joined : traces.origin? ⟨var, version⟩ = some (.joined sources)) (mem : source ∈ sources)
      (below : Leaf traces var source leaf) : Leaf traces var version leaf

variable {traces older newer newest : Traces} {key other : TraceKey} {origin : Origin}
  {trace : Trace}

theorem mem_iff_origin? : key ∈ traces ↔ ∃ origin, traces.origin? key = some origin := by
  rw [Std.ExtTreeMap.mem_iff_isSome_getElem?]
  cases found : traces[key]? <;> simp [origin?, found]

theorem mem_of_origin? (known : traces.origin? key = some origin) : key ∈ traces :=
  mem_iff_origin?.2 ⟨origin, known⟩

theorem origin?_eq_of_find (found : traces[key]? = some trace) :
    traces.origin? key = some trace.origin := by
  simp [origin?, found]

theorem origin?_insert : origin? (traces.insert key trace) other =
    if other = key then some trace.origin else traces.origin? other := by
  unfold origin?
  rw [Std.ExtTreeMap.getElem?_insert]
  by_cases same : key = other
  · simp [same]
  · simp [same, Ne.symm same]

@[simp] theorem origin?_empty : origin? ∅ key = none := by simp [origin?]

theorem Extends.refl (traces : Traces) : traces.Extends traces := fun _ _ known => known

theorem Extends.trans (early : older.Extends newer) (late : newer.Extends newest) :
    older.Extends newest :=
  fun key origin known => late key origin (early key origin known)

theorem Extends.mem (extends_ : older.Extends newer) (known : key ∈ older) : key ∈ newer := by
  obtain ⟨origin, known⟩ := mem_iff_origin?.1 known
  exact mem_of_origin? (extends_ key origin known)

theorem SameOrigins.refl (traces : Traces) : traces.SameOrigins traces := fun _ => rfl

theorem SameOrigins.trans (early : older.SameOrigins newer) (late : newer.SameOrigins newest) :
    older.SameOrigins newest :=
  fun key => (late key).trans (early key)

theorem SameOrigins.extends (same : older.SameOrigins newer) : older.Extends newer :=
  fun key _ known => (same key).trans known

theorem SameOrigins.mem_iff (same : older.SameOrigins newer) : key ∈ newer ↔ key ∈ older := by
  rw [mem_iff_origin?, mem_iff_origin?, same]

/-- An entry renewed with its old origin leaves all origins as they are. -/
theorem SameOrigins.insert {renewed : Trace} (found : traces[key]? = some trace)
    (keeps : renewed.origin = trace.origin) : traces.SameOrigins (traces.insert key renewed) := by
  intro other
  rw [origin?_insert, keeps, ← origin?_eq_of_find found]
  split <;> simp_all

/-- A new entry under a key without one keeps all origins. -/
theorem Extends.insert (free : key ∉ traces) : traces.Extends (traces.insert key trace) := by
  intro other origin known
  have apart : other ≠ key := by
    rintro rfl
    exact free (mem_of_origin? known)
  rw [origin?_insert, if_neg apart, known]

theorem Leaf.self_of_origin {var : VarId} {version : Version}
    (known : traces.origin? ⟨var, version⟩ = some origin)
    (plain : ∀ sources, origin ≠ .joined sources) : traces.Leaf var version version :=
  .here fun sources joined => plain sources (Option.some.inj (known.symm.trans joined))

/-- A version that is no join is its own leaf, and has no other. -/
theorem leaf_of_plain {var : VarId} {version : Version}
    (plain : ∀ sources, traces.origin? ⟨var, version⟩ ≠ some (.joined sources)) (leaf : Version) :
    traces.Leaf var version leaf ↔ leaf = version := by
  constructor
  · intro below
    cases below with
    | here => rfl
    | through joined => exact absurd joined (plain _)
  · rintro rfl
    exact .here plain

/-- The leaves of a join are those of its sources. -/
theorem leaf_of_joined {var : VarId} {version : Version} {sources : List Version}
    (joined : traces.origin? ⟨var, version⟩ = some (.joined sources)) (leaf : Version) :
    traces.Leaf var version leaf ↔ ∃ source ∈ sources, traces.Leaf var source leaf := by
  constructor
  · intro below
    cases below with
    | here plain => exact absurd joined (plain sources)
    | through again mem below =>
      obtain rfl : sources = _ := by simpa using joined.symm.trans again
      exact ⟨_, mem, below⟩
  · rintro ⟨source, mem, below⟩
    exact .through joined mem below

/-- A recorded leaf stays a leaf while the table grows. -/
theorem Leaf.extend {var : VarId} {version leaf : Version} (below : older.Leaf var version leaf)
    (extends_ : older.Extends newer) (recorded : (⟨var, leaf⟩ : TraceKey) ∈ older) :
    newer.Leaf var version leaf := by
  induction below with
  | here plain =>
    obtain ⟨origin, known⟩ := mem_iff_origin?.1 recorded
    refine .self_of_origin (extends_ _ _ known) fun sources joined => ?_
    exact plain sources (joined ▸ known)
  | through joined mem below ih => exact .through (extends_ _ _ joined) mem (ih recorded)

/-- Nothing is known of the value of a version. -/
def IsUnknown (traces : Traces) (var : VarId) (version : Version) : Prop :=
  ∃ previous, traces.origin? ⟨var, version⟩ = some (.unknown previous)

theorem IsUnknown.mem {var : VarId} {version : Version} (unknown : traces.IsUnknown var version) :
    (⟨var, version⟩ : TraceKey) ∈ traces :=
  mem_of_origin? unknown.choose_spec

theorem IsUnknown.extend {var : VarId} {version : Version} (unknown : older.IsUnknown var version)
    (extends_ : older.Extends newer) :
    newer.IsUnknown var version :=
  ⟨_, extends_ _ _ unknown.choose_spec⟩

theorem IsUnknown.self_leaf {var : VarId} {version : Version}
    (unknown : traces.IsUnknown var version) : traces.Leaf var version version :=
  .self_of_origin unknown.choose_spec fun _ => nofun

section Operations

variable {well : Unit → Traces → Prop} {ill : Fault → Traces → Prop}

theorem ends_find {well : Trace → Traces → Prop} : Ends (find key) traces well ill ↔
    (∀ trace, traces[key]? = some trace → well trace traces) ∧
      (traces[key]? = none → ill (.missingTrace key) traces) := by
  unfold find
  rw [ends_bind, ends_get]
  cases traces[key]? <;> simp

theorem ends_record : Ends (record key origin) traces well ill ↔
    (key ∉ traces → well ⟨⟩ (traces.insert key (.ofOrigin origin))) ∧
      (key ∈ traces → ill (.duplicateTrace key) traces) := by
  unfold record
  rw [ends_bind, ends_get]
  by_cases known : key ∈ traces <;> simp [known]

theorem not_mem_of_find (absent : traces[key]? = none) : key ∉ traces := by
  rw [Std.ExtTreeMap.mem_iff_isSome_getElem?, absent]
  simp

/-- A note that leaves the origin alone leaves all origins alone. -/
theorem ends_annotate (note : Trace → Trace) (keeps : ∀ trace, (note trace).origin = trace.origin) :
    Ends (annotate key note) traces (fun _ after => traces.SameOrigins after)
      (fun _ after => traces.SameOrigins after ∧ key ∉ traces) := by
  unfold annotate
  rw [ends_bind, ends_find]
  exact ⟨fun trace found => .insert found (keeps trace),
    fun absent => ⟨.refl traces, not_mem_of_find absent⟩⟩

/-- Every version that a recorded version is derived from is recorded as well. -/
def Linked (traces : Traces) : Prop :=
  ∀ key origin, traces.origin? key = some origin → ∀ previous ∈ origin.previous, ⟨key.var, previous⟩ ∈ traces

theorem Linked.of_same (linked : older.Linked) (same : older.SameOrigins newer) : newer.Linked := by
  intro key origin known previous mem
  rw [same] at known
  exact same.mem_iff.2 (linked key origin known previous mem)

/-- The leaves of a version that an older table has recorded are recorded in it. -/
theorem Leaf.mem_older {var : VarId} {version leaf : Version}
    (below : newer.Leaf var version leaf) (linked : older.Linked) (extends_ : older.Extends newer)
    (recorded : (⟨var, version⟩ : TraceKey) ∈ older) : (⟨var, leaf⟩ : TraceKey) ∈ older := by
  induction below with
  | here _ => exact recorded
  | @through version source leaf sources joined mem below ih =>
    obtain ⟨origin, known⟩ := mem_iff_origin?.1 recorded
    have same : origin = .joined sources := Option.some.inj ((extends_ _ _ known).symm.trans joined)
    exact ih (linked _ _ known source (by simpa [same, Origin.previous] using mem))

/-- What a trace passes its flag on to, it is derived from. -/
theorem mem_previous_of_flagsOn {version : Version} (mem : version ∈ trace.flagsOn) :
    version ∈ trace.origin.previous := by
  unfold Trace.flagsOn at mem
  split at mem
  · exact List.mem_reverse.1 mem
  · cases mem

/-- Flagging changes no origin, and stops short only at a version that is not recorded. -/
theorem ends_flagFrom (var : VarId) (stack : List Version) :
    Ends (flagFrom var stack) traces (fun _ after => traces.SameOrigins after)
      (fun _ after => traces.SameOrigins after ∧
        (traces.Linked → ∃ version ∈ stack, ⟨var, version⟩ ∉ traces)) := by
  unfold Ends
  fun_induction flagFrom var stack traces with
  | case1 traces => exact .refl traces
  | case2 version rest traces absent =>
    exact ⟨.refl traces, fun _ => ⟨version, by simp, not_mem_of_find absent⟩⟩
  | case3 version rest traces trace found flagged ih =>
    revert ih
    split
    · exact id
    · rintro ⟨same, missing⟩
      refine ⟨same, fun linked => ?_⟩
      obtain ⟨old, mem, absent⟩ := missing linked
      exact ⟨old, by simp [mem], absent⟩
  | case4 version rest traces trace found flagged ih =>
    have same : traces.SameOrigins
        (traces.insert ⟨var, version⟩ { trace with mayBeRead := true }) := .insert found rfl
    revert ih
    split
    · exact same.trans
    · rintro ⟨kept, missing⟩
      refine ⟨same.trans kept, fun linked => ?_⟩
      obtain ⟨old, mem, absent⟩ := missing (linked.of_same same)
      rw [same.mem_iff] at absent
      rcases List.mem_append.1 mem with passed | waiting
      · exact absurd
          (linked _ _ (origin?_eq_of_find found) old (mem_previous_of_flagsOn passed)) absent
      · exact ⟨old, by simp [waiting], absent⟩

/-- Noting a read changes no origin, and in a table whose links lead to records it fails at an
unrecorded key only. -/
theorem ends_noteRead : Ends (noteRead key) traces (fun _ after => traces.SameOrigins after)
    (fun _ after => traces.SameOrigins after ∧ (traces.Linked → key ∉ traces)) := by
  unfold noteRead
  rw [ends_bind, ends_find]
  constructor
  · intro trace found
    rw [ends_bind, ends_modify]
    have same : traces.SameOrigins (traces.insert key { trace with reads := trace.reads + 1 }) :=
      .insert found rfl
    refine (ends_flagFrom key.var trace.flagsOn).mono (fun _ _ => same.trans) ?_
    rintro _ after ⟨kept, missing⟩
    refine ⟨same.trans kept, fun linked => ?_⟩
    obtain ⟨version, mem, absent⟩ := missing (linked.of_same same)
    rw [same.mem_iff] at absent
    exact absurd
      (linked key _ (origin?_eq_of_find found) version (mem_previous_of_flagsOn mem)) absent
  · exact fun absent => ⟨.refl traces, fun _ => not_mem_of_find absent⟩

end Operations

end Traces

end ValueFlow
