import Mathlib.Logic.Relation
import ValueFlow.Proofs.Trace.Uses

/-!
# Flags and reachability

A use of a transparent version may be one of the versions that it is derived from (`PassesTo`). A
version is reached if a counted read passes to it in one or more such steps (`IsReached`). The flags
of a table tell exactly what is reached (`Exact`), if two things hold: what used versions pass their
flags on to is flagged (`Settled`), and what is flagged is reached (`Grounded`). A read keeps both
(`ends_noteRead_exact`). Nothing else of a table does it change but the count of its own key, so
what a row of reads leaves is the same in every order (`forM_noteRead_perm`).
-/

namespace ValueFlow
set_option autoImplicit false

/-- The trace without its flag. -/
def Trace.unflagged (trace : Trace) : Trace := { trace with mayBeRead := false }

/-- The trace with more reads counted. -/
def Trace.counting (trace : Trace) (reads : Nat) : Trace := { trace with reads := trace.reads + reads }

theorem Trace.eq_of_unflagged {trace other : Trace} (same : trace.unflagged = other.unflagged)
    (flags : trace.mayBeRead = other.mayBeRead) : trace = other := by
  cases trace
  cases other
  simp_all [unflagged]

namespace Traces

variable {traces older newer newest : Traces} {key other : TraceKey} {trace renewed : Trace}
  {var : VarId} {version : Version}

/-- A use of the later version may be one of the earlier version, from which it is derived. -/
def PassesTo (traces : Traces) (var : VarId) (later earlier : Version) : Prop :=
  ∃ origin, traces.origin? ⟨var, later⟩ = some origin ∧ origin.isTransparent = true ∧ earlier ∈ origin.previous

/-- A counted read passes to the version, in one or more steps. -/
def IsReached (traces : Traces) (key : TraceKey) : Prop :=
  ∃ reader, traces.IsCounted ⟨key.var, reader⟩ ∧ Relation.TransGen (traces.PassesTo key.var) reader key.version

/-- Only what is reached is flagged. -/
def Grounded (traces : Traces) : Prop := ∀ key, traces.IsFlagged key → traces.IsReached key

/-- The flags tell what is reached. -/
structure Exact (traces : Traces) : Prop where
  settled : traces.Settled
  grounded : traces.Grounded

theorem passesTo_iff {earlier : Version}
    (found : traces[(⟨var, version⟩ : TraceKey)]? = some trace) :
    traces.PassesTo var version earlier ↔ earlier ∈ trace.flagsOn := by
  unfold PassesTo Trace.flagsOn
  rw [origin?_eq_of_find found]
  by_cases transparent : trace.origin.isTransparent = true <;> simp [transparent]

theorem PassesTo.extend {later earlier : Version} (passes : older.PassesTo var later earlier)
    (extends_ : older.Extends newer) :
    newer.PassesTo var later earlier := by
  obtain ⟨origin, known, rest⟩ := passes
  exact ⟨origin, extends_ _ _ known, rest⟩

/-- What is reached stays so while the table grows and no count is lost. -/
theorem IsReached.mono (reached : older.IsReached key) (extends_ : older.Extends newer)
    (counts : ∀ key, older.IsCounted key → newer.IsCounted key) : newer.IsReached key := by
  obtain ⟨reader, counted, chain⟩ := reached
  exact ⟨reader, counts _ counted, chain.lift id fun _ _ passes => passes.extend extends_⟩

/-- In a settled table all that is reached is flagged. -/
theorem Settled.flagged (settled : traces.Settled) (reached : traces.IsReached key) :
    traces.IsFlagged key := by
  obtain ⟨reader, counted, chain⟩ := reached
  have passed {later earlier : Version} (passes : traces.PassesTo key.var later earlier)
      (used : traces.IsUsed ⟨key.var, later⟩) : traces.IsFlagged ⟨key.var, earlier⟩ := by
    rcases used with ⟨trace, found, noted⟩ | ⟨trace, found, noted⟩
    · exact settled _ trace found (.inl noted) earlier ((passesTo_iff found).1 passes)
    · exact settled _ trace found (.inr noted) earlier ((passesTo_iff found).1 passes)
  have all : ∀ version, Relation.TransGen (traces.PassesTo key.var) reader version →
      traces.IsFlagged ⟨key.var, version⟩ := by
    intro version chain
    induction chain with
    | single passes => exact passed passes (.inl counted)
    | tail _ passes ih => exact passed passes (.inr ih)
  exact all key.version chain

theorem Exact.flagged_iff (exactly : traces.Exact) : traces.IsFlagged key ↔ traces.IsReached key :=
  ⟨exactly.grounded key, exactly.settled.flagged⟩

theorem Exact.mayBeRead_iff (exactly : traces.Exact) (found : traces[key]? = some trace) :
    trace.mayBeRead = true ↔ traces.IsReached key := by
  rw [← exactly.flagged_iff, IsFlagged, found]
  simp

theorem Exact.empty : Exact ∅ := ⟨.empty, fun key ⟨trace, found, _⟩ => by simp at found⟩

section Entries

/-- An entry renewed with its origin and without a new flag leaves a grounded table so. -/
theorem Grounded.renew (grounded : traces.Grounded) (found : traces[key]? = some trace)
    (origin : renewed.origin = trace.origin) (reads : trace.reads ≤ renewed.reads)
    (flags : renewed.mayBeRead = true → trace.mayBeRead = true) :
    Grounded (traces.insert key renewed) := by
  rintro other ⟨held, foundHeld, flagged⟩
  refine IsReached.mono (grounded other ?_) (SameOrigins.insert found origin).extends
    fun _ counted => counted.insert found reads
  rw [getElem?_insert_trace] at foundHeld
  split at foundHeld
  · rename_i same
    obtain rfl := Option.some.inj foundHeld
    exact same ▸ ⟨trace, found, flags flagged⟩
  · exact ⟨held, foundHeld, flagged⟩

/-- A new entry is not flagged. -/
theorem Grounded.record (grounded : traces.Grounded) (free : key ∉ traces) (origin : Origin) :
    Grounded (traces.insert key (.ofOrigin origin)) := by
  rintro other ⟨held, foundHeld, flagged⟩
  rw [getElem?_insert_trace] at foundHeld
  split at foundHeld
  · obtain rfl := Option.some.inj foundHeld
    cases flagged
  · exact (grounded other ⟨held, foundHeld, flagged⟩).mono (.insert free)
      (Uses.record free origin).counted

theorem grounded_annotate (note : Trace → Trace)
    (origin : ∀ trace, (note trace).origin = trace.origin)
    (reads : ∀ trace, (note trace).reads = trace.reads)
    (flags : ∀ trace, (note trace).mayBeRead = trace.mayBeRead) :
    Ends (annotate key note) traces (fun _ after => traces.Grounded → after.Grounded) fun _ after =>
      traces.Grounded → after.Grounded := by
  unfold annotate
  rw [ends_bind, ends_find]
  constructor
  · exact fun trace found grounded => grounded.renew found (origin trace)
      (Nat.le_of_eq (reads trace).symm) (flags trace ▸ id)
  · exact fun _ => id

end Entries

/-- Reads of these keys were counted from the older table to the newer one; but for flags that is
all. -/
def CountsReads (older newer : Traces) (keys : List TraceKey) : Prop :=
  ∀ key, newer[key]?.map Trace.unflagged = older[key]?.map fun trace : Trace => (trace.counting (keys.count key)).unflagged

namespace CountsReads

variable {keys more : List TraceKey}

theorem refl (traces : Traces) : traces.CountsReads traces [] := fun _ => rfl

theorem trans (early : older.CountsReads newer keys) (late : newer.CountsReads newest more) :
    older.CountsReads newest (keys ++ more) := by
  intro key
  have first := early key
  rw [late key]
  cases found : newer[key]? with
  | none => cases held : older[key]? <;> simp_all
  | some trace =>
    cases held : older[key]? with
    | none => simp_all
    | some old =>
      simp_all [Trace.unflagged, Trace.counting, Nat.add_assoc]

theorem sameOrigins (counts : older.CountsReads newer keys) : older.SameOrigins newer := by
  intro key
  have same := congrArg (Option.map Trace.origin) (counts key)
  rwa [Option.map_map, Option.map_map] at same

theorem counted_iff (counts : older.CountsReads newer keys) :
    newer.IsCounted key ↔ older.IsCounted key ∨ key ∈ older ∧ key ∈ keys := by
  have same := counts key
  unfold IsCounted
  rw [Std.ExtTreeMap.mem_iff_isSome_getElem?]
  cases held : older[key]? with
  | none => simp_all
  | some old =>
    rw [held] at same
    obtain ⟨trace, found, same⟩ := Option.map_eq_some_iff.1 same
    have reads : trace.reads = old.reads + keys.count key := congrArg Trace.reads same
    have positive : 0 < trace.reads ↔ 0 < old.reads ∨ key ∈ keys := by
      rw [reads, Nat.add_pos_iff_pos_or_pos, List.count_pos_iff]
    simp [found, positive]

/-- An entry that differs in its flag only. -/
theorem flag (found : traces[key]? = some trace) :
    traces.CountsReads (traces.insert key { trace with mayBeRead := true }) [] := by
  intro other
  rw [getElem?_insert_trace]
  split
  · rename_i same
    rw [same, found]
    rfl
  · rfl

/-- An entry with one more read. -/
theorem count (found : traces[key]? = some trace) :
    traces.CountsReads (traces.insert key { trace with reads := trace.reads + 1 }) [key] := by
  intro other
  rw [getElem?_insert_trace]
  split
  · rename_i same
    rw [same, found]
    simp [Trace.counting]
  · rename_i apart
    simp [Trace.counting, Ne.symm apart]

end CountsReads

section Flagging

/-- Flagging changes flags only, wherever it stops. -/
theorem counts_flagFrom (var : VarId) (stack : List Version) :
    Ends (flagFrom var stack) traces (fun _ after => traces.CountsReads after []) fun _ after =>
      traces.CountsReads after [] := by
  unfold Ends
  fun_induction flagFrom var stack traces with
  | case1 traces => exact .refl traces
  | case2 version rest traces absent => exact .refl traces
  | case3 version rest traces trace found flagged ih => exact ih
  | case4 version rest traces trace found flagged ih =>
    revert ih
    split <;> exact (CountsReads.flag found).trans

/-- Flagging what is reached leaves a grounded table so, wherever it stops. -/
theorem grounded_flagFrom (var : VarId) (stack : List Version) :
    Ends (flagFrom var stack) traces
      (fun _ after => (∀ version ∈ stack, traces.IsReached ⟨var, version⟩) →
        traces.Grounded → after.Grounded)
      fun _ after => (∀ version ∈ stack, traces.IsReached ⟨var, version⟩) → traces.Grounded →
        after.Grounded := by
  unfold Ends
  fun_induction flagFrom var stack traces with
  | case1 traces => exact fun _ => id
  | case2 version rest traces absent => exact fun _ => id
  | case3 version rest traces trace found flagged ih =>
    revert ih
    split <;> exact fun ih reached => ih fun version mem =>
      reached version (List.mem_cons_of_mem _ mem)
  | case4 version rest traces trace found unflagged ih =>
    have same : traces.SameOrigins
        (traces.insert ⟨var, version⟩ { trace with mayBeRead := true }) := .insert found rfl
    have keep {key : TraceKey} (reached : traces.IsReached key) :
        IsReached (traces.insert ⟨var, version⟩ { trace with mayBeRead := true }) key :=
      reached.mono same.extends fun _ counted => counted.insert found (Nat.le_refl _)
    -- What the version at hand passes its flag on to is reached through it.
    have onward (reached : ∀ v ∈ version :: rest, traces.IsReached ⟨var, v⟩) :
        ∀ v ∈ trace.flagsOn ++ rest,
          IsReached (traces.insert ⟨var, version⟩ { trace with mayBeRead := true }) ⟨var, v⟩ := by
      intro earlier mem
      refine keep ?_
      rcases List.mem_append.1 mem with passed | waiting
      · obtain ⟨reader, counted, chain⟩ := reached version List.mem_cons_self
        exact ⟨reader, counted, chain.tail ((passesTo_iff found).2 passed)⟩
      · exact reached earlier (List.mem_cons_of_mem _ waiting)
    have ground (reached : ∀ v ∈ version :: rest, traces.IsReached ⟨var, v⟩)
        (grounded : traces.Grounded) :
        Grounded (traces.insert ⟨var, version⟩ { trace with mayBeRead := true }) := by
      rintro other ⟨held, foundHeld, flagged⟩
      rw [getElem?_insert_trace] at foundHeld
      split at foundHeld
      · rename_i here
        exact keep (here ▸ reached version List.mem_cons_self)
      · exact keep (grounded other ⟨held, foundHeld, flagged⟩)
    revert ih
    split <;> exact fun ih reached grounded => ih (onward reached) (ground reached grounded)

/-- Noting a read leaves a grounded table so, wherever it stops. -/
theorem grounded_noteRead :
    Ends (noteRead key) traces (fun _ after => traces.Grounded → after.Grounded)
    fun _ after => traces.Grounded → after.Grounded := by
  unfold noteRead
  rw [ends_bind, ends_find]
  refine ⟨fun trace found => ?_, fun _ => id⟩
  rw [ends_bind, ends_modify]
  have here : IsCounted (traces.insert key { trace with reads := trace.reads + 1 }) key :=
    ⟨_, by rw [getElem?_insert_trace, if_pos rfl], Nat.succ_pos _⟩
  have foundHere : (traces.insert key { trace with reads := trace.reads + 1 })[key]? =
      some { trace with reads := trace.reads + 1 } := by
    rw [getElem?_insert_trace, if_pos rfl]
  have reached : ∀ version ∈ trace.flagsOn,
      IsReached (traces.insert key { trace with reads := trace.reads + 1 }) ⟨key.var, version⟩ :=
    fun version mem => ⟨key.version, here, .single ((passesTo_iff foundHere).2 mem)⟩
  have ground (grounded : traces.Grounded) : Grounded
      (traces.insert key { trace with reads := trace.reads + 1 }) :=
    grounded.renew found rfl (Nat.le_succ _) id
  exact (grounded_flagFrom key.var trace.flagsOn).mono
    (fun _ _ told grounded => told reached (ground grounded)) fun _ _ told grounded =>
    told reached (ground grounded)

/-- A read at a recorded key succeeds where all links lead to records. It is counted at that key,
and changes nothing else but flags. -/
theorem ends_noteRead_counts (linked : traces.Linked) (recorded : key ∈ traces) :
    Ends (noteRead key) traces (fun _ after => traces.CountsReads after [key])
      fun _ _ => False := by
  have counts : Gives (noteRead key) traces fun _ after => traces.CountsReads after [key] := by
    unfold noteRead
    refine ends_bind.2 (ends_find.2 ⟨fun trace found => ?_, fun _ => trivial⟩)
    exact ends_bind.2
      (ends_modify.2 ((counts_flagFrom key.var trace.flagsOn).gives.mono fun _ _ =>
          (CountsReads.count found).trans))
  exact (ends_noteRead.and_gives counts).mono (fun _ _ told => told.2) fun _ _ fell =>
    fell.2 linked recorded

/-- A read at a recorded key keeps the flags exact. -/
theorem ends_noteRead_exact (linked : traces.Linked) (exactly : traces.Exact)
    (recorded : key ∈ traces) :
    Ends (noteRead key) traces (fun _ after => traces.CountsReads after [key] ∧ after.Exact)
      fun _ _ => False := by
  refine ((ends_noteRead_counts linked recorded).and_gives
    (gives_noteRead.and grounded_noteRead.gives)).mono ?_ fun _ _ fell => fell
  rintro _ after ⟨counts, ⟨uses, -⟩, ground⟩
  exact ⟨counts, uses.settled exactly.settled, ground exactly.grounded⟩

/-- A row of reads at recorded keys succeeds, counts each of them, and keeps the flags exact. -/
theorem ends_forM_noteRead {keys : List TraceKey} (linked : traces.Linked)
    (exactly : traces.Exact) (recorded : ∀ key ∈ keys, key ∈ traces) :
    Ends (keys.forM noteRead) traces (fun _ after => traces.CountsReads after keys ∧ after.Exact)
      fun _ _ => False := by
  induction keys generalizing traces with
  | nil => exact ⟨.refl traces, exactly⟩
  | cons key rest ih =>
    refine ends_bind.2
      ((ends_noteRead_exact linked exactly (recorded key List.mem_cons_self)).mono ?_
        fun _ _ fell => fell)
    rintro _ middle ⟨counts, exactly⟩
    have same := counts.sameOrigins
    refine (ih (linked.of_same same) exactly fun other mem =>
      same.mem_iff.2 (recorded other (List.mem_cons_of_mem _ mem))).mono ?_ fun _ _ fell => fell
    exact fun _ after told => ⟨counts.trans told.1, told.2⟩

/-- Exact flags are determined by the origins and the counts. -/
theorem eq_of_exact {keys others : List TraceKey} (same : keys.Perm others)
    (counts : traces.CountsReads older keys) (recounts : traces.CountsReads newer others)
    (exactly : older.Exact) (again : newer.Exact) : older = newer := by
  have counted (key : TraceKey) : older.IsCounted key ↔ newer.IsCounted key := by
    rw [counts.counted_iff, recounts.counted_iff, same.mem_iff]
  have origins : older.SameOrigins newer :=
    fun key => (recounts.sameOrigins key).trans (counts.sameOrigins key).symm
  have back : newer.SameOrigins older := fun key => (origins key).symm
  have reached (key : TraceKey) : older.IsReached key ↔ newer.IsReached key :=
    ⟨fun reached => reached.mono origins.extends fun key => (counted key).1,
      fun reached => reached.mono back.extends fun key => (counted key).2⟩
  refine Std.ExtTreeMap.ext_getElem? fun key => ?_
  have alike : older[key]?.map Trace.unflagged = newer[key]?.map Trace.unflagged := by
    rw [counts key, recounts key, same.count_eq]
  cases foundOld : older[key]? with
  | none => cases foundNew : newer[key]? <;> simp_all
  | some old =>
    cases foundNew : newer[key]? with
    | none => simp_all
    | some new =>
      rw [foundOld, foundNew] at alike
      have flags : old.mayBeRead = new.mayBeRead := by
        rw [Bool.eq_iff_iff, exactly.mayBeRead_iff foundOld, again.mayBeRead_iff foundNew, reached]
      rw [Trace.eq_of_unflagged (Option.some.inj alike) flags]

/-- A row of reads at recorded keys leaves the same table in every order. -/
theorem forM_noteRead_perm {keys others : List TraceKey} (linked : traces.Linked)
    (exactly : traces.Exact) (same : keys.Perm others) (recorded : ∀ key ∈ keys, key ∈ traces) :
    ∃ after, keys.forM noteRead traces = .ok ⟨⟩ after ∧
      others.forM noteRead traces = .ok ⟨⟩ after := by
  obtain ⟨⟨⟩, after, run, counts, exactLater⟩ :=
    (ends_forM_noteRead linked exactly recorded).exists_ok
  obtain ⟨⟨⟩, other, rerun, recounts, exactAgain⟩ :=
    (ends_forM_noteRead linked exactly fun key mem => recorded key (same.mem_iff.2 mem)).exists_ok
  obtain rfl := eq_of_exact same counts recounts exactLater exactAgain
  exact ⟨after, run, rerun⟩

end Flagging

end Traces

end ValueFlow
