import ValueFlow.Proofs.Trace.Origin

/-!
# Notes of use

A version is used if a read of it was counted, or if it was flagged because a read of a later
version may see its value. Operations only add such notes (`Traces.Uses`). They also keep the table
settled: what a transparent version was derived from is flagged wherever a use of that version is
noted. So behind a used version every version is used that can be reached through transparent ones
(`Settled.used`).
-/

namespace ValueFlow
set_option autoImplicit false

namespace Traces

/-- A read of exactly this version was counted. -/
def IsCounted (traces : Traces) (key : TraceKey) : Prop := ∃ trace, traces[key]? = some trace ∧ 0 < trace.reads

/-- The version was flagged as possibly read. -/
def IsFlagged (traces : Traces) (key : TraceKey) : Prop := ∃ trace, traces[key]? = some trace ∧ trace.mayBeRead = true

/-- A use of the version is noted. -/
def IsUsed (traces : Traces) (key : TraceKey) : Prop := traces.IsCounted key ∨ traces.IsFlagged key

/-- What used versions pass their flags on to is flagged, but for some versions of a variable. -/
def SettledBut (traces : Traces) (var : VarId) (pending : List Version) : Prop :=
  ∀ (key : TraceKey) (trace : Trace), traces[key]? = some trace → 0 < trace.reads ∨ trace.mayBeRead = true →
    ∀ version ∈ trace.flagsOn, traces.IsFlagged ⟨key.var, version⟩ ∨ key.var = var ∧ version ∈ pending

/-- What used versions pass their flags on to is flagged. -/
def Settled (traces : Traces) : Prop :=
  ∀ (key : TraceKey) (trace : Trace), traces[key]? = some trace → 0 < trace.reads ∨ trace.mayBeRead = true →
    ∀ version ∈ trace.flagsOn, traces.IsFlagged ⟨key.var, version⟩

/-- No note of use was lost, and a settled table stays settled. -/
structure Uses (older newer : Traces) : Prop where
  counted : ∀ key, older.IsCounted key → newer.IsCounted key
  flagged : ∀ key, older.IsFlagged key → newer.IsFlagged key
  settled : older.Settled → newer.Settled

/-- A version can be reached from another one through transparent versions. -/
inductive Derives (traces : Traces) (var : VarId) : Version → Version → Prop
  | refl (version : Version) : Derives traces var version version
  | step {version middle first : Version} {origin : Origin} (known : traces.origin? ⟨var, version⟩ = some origin)
      (transparent : origin.isTransparent = true) (mem : middle ∈ origin.previous)
      (below : Derives traces var middle first) : Derives traces var version first

variable {traces older newer newest : Traces} {key other : TraceKey} {trace renewed : Trace}
  {var : VarId}

theorem Uses.refl (traces : Traces) : traces.Uses traces := ⟨fun _ => id, fun _ => id, id⟩

theorem Uses.trans (early : older.Uses newer) (late : newer.Uses newest) : older.Uses newest where
  counted key counted := late.counted key (early.counted key counted)
  flagged key flagged := late.flagged key (early.flagged key flagged)
  settled settled := late.settled (early.settled settled)

theorem Settled.empty : Settled ∅ := fun key trace found => by simp at found

theorem SettledBut.settled (settled : traces.SettledBut var []) : traces.Settled :=
  fun key trace found used version mem =>
    (settled key trace found used version mem).resolve_right (by simp)

theorem getElem?_insert_trace :
    (traces.insert key renewed)[other]? = if other = key then some renewed else traces[other]? := by
  rw [Std.ExtTreeMap.getElem?_insert]
  by_cases same : key = other
  · simp [same]
  · simp [same, Ne.symm same]

section Renewal

/-- A renewed entry that has lost no note loses no count. -/
theorem IsCounted.insert (counted : traces.IsCounted other) (found : traces[key]? = some trace)
    (keeps : trace.reads ≤ renewed.reads) : IsCounted (traces.insert key renewed) other := by
  obtain ⟨held, foundHeld, positive⟩ := counted
  unfold IsCounted
  rw [getElem?_insert_trace]
  by_cases same : other = key
  · subst same
    obtain rfl := Option.some.inj (found.symm.trans foundHeld)
    exact ⟨renewed, if_pos rfl, Nat.lt_of_lt_of_le positive keeps⟩
  · exact ⟨held, by rw [if_neg same, foundHeld], positive⟩

theorem IsFlagged.insert (flagged : traces.IsFlagged other) (found : traces[key]? = some trace)
    (keeps : trace.mayBeRead = true → renewed.mayBeRead = true) :
    IsFlagged (traces.insert key renewed) other := by
  obtain ⟨held, foundHeld, set⟩ := flagged
  unfold IsFlagged
  rw [getElem?_insert_trace]
  by_cases same : other = key
  · subst same
    obtain rfl := Option.some.inj (found.symm.trans foundHeld)
    exact ⟨renewed, if_pos rfl, keeps set⟩
  · exact ⟨held, by rw [if_neg same, foundHeld], set⟩

/-- A renewed entry with the notes of use that it had. -/
theorem Uses.renew (found : traces[key]? = some trace) (origin : renewed.origin = trace.origin)
    (reads : renewed.reads = trace.reads) (mayBeRead : renewed.mayBeRead = trace.mayBeRead) :
    traces.Uses (traces.insert key renewed) where
  counted other counted := counted.insert found (Nat.le_of_eq reads.symm)
  flagged other flagged := flagged.insert found (by rw [mayBeRead]; exact id)
  settled settled other held foundHeld used version mem := by
    rw [getElem?_insert_trace] at foundHeld
    have flagged : traces.IsFlagged ⟨other.var, version⟩ := by
      split at foundHeld
      · rename_i same
        subst same
        obtain rfl := Option.some.inj foundHeld
        rw [reads, mayBeRead] at used
        refine settled other trace found used version ?_
        rwa [Trace.flagsOn, origin] at mem
      · exact settled other held foundHeld used version mem
    exact flagged.insert found (by rw [mayBeRead]; exact id)

/-- A new entry is not used yet, and no note was taken of its key. -/
theorem Uses.record (free : key ∉ traces) (origin : Origin) :
    traces.Uses (traces.insert key (.ofOrigin origin)) := by
  have apart {other : TraceKey} {held : Trace} (found : traces[other]? = some held) :
      other ≠ key := by
    rintro rfl
    exact free (Std.ExtTreeMap.mem_iff_isSome_getElem?.2 (by simp [found]))
  have flagged {other : TraceKey} (flagged : traces.IsFlagged other) : IsFlagged
      (traces.insert key (.ofOrigin origin)) other := by
    obtain ⟨held, found, set⟩ := flagged
    exact ⟨held, by rw [getElem?_insert_trace, if_neg (apart found), found], set⟩
  refine ⟨?_, fun _ => flagged, ?_⟩
  · rintro other ⟨held, found, positive⟩
    exact ⟨held, by rw [getElem?_insert_trace, if_neg (apart found), found], positive⟩
  · intro settled other held found used version mem
    rw [getElem?_insert_trace] at found
    split at found
    · obtain rfl := Option.some.inj found
      simp [Trace.ofOrigin] at used
    · exact flagged (settled other held found used version mem)

end Renewal

/-- Flagging loses no note, and settles what was pending. -/
theorem gives_flagFrom (var : VarId) (stack : List Version) :
    Gives (flagFrom var stack) traces fun _ after =>
      (∀ key, traces.IsCounted key → after.IsCounted key) ∧
      (∀ key, traces.IsFlagged key → after.IsFlagged key) ∧
        (traces.SettledBut var stack → after.Settled) := by
  unfold Gives Ends
  fun_induction flagFrom var stack traces with
  | case1 traces => exact ⟨fun _ => id, fun _ => id, SettledBut.settled⟩
  | case2 => trivial
  | case3 version rest traces trace found flagged ih =>
    revert ih
    split
    · rintro ⟨counts, flags, settles⟩
      refine ⟨counts, flags, fun settled => settles fun key held foundHeld used other mem => ?_⟩
      rcases settled key held foundHeld used other mem with done | ⟨same, waiting⟩
      · exact .inl done
      · rcases List.mem_cons.1 waiting with rfl | waiting
        · exact .inl ⟨trace, same ▸ found, flagged⟩
        · exact .inr ⟨same, waiting⟩
    · exact id
  | case4 version rest traces trace found unflagged ih =>
    revert ih
    split
    · rintro ⟨counts, flags, settles⟩
      have flag {key : TraceKey} (flagged : traces.IsFlagged key) :
          IsFlagged (traces.insert ⟨var, version⟩ { trace with mayBeRead := true }) key :=
            flagged.insert found fun _ => rfl
      refine ⟨fun key counted => counts key (counted.insert found (Nat.le_refl _)),
        fun key flagged => flags key (flag flagged), ?_⟩
      -- The version at hand is flagged now, and what it passes its flag on to is pending in its
      -- place.
      refine fun settled => settles fun key held foundHeld used other mem => ?_
      have here : IsFlagged (traces.insert ⟨var, version⟩ { trace with mayBeRead := true })
          ⟨var, version⟩ := ⟨_, by rw [getElem?_insert_trace, if_pos rfl], rfl⟩
      rw [getElem?_insert_trace] at foundHeld
      split at foundHeld
      · rename_i same
        subst same
        obtain rfl := Option.some.inj foundHeld
        exact .inr ⟨rfl, List.mem_append_left _ mem⟩
      · rcases settled key held foundHeld used other mem with done | ⟨same, waiting⟩
        · exact .inl (flag done)
        · rcases List.mem_cons.1 waiting with rfl | waiting
          · exact .inl (same ▸ here)
          · exact .inr ⟨same, List.mem_append_right _ waiting⟩
    · exact id

/-- A noted read is counted, and the table stays settled. -/
theorem gives_noteRead :
    Gives (noteRead key) traces fun _ after => traces.Uses after ∧ after.IsCounted key := by
  unfold noteRead
  refine ends_bind.2 (ends_find.2 ⟨fun trace found => ?_, fun _ => trivial⟩)
  refine ends_bind.2 (ends_modify.2 ((gives_flagFrom key.var trace.flagsOn).mono ?_))
  rintro _ after ⟨counts, flags, settles⟩
  have here : IsCounted (traces.insert key { trace with reads := trace.reads + 1 }) key :=
    ⟨_, by rw [getElem?_insert_trace, if_pos rfl], Nat.succ_pos _⟩
  refine ⟨⟨fun other counted => counts other (counted.insert found (Nat.le_succ _)),
    fun other flagged => flags other (flagged.insert found id), fun settled => settles ?_⟩,
    counts key here⟩
  intro other held foundHeld used version mem
  rw [getElem?_insert_trace] at foundHeld
  split at foundHeld
  · rename_i same
    subst same
    obtain rfl := Option.some.inj foundHeld
    exact .inr ⟨rfl, mem⟩
  · exact .inl ((settled other held foundHeld used version mem).insert found id)

/-- A note that leaves the origin and the notes of use alone. -/
theorem ends_quietNote (note : Trace → Trace)
    (origin : ∀ trace, (note trace).origin = trace.origin)
    (reads : ∀ trace, (note trace).reads = trace.reads)
    (mayBeRead : ∀ trace, (note trace).mayBeRead = trace.mayBeRead) :
    Ends (annotate key note) traces (fun _ after => traces.SameOrigins after ∧ traces.Uses after)
      (fun _ _ => key ∉ traces) := by
  have uses : Gives (annotate key note) traces fun _ after => traces.Uses after := by
    unfold annotate
    exact ends_bind.2
      (ends_find.2 ⟨fun trace found => .renew found (origin trace) (reads trace) (mayBeRead trace),
          fun _ => trivial⟩)
  exact ((ends_annotate note origin).and_gives uses).mono (fun _ _ told => told)
    fun _ _ fell => fell.2

/-- In a settled table, what a used version is derived from is used. -/
theorem Settled.used (settled : traces.Settled) {version first : Version}
    (derives : traces.Derives var version first) (used : traces.IsUsed ⟨var, version⟩) :
    traces.IsUsed ⟨var, first⟩ := by
  induction derives with
  | refl => exact used
  | @step version middle first origin known transparent mem below ih =>
    obtain ⟨trace, found, noted⟩ : ∃ trace, traces[(⟨var, version⟩ : TraceKey)]? = some trace ∧
      (0 < trace.reads ∨ trace.mayBeRead = true) := by
      rcases used with ⟨trace, found, noted⟩ | ⟨trace, found, noted⟩
      · exact ⟨trace, found, .inl noted⟩
      · exact ⟨trace, found, .inr noted⟩
    obtain rfl : trace.origin = origin :=
      Option.some.inj ((origin?_eq_of_find found).symm.trans known)
    refine ih (.inr (settled _ trace found noted middle ?_))
    rw [Trace.flagsOn, if_pos transparent]
    exact List.mem_reverse.2 mem

theorem Derives.extend {version first : Version} (derives : older.Derives var version first)
    (extends_ : older.Extends newer) :
    newer.Derives var version first := by
  induction derives with
  | refl => exact .refl _
  | step known transparent mem _ ih => exact .step (extends_ _ _ known) transparent mem ih

theorem Derives.trans {version middle first : Version} (upper : traces.Derives var version middle)
    (lower : traces.Derives var middle first) :
    traces.Derives var version first := by
  induction upper with
  | refl => exact lower
  | step known transparent mem _ ih => exact .step known transparent mem (ih lower)

end Traces

end ValueFlow
