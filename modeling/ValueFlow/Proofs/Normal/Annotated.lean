import ValueFlow.Proofs.AppendOnly.Growth
import ValueFlow.Proofs.Flags.Reached
import ValueFlow.Proofs.Join.Exact
import ValueFlow.Proofs.Tree.Code

/-!
# What a state has gained, and the notes that tell of it

Along a walk the log gains counts of reads and traces of assignments and deletes, and the nodes gain
notes of versions. The notes account for the gain (`Analysis.Annotates`): each read that was counted
is one noted at a node, or one of the fallback of a variable read there; the assignments that were
recorded are those noted; and the deletes that are noted bear new versions, each its own. Most of
what is done at a scope needs no note (`annotates_quiet`).
-/

namespace ValueFlow
set_option autoImplicit false

/-- What is noted at a node that reads or writes a variable: the variable, whether a write binds it,
and the version. -/
abbrev NodeNote := NodeId × VarId × Option Bool × Option Version

namespace NodeNote

/-- The variable and the version that is noted at a read. -/
def read? : NodeNote → Option (VarId × Option Version)
  | (_, var, none, version) => some (var, version)
  | _ => none

/-- The version that is noted at a delete. -/
def deleted? : NodeNote → Option TraceKey
  | (_, var, some false, some version) => some ⟨var, version⟩
  | _ => none

end NodeNote

/-- The variable that is read where the variable is unbound. -/
def Variables.fallback? (vars : Variables) (var : VarId) : Option VarId := (vars.get? var).bind (·.storage.fallback?)

theorem Variables.Advances.fallback? {older newer : Variables} (advances : older.Advances newer) :
    newer.fallback? = older.fallback? := by
  funext var
  unfold Variables.fallback?
  cases found : newer.get? var with
  | some slot =>
    obtain ⟨old, foundOld, -, same⟩ := advances.slot_back found
    rw [foundOld, same]
    rfl
  | none =>
    cases foundOld : older.get? var with
    | none => rfl
    | some old =>
      obtain ⟨last, -, again⟩ := advances.slot var old foundOld
      cases found.symm.trans again

namespace Traces

/-- The reads that are counted at a key. -/
def readsAt (traces : Traces) (key : TraceKey) : Nat := (traces[key]?.map (·.reads)).getD 0

/-- The assignment at the node has made the version. -/
def Assigns (traces : Traces) (node : NodeId) (key : TraceKey) : Prop := ∃ previous, traces.origin? key = some (.assigned node previous)

/-- Reads of these keys were counted from the older table to the newer one. -/
def Tallies (older newer : Traces) (keys : List TraceKey) : Prop := ∀ key, newer.readsAt key = older.readsAt key + keys.count key

variable {older newer newest traces : Traces} {key : TraceKey} {keys more : List TraceKey}

theorem Tallies.refl (traces : Traces) : traces.Tallies traces [] := fun _ => rfl

theorem Tallies.trans (early : older.Tallies newer keys) (late : newer.Tallies newest more) :
    older.Tallies newest (keys ++ more) := by
  intro key
  rw [late key, early key, List.count_append, Nat.add_assoc]

theorem Tallies.perm (tallies : older.Tallies newer keys) (same : keys.Perm more) :
    older.Tallies newer more :=
  fun key => same.count_eq key ▸ tallies key

theorem CountsReads.tallies (counts : older.CountsReads newer keys)
    (recorded : ∀ key ∈ keys, key ∈ older) : older.Tallies newer keys := by
  intro key
  have same := counts key
  unfold readsAt
  cases held : older[key]? with
  | none =>
    have free : key ∉ keys := fun mem => not_mem_of_find held (recorded key mem)
    rw [held] at same
    rw [Option.map_eq_none_iff.1 same, List.count_eq_zero_of_not_mem free]
    rfl
  | some old =>
    rw [held] at same
    obtain ⟨trace, found, same⟩ := Option.map_eq_some_iff.1 same
    rw [found]
    exact congrArg Trace.reads same

/-- Reads of these keys were counted, and no assignment was recorded. -/
structure OnlyReads (older newer : Traces) (keys : List TraceKey) : Prop where
  tallies : older.Tallies newer keys
  assigns : ∀ node key, newer.Assigns node key ↔ older.Assigns node key

theorem OnlyReads.refl (traces : Traces) : traces.OnlyReads traces [] := ⟨.refl _, fun _ _ => .rfl⟩

theorem OnlyReads.trans (early : older.OnlyReads newer keys) (late : newer.OnlyReads newest more) :
    older.OnlyReads newest (keys ++ more) :=
  ⟨early.tallies.trans late.tallies,
    fun node key => (late.assigns node key).trans (early.assigns node key)⟩

/-- No read is counted at a new entry. -/
theorem tallies_record (free : key ∉ traces) (origin : Origin) :
    traces.Tallies (traces.insert key (.ofOrigin origin)) [] := by
  intro other
  unfold readsAt
  rw [getElem?_insert_trace]
  split
  · rename_i same
    have absent : traces[key]? = none := Std.ExtTreeMap.getElem?_eq_none free
    rw [same, absent]
    rfl
  · rfl

theorem assigns_record (free : key ∉ traces) (origin : Origin) (node : NodeId) (other : TraceKey) :
    Assigns (traces.insert key (.ofOrigin origin)) node other ↔ traces.Assigns node other ∨
      other = key ∧ origin.assignedBy? = some node := by
  unfold Assigns
  rw [origin?_insert]
  have absent : ∀ origin, traces.origin? key ≠ some origin :=
    fun _ known => free (mem_of_origin? known)
  by_cases same : other = key
  · subst same
    rw [if_pos rfl]
    cases origin <;> simp [absent, Trace.ofOrigin, Origin.assignedBy?]
  · simp [same]

theorem OnlyReads.record (free : key ∉ traces) {origin : Origin}
    (quiet : origin.assignedBy? = none) :
    traces.OnlyReads (traces.insert key (.ofOrigin origin)) [] where
  tallies := tallies_record free origin
  assigns node other := by simp [assigns_record free, quiet]

theorem SameOrigins.assigns (same : older.SameOrigins newer) (node : NodeId) (key : TraceKey) :
    newer.Assigns node key ↔ older.Assigns node key := by
  unfold Assigns
  rw [same key]

theorem onlyReads_annotate (note : Trace → Trace)
    (origin : ∀ trace, (note trace).origin = trace.origin)
    (reads : ∀ trace, (note trace).reads = trace.reads) :
    Ends (annotate key note) traces (fun _ after => traces.OnlyReads after []) fun _ after =>
      traces.OnlyReads after [] := by
  unfold annotate
  rw [ends_bind, ends_find]
  refine ⟨fun trace found => ⟨fun other => ?_, (SameOrigins.insert found (origin trace)).assigns⟩,
    fun _ => .refl traces⟩
  unfold readsAt
  rw [getElem?_insert_trace]
  split
  · rename_i same
    simp [same, found, reads]
  · rfl

/-- A read is counted at its key alone. -/
theorem gives_noteRead_onlyReads :
    Gives (noteRead key) traces fun _ after => traces.OnlyReads after [key] := by
  unfold noteRead
  refine ends_bind.2 (ends_find.2 ⟨fun trace found => ?_, fun _ => trivial⟩)
  refine ends_bind.2
    (ends_modify.2 ((counts_flagFrom key.var trace.flagsOn).gives.mono fun _ after flags => ?_))
  have counts := (CountsReads.count found).trans flags
  refine ⟨counts.tallies fun other mem => ?_, counts.sameOrigins.assigns⟩
  rw [List.mem_singleton.1 mem]
  exact mem_of_origin? (origin?_eq_of_find found)

end Traces

/-- What neither binds a variable nor counts a read is told so by the log. -/
theorem onlyReads_quiet :
    Analysis.QuietHabit fun before after => before.traces.OnlyReads after.traces [] where
  refl state := .refl state.traces
  trans := .trans
  recordEntry _ _ := Analysis.ends_recordEntry_of (.refl _) fun slot _ free =>
    .record free (by cases slot.storage <;> rfl)
  recordQuiet _ _ quiet _ := Analysis.ends_recordNext_of (.refl _) fun _ _ _ =>
    ⟨.refl _, fun free => .record free quiet⟩
  noteRelease key state :=
    ends_liftTraces.2 (Traces.onlyReads_annotate _ (fun _ => rfl) fun _ => rfl)
  noteEscape key state :=
    ends_liftTraces.2 (Traces.onlyReads_annotate _ (fun _ => rfl) fun _ => rfl)

/-- The notes account for what the state has gained. -/
structure Analysis.Annotates (before : Analysis) (notes : List NodeNote) (after : Analysis) : Prop where
  appends : before.Appends after
  reads : ∃ own others : List TraceKey, before.traces.Tallies after.traces (own ++ others) ∧
    (own.map fun key => (key.var, some key.version)).Perm (notes.filterMap NodeNote.read?) ∧
    (others.map (·.var)).Perm ((notes.filterMap NodeNote.read?).filterMap fun seen => before.vars.fallback? seen.1)
  assigns : ∀ node key, after.traces.Assigns node key ↔ before.traces.Assigns node key ∨ (node, key.var, some true, some key.version) ∈ notes
  versions : ∀ note ∈ notes, note.2.2.2.isSome
  unbinds : ∀ key ∈ notes.filterMap NodeNote.deleted?, key ∉ before.traces ∧ ∃ previous, after.traces.origin? key = some (.unbound (some previous))
  distinct : (notes.filterMap NodeNote.deleted?).Nodup

namespace Analysis.Annotates

variable {before middle after : Analysis} {notes more : List NodeNote} {id : NodeId} {var : VarId}
  {version : Version} {keys : List TraceKey}

/-- Where no read was counted and no assignment recorded, no note is due. -/
theorem idle (appends : before.Appends after) (only : before.traces.OnlyReads after.traces []) :
    before.Annotates [] after where
  appends := appends
  reads := ⟨[], [], only.tallies, .nil, .nil⟩
  assigns node key := by simp [only.assigns]
  versions := nofun
  unbinds := nofun
  distinct := .nil

theorem of_log (traces : after.traces = before.traces) (vars : after.vars = before.vars) :
    before.Annotates [] after :=
  idle (.of_log traces vars) (traces ▸ .refl _)

theorem refl (state : Analysis) : state.Annotates [] state := of_log rfl rfl

/-- A read was counted, and one of the fallback of its variable. -/
theorem read (id : NodeId) (appends : before.Appends after)
    (only : before.traces.OnlyReads after.traces (⟨var, version⟩ :: keys))
    (fallback : keys.map (·.var) = (before.vars.fallback? var).toList) :
    before.Annotates [(id, var, none, some version)] after where
  appends := appends
  reads := ⟨[⟨var, version⟩], keys, only.tallies,
    .refl _, by cases named : before.vars.fallback? var <;> simp_all [NodeNote.read?]⟩
  assigns node key := by simp [only.assigns]
  versions := by simp
  unbinds := nofun
  distinct := .nil

/-- An assignment was recorded. -/
theorem assign (appends : before.Appends after) (tallies : before.traces.Tallies after.traces [])
    (assigns : ∀ node key, after.traces.Assigns node key ↔ before.traces.Assigns node key ∨
      key = ⟨var, version⟩ ∧ node = id) :
    before.Annotates [(id, var, some true, some version)] after where
  appends := appends
  reads := ⟨[], [], tallies, .nil, .nil⟩
  assigns node key := by
    rw [assigns]
    obtain ⟨held, number⟩ := key
    simp [and_comm]
  versions := by simp
  unbinds := nofun
  distinct := .nil

/-- A delete was recorded, and nothing else. -/
theorem delete (id : NodeId) (idle : before.Annotates [] after)
    (free : ⟨var, version⟩ ∉ before.traces) {previous : Version}
    (known : after.traces.origin? ⟨var, version⟩ = some (.unbound (some previous))) :
    before.Annotates [(id, var, some false, some version)] after where
  appends := idle.appends
  reads := idle.reads
  assigns node key := by simpa using idle.assigns node key
  versions := by simp
  unbinds key mem := by
    obtain rfl := List.mem_singleton.1 mem
    exact ⟨free, previous, known⟩
  distinct := by simp [NodeNote.deleted?]

/-- The notes of two parts account for the gain of both. -/
theorem trans (early : before.Annotates notes middle) (late : middle.Annotates more after) :
    before.Annotates (notes ++ more) after where
  appends := early.appends.trans late.appends
  reads := by
    obtain ⟨own, others, tallies, seen, fallbacks⟩ := early.reads
    obtain ⟨ownLate, othersLate, talliesLate, seenLate, fallbacksLate⟩ := late.reads
    refine ⟨own ++ ownLate, others ++ othersLate, (tallies.trans talliesLate).perm ?_, ?_, ?_⟩
    · simp only [List.append_assoc]
      refine List.Perm.append_left own ?_
      simp only [← List.append_assoc]
      exact List.perm_append_comm.append_right othersLate
    · rw [List.map_append, List.filterMap_append]
      exact seen.append seenLate
    · rw [early.appends.vars.fallback?] at fallbacksLate
      rw [List.map_append, List.filterMap_append, List.filterMap_append]
      exact fallbacks.append fallbacksLate
  assigns node key := by rw [late.assigns, early.assigns, List.mem_append, or_assoc]
  versions note mem := (List.mem_append.1 mem).elim (early.versions note) (late.versions note)
  unbinds key mem := by
    rw [List.filterMap_append] at mem
    rcases List.mem_append.1 mem with first | second
    · obtain ⟨free, previous, known⟩ := early.unbinds key first
      exact ⟨free, previous, late.appends.extends _ _ known⟩
    · obtain ⟨free, known⟩ := late.unbinds key second
      exact ⟨fun old => free (early.appends.extends.mem old), known⟩
  distinct := by
    rw [List.filterMap_append]
    refine List.nodup_append.2 ⟨early.distinct, late.distinct, ?_⟩
    rintro key first _ second rfl
    obtain ⟨-, previous, known⟩ := early.unbinds key first
    exact (late.unbinds key second).1 (Traces.mem_of_origin? known)

/-- What happens in front needs no note. -/
theorem after_quiet (early : before.Annotates [] middle) (late : middle.Annotates notes after) :
    before.Annotates notes after :=
  early.trans late

/-- What happens behind needs no note. -/
theorem quiet_after (early : before.Annotates notes middle) (late : middle.Annotates [] after) :
    before.Annotates notes after :=
  List.append_nil notes ▸ early.trans late

/-- The order of the notes does not matter. -/
theorem perm (annotates : before.Annotates notes after) (same : notes.Perm more) :
    before.Annotates more after where
  appends := annotates.appends
  reads := by
    obtain ⟨own, others, tallies, seen, fallbacks⟩ := annotates.reads
    exact ⟨own, others, tallies, seen.trans (same.filterMap _),
      fallbacks.trans ((same.filterMap _).filterMap _)⟩
  assigns node key := by rw [annotates.assigns, same.mem_iff]
  versions note mem := annotates.versions note (same.mem_iff.2 mem)
  unbinds key mem := annotates.unbinds key ((same.filterMap _).mem_iff.2 mem)
  distinct := (same.filterMap _).nodup_iff.1 annotates.distinct

end Analysis.Annotates

/-- What neither binds a variable nor counts a read needs no note, and enters no exit. -/
theorem annotates_quiet :
    Analysis.QuietHabit fun before after => after.exits = before.exits ∧
      before.Annotates [] after :=
  (Exits.habit.toQuietHabit.and (appends_habit.toQuietHabit.and onlyReads_quiet)).widen
    (fun told => ⟨told.1, .idle told.2.1 told.2.2⟩) fun early late =>
    ⟨late.1.trans early.1, early.2.trans late.2⟩

/-- The log behind a version that was recorded. -/
theorem Analysis.RecordedOnly.traces_eq {var : VarId} {origin : Origin} {version : Version}
    {before after : Analysis} (recorded : before.RecordedOnly var origin version after) :
    after.traces = before.traces.insert ⟨var, version⟩ (.ofOrigin origin) := by
  refine Std.ExtTreeMap.ext_getElem? fun key => ?_
  rw [Traces.getElem?_insert_trace]
  obtain ⟨held, number⟩ := key
  by_cases same : held = var
  · subst same
    simp [recorded.traces]
  · simp [(recorded.beside held same).traces, same]

namespace Site

variable (site : Site) (var : VarId)

/-- A look answers with the version that is current behind it, which is the one from before if there
was one. -/
theorem gives_currentVersion_active : Gives (currentVersion var) site fun version after =>
    after.scope.active[var]? = some version ∧ ∀ held, site.scope.active[var]? = some held →
      version = held := by
  unfold currentVersion Gives
  rw [ends_bind, ends_get]
  split
  · rename_i version found
    exact ⟨found, fun held same => Option.some.inj (found.symm.trans same)⟩
  · rename_i absent
    have entered (middle : Site) : Ends (setVersion var .entry >>= fun _ => pure Version.entry)
        middle (fun version after => after.scope.active[var]? = some version ∧ ∀ held,
          site.scope.active[var]? = some held → version = held) fun _ _ => True :=
        ⟨by simp [Scope.setVersion], fun held same => absurd (absent.symm.trans same) nofun⟩
    split
    · exact Gives.bind ((ends_reached _ _).gives.mono fun _ _ _ => trivial)
        fun _ middle _ => entered middle
    · exact entered site

/-- A read is counted at the current version. -/
theorem gives_read_logged :
    Gives (read var) site fun _ after => after.analysis.exits = site.analysis.exits ∧
    site.analysis.Appends after.analysis ∧ ∃ version,
      (∀ held, site.scope.active[var]? = some held → version = held) ∧
      site.analysis.traces.OnlyReads after.analysis.traces [⟨var, version⟩] := by
  have counted : Gives (read var) site fun _ after => ∃ version,
      (∀ held, site.scope.active[var]? = some held → version = held) ∧
      site.analysis.traces.OnlyReads after.analysis.traces [⟨var, version⟩] := by
    have looks : Gives (currentKey var) site fun key middle => ∃ version, key = ⟨var, version⟩ ∧
        (∀ held, site.scope.active[var]? = some held → version = held) ∧
          site.analysis.traces.OnlyReads middle.analysis.traces [] := by
      refine ((gives_currentVersion_active site var).and
        (onlyReads_quiet.currentVersion var site).gives).bind ?_
      exact fun version middle told => .pure ⟨version, rfl, told.1.2, told.2⟩
    refine looks.bind ?_
    rintro _ middle ⟨version, rfl, current, looked⟩
    exact ends_liftTracesSite.2
      (Traces.gives_noteRead_onlyReads.mono fun _ _ only => ⟨version, current, looked.trans only⟩)
  exact (Exits.habit.read var site).gives.and ((appends_habit.read var site).gives.and counted)

/-- A write records the version that is current behind it. -/
theorem gives_write_records (origin : Version → Origin) :
    Gives (write var origin) site fun answer after =>
    after.scope.active[var]? = some answer.2 ∧ ⟨var, answer.2⟩ ∉ site.analysis.traces ∧
      after.analysis.traces.origin? ⟨var, answer.2⟩ = some (origin answer.1) ∧
        site.analysis.traces.Tallies after.analysis.traces [] ∧
      ∀ node key, after.analysis.traces.Assigns node key ↔ site.analysis.traces.Assigns node key ∨
        key = ⟨var, answer.2⟩ ∧ (origin answer.1).assignedBy? = some node := by
  refine ((onlyReads_quiet.currentVersion var site).gives.and
    (appends_habit.currentVersion var site).gives).bind ?_
  rintro previous looked ⟨only, appends⟩
  have records : Gives (liftM (Analysis.recordNext var (origin previous)) : SiteM Version) looked
      fun version after =>
      looked.analysis.RecordedOnly var (origin previous) version after.analysis :=
    ends_liftAnalysis.2 (Analysis.gives_recordNext looked.analysis var (origin previous))
  refine records.bind ?_
  rintro version after recorded
  have free : (⟨var, version⟩ : TraceKey) ∉ looked.analysis.traces :=
    Traces.not_mem_of_find recorded.free
  have same := recorded.traces_eq
  refine ⟨by simp [Scope.setVersion], fun old => free (appends.extends.mem old), ?_, ?_,
    fun node key => ?_⟩
  · change Traces.origin? after.analysis.traces ⟨var, version⟩ = some (origin previous)
    rw [same, Traces.origin?_insert, if_pos rfl]
    rfl
  · change site.analysis.traces.Tallies after.analysis.traces []
    rw [same]
    exact only.tallies.trans (Traces.tallies_record free _)
  · change after.analysis.traces.Assigns node key ↔ _
    rw [same, Traces.assigns_record free, only.assigns]

/-- An assignment is noted with the version that it has made. -/
theorem gives_assign_logged (node : NodeId) : Gives (assign var node) site fun version after =>
    after.analysis.exits = site.analysis.exits ∧
      site.analysis.Annotates [(node, var, some true, some version)] after.analysis := by
  have bound : Gives (assign var node) site fun version after =>
      site.analysis.traces.Tallies after.analysis.traces [] ∧
      ∀ other key, after.analysis.traces.Assigns other key ↔
        site.analysis.traces.Assigns other key ∨ key = ⟨var, version⟩ ∧ other = node := by
    refine (gives_write_records site var (.assigned node)).bind ?_
    rintro ⟨previous, version⟩ after ⟨-, -, -, tallies, assigns⟩
    refine .pure ⟨tallies, fun other key => ?_⟩
    rw [assigns]
    simp [Origin.assignedBy?, eq_comm]
  refine ((Exits.habit.assign var node site).gives.and
    ((appends_habit.assign var node site).gives.and bound)).mono ?_
  rintro version after ⟨same, appends, tallies, assigns⟩
  exact ⟨same, .assign appends tallies assigns⟩

/-- A delete may be noted with the version that is current behind it. -/
theorem gives_delete_logged : Gives (delete var) site fun _ after =>
    (after.analysis.exits = site.analysis.exits ∧ site.analysis.Annotates [] after.analysis) ∧
      ∃ version, after.scope.active[var]? = some version ∧ ∀ id,
        site.analysis.Annotates [(id, var, some false, some version)] after.analysis := by
  have unbound : Gives (delete var) site fun _ after => ∃ version previous,
      after.scope.active[var]? = some version ∧
      ⟨var, version⟩ ∉ site.analysis.traces ∧ after.analysis.traces.origin? ⟨var, version⟩ = some
        (.unbound (some previous)) := by
    refine (gives_write_records site var fun previous => .unbound (some previous)).bind ?_
    rintro ⟨previous, version⟩ after ⟨active, free, known, -, -⟩
    exact .pure ⟨version, previous, active, free, known⟩
  refine ((annotates_quiet.delete var site).gives.and unbound).mono ?_
  rintro _ after ⟨told, version, previous, active, free, known⟩
  exact ⟨told, version, active, fun id => .delete id told.2 free known⟩

end Site

end ValueFlow
