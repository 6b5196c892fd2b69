import ValueFlow.Proofs.Preservation.Body

/-!
# What a read sees after a pass

Behind a pass over a body, the version noted at a read that is left stands for the last write of its
variable, in whatever way a run of the original body came to the read and in whatever round of a
loop: among the leaves of the version is the one made at that write, or an unknown one
(`reads_tell_last_writes`). The versions made at writes are those of the notes taken along the walk
(`Traces.HoldsNotes`).
-/

namespace ValueFlow
set_option autoImplicit false

/-- The notes that a pass has taken of a body: each node is noted once, the writes in the order in
which they stand, with versions that rise. What is noted of a write is recorded, and what is left of
the body bears the versions that are noted. -/
structure Traces.HoldsNotes (traces : Traces) (code newCode : Code) (notes : List Note) : Prop where
  distinct : (notes.map (·.node)).Nodup
  ordered : (notes.filterMap Note.write?).Sublist code.writes
  rising : notes.Pairwise Note.Rises
  recorded : ∀ note ∈ notes, ∀ binds ∈ note.binds,
    ∃ previous, traces.origin? ⟨note.var, note.version⟩ = some (Note.origin note.node binds previous)
  left : ∀ setting, ∀ entry ∈ newCode.notes, entry.2.2.2 = some ((Ledger.ofNotes setting traces notes).labels entry.1)

namespace Walk

variable {arena : Arena} {body : NodeId} {code : Code} {left : Option NodeId} {after : Walk}

theorem BodyRewrote.holdsNotes {kind : BodyKind} {vars : Variables} {options : Options}
    {newCode : Code} {notes : List Note}
    (rewrote : BodyRewrote ⟨.forBody kind vars options, arena⟩ code after left newCode notes) :
    after.analysis.traces.HoldsNotes code newCode notes := by
  obtain ⟨last, breaks, account⟩ := rewrote.account
  exact ⟨rewrote.distinct, rewrote.ordered, rewrote.rising, rewrote.recorded,
    fun _ entry mem => (account.notes entry mem).1⟩

/-- In every run of a body, the version noted at a read of a private variable may stand for the
version made at the last write before it, or for an unknown one. Before the first write that is the
entry version. -/
theorem reads_tell_last_writes (kind : BodyKind) (vars : Variables) (options : Options) (tree : arena.IsTree body code)
    (walked : walkBody kind body ⟨.forBody kind vars options, arena⟩ = .ok left after) :
    ∃ newCode notes, after.arena.Shows (.maybe .stmt left) newCode ∧ after.analysis.traces.HoldsNotes code newCode notes ∧
      ∀ (world : World ⟨vars, options⟩) (store : Store) (log : List Event) (ending : Ending) (storeAfter : Store),
        code.runs world store log ending storeAfter →
          (∀ node var, .write node var ∈ log → ∃ note ∈ notes, note.binds.isSome ∧ note.node = node ∧ note.var = var) ∧
          ∀ early late node var version, log = early ++ .read node var :: late → vars.IsPrivate var →
            (node, var, none, some version) ∈ newCode.notes →
              let ledger := Ledger.ofNotes ⟨vars, options⟩ after.analysis.traces notes
              ledger.Tells var version (ledger.latest .entry early var) := by
  obtain ⟨newCode, notes, rewrote⟩ := bodyRewrote_of_walkBody kind vars options tree walked
  obtain ⟨last, breaks, account⟩ := rewrote.account
  refine ⟨newCode, notes, rewrote.shows_, rewrote.holdsNotes, fun world store log ending storeAfter run => ?_⟩
  have follows := (account.followsLastWrites world).follows (Ledger.fits_entry rewrote.sound.analysis.traces) run
  refine ⟨follows.writes, ?_⟩
  rintro early late node var version rfl isPrivate mem
  have noted : version = (Ledger.ofNotes ⟨vars, options⟩ after.analysis.traces notes).labels node :=
    Option.some.inj (account.notes _ mem).1
  subst noted
  exact follows.sees.read isPrivate

/-- A loop around a parameter: `loop { x; x = 1 }`. -/
def roundBody : Arena :=
  ⟨#[⟨.expr (.read 0 none), ⟨0, 1⟩⟩, ⟨.stmt (.effect 0), ⟨1, 2⟩⟩, ⟨.expr (.literal (.int 1)), ⟨2, 3⟩⟩,
    ⟨.stmt (.assign 0 2 none), ⟨3, 4⟩⟩, ⟨.stmt (.block [1, 3]), ⟨4, 5⟩⟩, ⟨.stmt (.loop (some 4)), ⟨5, 6⟩⟩]⟩

/-- The parameter. -/
def roundVars : Variables := ⟨#[⟨"x", .parameter, false, .entry⟩]⟩

/-- The tree of the loop. -/
def roundCode : Code :=
  .loop 5 (.block 4 (.cons (.effect 1 (.read 0 0 none)) (.cons (.assign 3 0 (.literal 2 (.int 1)) none) .nil)))

theorem roundBody_isTree : roundBody.IsTree 5 roundCode where
  shows_ := .loop rfl
    (.present (.block rfl
        (.cons (.effect rfl (.read rfl)) (.cons (.assign rfl (.literal rfl)) .nil))))
  nodup := by decide

theorem isPrivate_roundVars : roundVars.IsPrivate 0 := by
  intro slot found
  obtain rfl : slot = ⟨"x", .parameter, false, .entry⟩ := by
    simpa [roundVars, Variables.get?] using found.symm
  exact ⟨rfl, rfl⟩

/-- The read of the parameter in the loop sees an unknown version, whichever round it is. -/
theorem roundBody_reads : ∃ left after, walkBody .functionBody 5 ⟨.forBody .functionBody roundVars {}, roundBody⟩ = .ok left after ∧
    after.arena.expr? 0 = some (.read 0 (some 1)) ∧ after.analysis.traces.origin? ⟨0, 1⟩ = some (.unknown (some .entry)) ∧
    ∃ newCode notes, after.arena.Shows (.maybe .stmt left) newCode ∧ after.analysis.traces.HoldsNotes roundCode newCode notes ∧
      ∀ (world : World ⟨roundVars, {}⟩) (store : Store) (log : List Event) (ending : Ending) (storeAfter : Store),
        roundCode.runs world store log ending storeAfter →
          (∀ node var, .write node var ∈ log → ∃ note ∈ notes, note.binds.isSome ∧ note.node = node ∧ note.var = var) ∧
          ∀ early late node var version, log = early ++ .read node var :: late → roundVars.IsPrivate var →
            (node, var, none, some version) ∈ newCode.notes →
              let ledger := Ledger.ofNotes ⟨roundVars, {}⟩ after.analysis.traces notes
              ledger.Tells var version (ledger.latest .entry early var) := by
  have ends : endsWith (walkBody .functionBody 5) ⟨.forBody .functionBody roundVars {}, roundBody⟩ (fun _ after =>
      after.arena.expr? 0 == some (.read 0 (some 1)) &&
        after.analysis.traces.origin? ⟨0, 1⟩ == some (.unknown (some .entry))) = true := by
    decide +kernel
  obtain ⟨left, after, walked, told⟩ := exists_of_endsWith ends
  simp only [Bool.and_eq_true, beq_iff_eq] at told
  exact ⟨left, after, walked, told.1, told.2, reads_tell_last_writes .functionBody roundVars {} roundBody_isTree walked⟩

end Walk

end ValueFlow
