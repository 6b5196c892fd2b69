import ValueFlow.Proofs.Account.Statement
import ValueFlow.Proofs.Reaching.Latest

/-!
# The ledger behind the walk of a body

The log that the walk of a body leaves and the notes that it has taken make a ledger which closes
the walk, so that the account of the body stands in it. On entry the versions fit, for every
variable is at its entry version, and in a store in which a body may be entered the entry versions
are truthful.
-/

namespace ValueFlow
set_option autoImplicit false

/-- The ledger of a log and of notes taken along the walk that has left it. -/
def Ledger.ofNotes (setting : Setting) (traces : Traces) (notes : List Note) : Ledger where
  toSetting := setting
  traces := traces
  labels id := ((notes.find? (·.node == id)).map (·.version)).getD .entry
  made node var := ∃ note ∈ notes, note.binds.isSome ∧ note.node = node ∧ note.var = var

/-- The version at which every variable stands on entry. -/
def Versions.entry : Versions := fun _ => .entry

/-- If no node was noted twice, the notes are what the ledger says. -/
theorem Ledger.closes_ofNotes (before : Analysis) {after : Analysis} {notes : List Note}
    (distinct : (notes.map (·.node)).Nodup)
    (counted : ∀ note ∈ notes, note.binds = none →
      after.traces.IsCounted ⟨note.var, note.version⟩) :
    (Ledger.ofNotes ⟨before.vars, before.options⟩ after.traces notes).Closes before
      after notes where
  vars := .refl _
  options := rfl
  traces := .refl _
  labels note mem := by
    have found : notes.find? (·.node == note.node) = some note := by
      induction notes with
      | nil => cases mem
      | cons head tail ih =>
        obtain ⟨fresh, nodup⟩ := List.nodup_cons.1 distinct
        rcases List.mem_cons.1 mem with rfl | later
        · simp
        · have apart : head.node ≠ note.node :=
            fun same => fresh (List.mem_map.2 ⟨note, later, same.symm⟩)
          simpa [apart] using ih nodup
            (fun note mem => counted note (List.mem_cons_of_mem _ mem)) later
    simp [ofNotes, found]
  made note mem made := ⟨note, mem, made, rfl, rfl⟩
  counted := counted

theorem Site.versionOf_forBody (kind : BodyKind) (vars : Variables) (options : Options) :
    (Site.forBody kind vars options).scope.versionOf = Versions.entry := by
  funext var
  exact Scope.versionOf_of_not_mem Std.ExtTreeMap.not_mem_empty

section Entry

variable {vars newVars : Variables} {ledger : Ledger}

/-- An entry version stands for itself. -/
theorem Ledger.tells_entry (sound : ledger.traces.Sound newVars) (var : VarId) :
    ledger.Tells var (Versions.entry var) (Versions.entry var) := by
  exact ⟨.entry, sound.leaf_entry_iff.2 rfl, .inr rfl⟩

theorem Ledger.fits_entry (sound : ledger.traces.Sound newVars) : ledger.Fits .entry .entry :=
  fun var _ => tells_entry sound var

/-- Locals and temporaries alone are recorded to be unbound on entry. -/
theorem Traces.Sound.storage_of_unbound {traces : Traces} (sound : traces.Sound newVars)
    (advances : vars.Advances newVars) {var : VarId} {previous : Option Version}
    (unbound : traces.origin? ⟨var, .entry⟩ = some (.unbound previous)) :
    ∃ slot, vars.get? var = some slot ∧
      (slot.storage = .localSlot ∨ slot.storage = .temporary) := by
  obtain ⟨slot, found, -, known⟩ := sound.entry _ (Traces.mem_of_origin? unbound)
  obtain ⟨old, foundOld, -, same⟩ := advances.slot_back found
  have storage : slot.storage = old.storage := by rw [same]
  have origin : Analysis.entryOrigin old.storage = .unbound previous := by
    rw [← storage]
    exact Option.some.inj (known.symm.trans unbound)
  refine ⟨old, foundOld, ?_⟩
  revert origin
  cases old.storage with
  | localSlot => exact fun _ => .inl rfl
  | temporary => exact fun _ => .inr rfl
  | _ => nofun

/-- What is recorded of an entry version is true of the stores in which a body may be entered. -/
theorem Ledger.truthful_entry (sound : ledger.traces.Sound newVars)
    (advances : ledger.vars.Advances newVars) {store : Store}
    (onEntry : ledger.vars.OnEntry store) : ledger.Truthful .entry store := by
  intro var previous isPrivate unbound
  obtain ⟨slot, found, storage⟩ := sound.storage_of_unbound advances unbound
  exact (onEntry var slot found isPrivate).2 storage

end Entry

namespace Walk

variable {arena : Arena} {body : NodeId} {code : Code} {left : Option NodeId} {after : Walk}

/-- What stands behind a good end of the walk of a body, in the ledger of its log and its notes. -/
theorem bodyRewrote_of_walkBody (kind : BodyKind) (vars : Variables) (options : Options)
    (tree : arena.IsTree body code)
    (walked : walkBody kind body ⟨.forBody kind vars options, arena⟩ = .ok left after) :
    ∃ newCode notes, BodyRewrote ⟨.forBody kind vars options, arena⟩ code after left
      newCode notes :=
  (gives_walkBody kind (Site.sound_forBody kind vars options) tree.shows_ tree.nodup).of_ok walked

/-- The account of a body starts at the entry versions. -/
theorem BodyRewrote.account {kind : BodyKind} {vars : Variables} {options : Options}
    {newCode : Code} {notes : List Note}
    (rewrote : BodyRewrote ⟨.forBody kind vars options, arena⟩ code after left newCode notes) :
    ∃ last breaks, (Ledger.ofNotes ⟨vars, options⟩ after.analysis.traces notes).Walks code .entry
      newCode last breaks := by
  obtain ⟨last, breaks, walks⟩ := rewrote.walks
  have account :=
    walks _ (Ledger.closes_ofNotes (.fresh vars options) rewrote.distinct rewrote.counted)
  exact ⟨last, breaks, Site.versionOf_forBody kind vars options ▸ account⟩

end Walk

end ValueFlow
