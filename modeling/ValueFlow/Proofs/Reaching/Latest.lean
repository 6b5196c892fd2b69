import ValueFlow.Proofs.Reaching.Guides

/-!
# The last write

Along a run each variable has a last write, and the ledger has the version that the walk made at it.
A version tells of the last write if it may stand for the version made there, or for an unknown one.
Versions fit a moment of a run if they tell of the last write of every private variable. That makes
a guide (`Ledger.lastWrites`): at the head of a loop nothing is known of the targets of the body,
and a round writes no others.

What is known of a version is true of the store in one respect, which is all that is needed of it:
where the last write is recorded to leave the variable unbound, it is unbound (`Ledger.Truthful`).
-/

namespace ValueFlow
set_option autoImplicit false

namespace Ledger

variable (ledger : Ledger)

/-- The version may stand for the one made at the last write, or for an unknown one. -/
def Tells (var : VarId) (version last : Version) : Prop :=
  ∃ leaf, ledger.traces.Leaf var version leaf ∧ (ledger.traces.IsUnknown var leaf ∨ leaf = last)

/-- The versions tell of the last write of each private variable. -/
def Fits (here last : Versions) : Prop := ∀ var, ledger.vars.IsPrivate var → ledger.Tells var (here var) (last var)

/-- A private variable that its last write is recorded to leave unbound is unbound. -/
def Truthful (last : Versions) (store : Store) : Prop :=
  ∀ var previous, ledger.vars.IsPrivate var → ledger.traces.origin? ⟨var, last var⟩ = some (.unbound previous) →
    store var = false

/-- A write moves the last write of its variable to the version made there. -/
def lastWrite (last : Versions) : Event → Versions
  | .write node var => last.set var (ledger.labels node)
  | _ => last

/-- Runs are followed with the versions made at the last writes. -/
def lastWrites : Guide Versions where
  step := ledger.lastWrite
  fits := ledger.Fits
  keeps := ledger.Truthful
  sees last node var := ledger.vars.IsPrivate var → ledger.Tells var (ledger.labels node) (last var)
  covers _ _ := True

/-- The version made at the last write of each variable, if these are the versions before the
log. -/
def latest (last : Versions) (log : List Event) : Versions := ledger.lastWrites.run last log

variable {ledger} {last here point path : Versions} {store : Store} {log early late : List Event}
  {var : VarId}

/-- A variable that the log does not write keeps its last write. -/
theorem latest_of_not_written (unwritten : ∀ node, .write node var ∉ log) :
    ledger.latest last log var = last var := by
  induction log generalizing last with
  | nil => rfl
  | cons event rest ih =>
    have onward := fun node mem => unwritten node (List.mem_cons_of_mem _ mem)
    cases event with
    | read | call | turn => exact ih onward
    | write node other =>
      have apart : var ≠ other := by
        rintro rfl
        exact unwritten node List.mem_cons_self
      change ledger.latest (last.set other _) rest var = _
      rw [ih onward, Versions.set, if_neg apart]

theorem Tells.of_unknown {version : Version} (unknown : ledger.traces.IsUnknown var version)
    (last : Version) :
    ledger.Tells var version last :=
  ⟨version, unknown.self_leaf, .inl unknown⟩

theorem Tells.meets {last : Version} (tells : ledger.Tells var (path var) last)
    (meets : ledger.traces.Meets path point) :
    ledger.Tells var (point var) last := by
  obtain ⟨leaf, below, told⟩ := tells
  rcases meets var with same | ⟨sources, joined, mem⟩
  · exact ⟨leaf, same ▸ below, told⟩
  · exact ⟨leaf, .through joined mem below, told⟩

/-- What is moved by code elsewhere is unknown, so that it tells of any write. -/
theorem Tells.escapes {last : Version} (tells : ledger.Tells var (here var) last)
    (escapes : ledger.Escapes here point) :
    ledger.Tells var (point var) last := by
  rcases escapes var with same | ⟨-, unknown⟩
  · exact same ▸ tells
  · exact .of_unknown unknown last

/-- Behind a write the version made at it is the last one, and current. -/
theorem Tells.write {other : VarId} (tells : ledger.Tells var (here var) (last var))
    {version : Version} {origin : Origin}
    (recorded : ledger.traces.origin? ⟨other, version⟩ = some origin)
    (plain : ∀ sources, origin ≠ .joined sources) :
    ledger.Tells var (here.set other version var) (last.set other version var) := by
  unfold Versions.set
  by_cases same : var = other
  · subst same
    rw [if_pos rfl, if_pos rfl]
    exact ⟨version, .self_of_origin recorded plain, .inr rfl⟩
  · rw [if_neg same, if_neg same]
    exact tells

/-- At the head of a loop, a version that told of the last write before it tells of the last write
in all later rounds. -/
theorem Tells.forgets {body : Code} {before head : Versions} {lastBefore lastNow : Version}
    (tells : ledger.Tells var (before var) lastBefore) (forgets : ledger.Forgets body before head)
    (same : var ∉ body.targets → lastNow = lastBefore) :
    ledger.Tells var (head var) lastNow := by
  rcases forgets var with ⟨unknown, -⟩ | ⟨unwritten, kept⟩
  · exact .of_unknown unknown _
  · rw [kept, same unwritten]
    exact tells

theorem Fits.meets (fits : ledger.Fits path last) (meets : ledger.traces.Meets path point) :
    ledger.Fits point last :=
  fun var isPrivate => (fits var isPrivate).meets meets

theorem Fits.escapes (fits : ledger.Fits here last) (escapes : ledger.Escapes here point) :
    ledger.Fits point last :=
  fun var isPrivate => (fits var isPrivate).escapes escapes

theorem Fits.write (fits : ledger.Fits here last) {version : Version} {origin : Origin}
    (recorded : ledger.traces.origin? ⟨var, version⟩ = some origin)
    (plain : ∀ sources, origin ≠ .joined sources) :
    ledger.Fits (here.set var version) (last.set var version) :=
  fun other isPrivate => (fits other isPrivate).write recorded plain

/-- At the head of a loop, versions that fitted before it fit all later rounds. -/
theorem Fits.forgets {body : Code} {before head : Versions} {rounds : Versions}
    (fits : ledger.Fits before last) (forgets : ledger.Forgets body before head)
    (same : ∀ var ∉ body.targets, rounds var = last var) :
    ledger.Fits head rounds :=
  fun var isPrivate => (fits var isPrivate).forgets forgets (same var)

/-- The rounds of a loop leave the last writes of all variables but the targets of its body. -/
theorem Rounds.latest {id : NodeId} {body : Code} (rounds : Rounds id body log)
    (unwritten : var ∉ body.targets) :
    ledger.latest last log var = last var := by
  refine latest_of_not_written fun node mem => unwritten ?_
  obtain ⟨binds, written⟩ := rounds.writes node var mem
  exact Code.mem_targets_of_writes written

/-- A write keeps the store truthful if it leaves the variable unbound whenever that is recorded. -/
theorem Truthful.write (truthful : ledger.Truthful last store) {version : Version} {bound : Bool}
    (right : ∀ previous, ledger.traces.origin? ⟨var, version⟩ = some (.unbound previous) →
      bound = false) :
    ledger.Truthful (last.set var version) (store.set var bound) := by
  intro other previous isPrivate recorded
  unfold Store.set
  unfold Versions.set at recorded
  by_cases same : other = var
  · subst same
    rw [if_pos rfl] at recorded ⊢
    exact right previous recorded
  · rw [if_neg same] at recorded ⊢
    exact truthful other previous isPrivate recorded

theorem lastWrites_law (ledger : Ledger) : ledger.lastWrites.Law ledger := fun world => {
  meets := Fits.meets
  read seen fits := ⟨fun isPrivate => seen ▸ fits _ isPrivate, fits⟩
  call := Fits.escapes
  write recorded plain fits := fits.write recorded plain
  head _ forgets fits rounds := fits.forgets forgets fun _ unwritten => rounds.latest unwritten
  keepsRead := id
  keepsCall outcome truthful var previous isPrivate unbound := by
    rw [world.frame outcome var isPrivate]
    exact truthful var previous isPrivate unbound
  keepsWrite recorded right truthful := truthful.write fun previous unbound =>
    right previous (Option.some.inj (recorded.symm.trans unbound))
  keepsTurn := id }

/-- The account of a walk tells of the last writes along any run. -/
theorem Walks.followsLastWrites {code newCode : Code} {before after : Versions}
    {breaks : List Versions} (walks : ledger.Walks code before newCode after breaks)
    (world : World ledger.toSetting) :
    ledger.Guides ledger.lastWrites (code.runs world) before
      (newCode.aborts = false) after breaks :=
  walks.guides ledger.lastWrites_law (fun _ _ => trivial) world

end Ledger

end ValueFlow
