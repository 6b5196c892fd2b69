import ValueFlow.Passes
import ValueFlow.Proofs.Renewal.Walk
import ValueFlow.Proofs.Silence.Passes

/-!
# Passes that start anew and passes that go on

A pass that goes on in the scope and in the state of the one before has seen things that a pass with
a new state has not. What is left of them is in the top scope only: the registries are closed again,
the log and the counters are asked for nothing but what the scope holds, and the notices start anew.
Of the scope a walk only asks whether a tolerant delete is sure to find its variable unbound. So the
two decide alike as long as the variables of tolerant deletes stand in the top scope as they do on
entry (`passes_agree`). They need not: a live tolerant delete is the last to write its variable in
one pass, and is taken for idle in the next.
-/

namespace ValueFlow
set_option autoImplicit false

/-- Nothing is known of a variable here but what is known of it on entry, and if it is sure to be
unbound there, no code elsewhere may rebind it. -/
def Site.StandsAsOnEntry (site : Site) (var : VarId) : Prop :=
  ∀ version ∈ site.scope.active[var]?, ∃ slot ∈ site.analysis.vars.get? var,
    site.analysis.traces.isSurelyUnbound ⟨var, version⟩ = .ok (Traces.leavesUnbound (Analysis.entryOrigin slot.storage)) ∧
    (Traces.leavesUnbound (Analysis.entryOrigin slot.storage) = true → slot.mayBeRebound site.analysis.options = false)

instance (site : Site) (var : VarId) : Decidable (site.StandsAsOnEntry var) := by
  unfold Site.StandsAsOnEntry
  infer_instance

/-- A tolerant delete of the variable lies below the statement. -/
def Arena.Tolerates (arena : Arena) (root : NodeId) (var : VarId) : Prop :=
  ∃ id version, arena.Below root id ∧ arena.stmt? id = some (.delete var true version)

/-- The passes answered the same and gave the same notices, and left the same arena but for
versions. -/
structure PassReport.Alike (first second : PassReport) : Prop where
  answer : second.answer = first.answer
  notices : second.notices = first.notices
  arena : first.after.arena.bare = second.after.arena.bare

/-- The body that another pass has to walk, unless the notices of this one are enough. -/
def PassReport.nextUnless (enough : Array Notice → Bool) (report : PassReport) : Option NodeId :=
  match report.answer with
  | .ok node => if enough report.notices then none else node
  | .error _ => none

/-- Runs passes until there is nothing left to walk or the notices of a pass are enough, but no more
than `limit`. -/
def runPassesUntil (enough : Array Notice → Bool) (kind : BodyKind) (renewal : Renewal) (limit : Nat) (walk : Walk) (body : NodeId) :
    List PassReport :=
  match limit with
  | 0 => []
  | limit + 1 =>
    let report := runPass kind (walk.renew kind renewal) body
    match report.nextUnless enough with
    | some body => report :: runPassesUntil enough kind renewal limit report.after body
    | none => [report]

/-- Passes are run until one gives no notice. -/
theorem runPassesUntil_isEmpty (kind : BodyKind) (renewal : Renewal) (limit : Nat) (walk : Walk)
    (body : NodeId) :
    runPassesUntil Array.isEmpty kind renewal limit walk body =
      runPasses kind renewal limit walk body := by
  induction limit generalizing walk body with
  | zero => rfl
  | succ limit ih =>
    unfold runPassesUntil runPasses
    simp only [ih]
    rfl

section Rows

variable {enough : Array Notice → Bool} {kind : BodyKind} {renewal : Renewal} {limit : Nat}
  {walk : Walk} {body next : NodeId}

theorem PassReport.Alike.nextUnless {first second : PassReport} (alike : first.Alike second)
    (enough : Array Notice → Bool) :
    second.nextUnless enough = first.nextUnless enough := by
  unfold PassReport.nextUnless
  rw [alike.answer, alike.notices]

theorem PassReport.answer_of_nextUnless {report : PassReport}
    (goes : report.nextUnless enough = some next) : report.answer = .ok (some next) := by
  unfold PassReport.nextUnless at goes
  split at goes
  · rename_i node answer
    split at goes
    · cases goes
    · rw [answer, goes]
  · cases goes

theorem runPassesUntil_last
    (last : (runPass kind (walk.renew kind renewal) body).nextUnless enough = none) :
    runPassesUntil enough kind renewal (limit + 1) walk body =
      [runPass kind (walk.renew kind renewal) body] := by
  rw [runPassesUntil, last]

theorem runPassesUntil_next
    (goes : (runPass kind (walk.renew kind renewal) body).nextUnless enough = some next) :
    runPassesUntil enough kind renewal (limit + 1) walk body =
      runPass kind (walk.renew kind renewal) body ::
        runPassesUntil enough kind renewal limit
          (runPass kind (walk.renew kind renewal) body).after next := by
  rw [runPassesUntil, goes]

theorem runPassesUntil_ne_nil : runPassesUntil enough kind renewal (limit + 1) walk body ≠ [] := by
  cases goes : (runPass kind (walk.renew kind renewal) body).nextUnless enough with
  | none => simp [runPassesUntil_last goes]
  | some next => simp [runPassesUntil_next goes]

end Rows

namespace Track

variable {track : Track} {kind : BodyKind} {left right : Walk} {body : NodeId}

/-- Behind settled walks one may start anew and the other go on, if the latter knows no more than
what is known on entry. -/
theorem Settled.beside (settled : track.Settled left right) (kind : BodyKind)
    (stands : ∀ var, track.clears var → right.toSite.StandsAsOnEntry var) :
    track.Beside track.ofWalk .outermost (left.renew kind .fresh) (right.renew kind .reused) := by
  have sketch : (left.renew kind .fresh).sketch =
      ⟨track.slots, track.options, fun _ => none, fun _ => none⟩ := by
    rw [← settled.slots, ← settled.options]
    exact Site.sketch_forBody kind left.analysis.vars left.analysis.options
  have level : track.Level (fun _ => none) right.sketch.scope := by
    intro var clears
    cases active : right.scope.active[var]? with
    | none => exact .inl (by simp [Site.sketch, Scope.outline, active])
    | some version =>
      obtain ⟨slot, found, told, firm⟩ := stands var clears version active
      have known : right.sketch.scope var =
          some (Traces.leavesUnbound (Analysis.entryOrigin slot.storage)) := by
        simp [Site.sketch, Scope.outline, active, Traces.unboundAt, told]
      have slots : track.slots var = some { slot with lastVersion := .entry } := by
        rw [← settled.slotsRight, Variables.slots, found]
        rfl
      refine .inr ⟨rfl, ?_, fun sure => ?_⟩
      · rw [known, Track.entry, slots]
        rfl
      · rw [Track.rebinds, slots, ← settled.optionsRight]
        exact firm (Option.some.inj (known.symm.trans sure))
  refine ⟨Site.sound_forBody kind _ _,
    ⟨settled.sound.analysis.unseen .empty _, settled.sound.scope⟩, rfl, ?_, settled.mirrors⟩
  change track.Matches .outermost (left.renew kind .fresh).sketch right.sketch
  rw [sketch]
  exact {
    slotsFirst := rfl
    slotsSecond := settled.slotsRight
    optionsFirst := rfl
    optionsSecond := settled.optionsRight
    scope := ⟨level, fun _ impossible => impossible.elim⟩
    openedFirst := fun _ => rfl
    openedSecond := fun kind => congrArg Option.isSome (settled.closed kind)
    breaks := fun _ mem => absurd mem (Option.not_mem_none _) }

/-- One pass from states beside one another. -/
theorem Beside.runPass (beside : track.Beside track.ofWalk .outermost left right)
    (kind : BodyKind) (mem : track.stmts body) :
    (runPass kind left body).Alike (runPass kind right body) ∧ ∀ next,
      (ValueFlow.runPass kind left body).answer = .ok (some next) →
      track.stmts next ∧ track.Settled (ValueFlow.runPass kind left body).after
        (ValueFlow.runPass kind right body).after := by
  have abreast := abreast_walkBody kind mem beside
  unfold Abreast Ends at abreast
  unfold ValueFlow.runPass
  cases walked : Walk.walkBody kind body left with
  | ok answer leftAfter =>
    rw [walked] at abreast
    cases walkedRight : Walk.walkBody kind body right with
    | ok other rightAfter =>
      rw [walkedRight] at abreast
      obtain ⟨⟨rfl, fits⟩, settled⟩ := abreast
      refine ⟨⟨rfl, congrArg EditLog.notices settled.edits, settled.mirrors.bare⟩, ?_⟩
      rintro next same
      exact ⟨fits next (by simpa using same), settled⟩
    | error fault rightAfter =>
      rw [walkedRight] at abreast
      exact abreast.elim
  | error fault leftAfter =>
    rw [walked] at abreast
    cases walkedRight : Walk.walkBody kind body right with
    | ok other rightAfter =>
      rw [walkedRight] at abreast
      exact abreast.elim
    | error other rightAfter =>
      rw [walkedRight] at abreast
      obtain ⟨rfl, edits, mirrors⟩ := abreast
      exact ⟨⟨rfl, congrArg EditLog.notices edits, mirrors.bare⟩, nofun⟩

/-- Two rows of passes from settled walks, one that starts anew each time and one that goes on. -/
theorem Settled.passes {enough : Array Notice → Bool} {limit : Nat}
    (settled : track.Settled left right) (mem : track.stmts body)
    (here : ∀ var, track.clears var → right.toSite.StandsAsOnEntry var)
    (stands : ∀ report ∈ (runPassesUntil enough kind .reused limit right body).dropLast, ∀ var,
      track.clears var → report.after.toSite.StandsAsOnEntry var) :
    List.Forall₂ PassReport.Alike (runPassesUntil enough kind .fresh limit left body)
      (runPassesUntil enough kind .reused limit right body) := by
  induction limit generalizing left right body with
  | zero => exact .nil
  | succ limit ih =>
    obtain ⟨alike, onward⟩ := (settled.beside kind here).runPass kind mem
    have same := alike.nextUnless enough
    cases goes : (runPass kind (left.renew kind .fresh) body).nextUnless enough with
    | none =>
      rw [runPassesUntil_last goes, runPassesUntil_last (same.trans goes)]
      exact .cons alike .nil
    | some next =>
      obtain ⟨memNext, settledNext⟩ := onward next (PassReport.answer_of_nextUnless goes)
      rw [runPassesUntil_next (same.trans goes)] at stands
      rw [runPassesUntil_next goes, runPassesUntil_next (same.trans goes)]
      refine .cons alike ?_
      cases limit with
      | zero => exact .nil
      | succ limit =>
        rw [List.dropLast_cons_of_ne_nil runPassesUntil_ne_nil] at stands
        exact ih settledNext memNext (stands _ List.mem_cons_self) fun report later =>
          stands report (List.mem_cons_of_mem _ later)

end Track

namespace Arena

variable (arena : Arena) (body : NodeId) (vars : Variables) (options : Options)

/-- The track of the passes over a body: what lies below it, and what is added later. -/
def track : Track where
  slots := vars.slots
  options := options
  stmts := (arena.regionBelow body).stmts
  clears := arena.Tolerates body

theorem guards_track : (arena.track body vars options).Guards arena where
  encloses := {
    beyond := fun id past => ⟨.inr past, trivial⟩
    stmt := fun id stmt mem found =>
      ⟨((arena.regionBelow_encloses body).stmt id stmt mem found).children, fun _ _ => trivial,
        fun _ _ => trivial⟩
    expr := fun _ _ _ _ => ⟨fun _ _ => trivial, fun _ => trivial⟩ }
  clears id stmt mem found var named := by
    rcases mem with below | past
    · cases stmt with
      | delete target tolerant version =>
        cases tolerant with
        | true => exact ⟨id, version, below, by rw [found, Option.some.inj named]⟩
        | false => cases named
      | _ => cases named
    · exact absurd (lt_size_of_stmt? found) (Nat.not_lt_of_le past)

end Arena

namespace Walk

/-- Rows of passes over a body, one that starts each pass with a new state and one that goes on in
the state of the pass before, report the same answers, faults among them, and the same notices, and
leave the same arenas but for versions, if at the end of every pass but the last of the latter the
variables of tolerant deletes stand in the top scope as they do on entry. -/
theorem passes_agree (enough : Array Notice → Bool) (kind : BodyKind) (limit : Nat) (vars : Variables) (options : Options) (arena : Arena)
    (body : NodeId)
    (stands : ∀ report ∈ (runPassesUntil enough kind .reused limit ⟨.forBody kind vars options, arena⟩ body).dropLast,
      ∀ var, arena.Tolerates body var → report.after.toSite.StandsAsOnEntry var) :
    List.Forall₂ PassReport.Alike (runPassesUntil enough kind .fresh limit ⟨.forBody kind vars options, arena⟩ body)
      (runPassesUntil enough kind .reused limit ⟨.forBody kind vars options, arena⟩ body) := by
  have settled : (arena.track body vars options).Settled ⟨.forBody kind vars options, arena⟩ ⟨.forBody kind vars options, arena⟩ := {
    sound := Site.sound_forBody kind vars options
    edits := rfl
    mirrors := ⟨rfl, arena.guards_track body vars options⟩
    slots := rfl
    slotsRight := rfl
    options := rfl
    optionsRight := rfl
    closed := congrFun (congrArg Sketch.exits (Site.sketch_forBody kind vars options)) }
  refine settled.passes (.inl .root) (fun var _ version active => ?_) stands
  cases active.symm.trans Std.ExtTreeMap.getElem?_empty

/-- Two parameters. -/
def deleteVars : Variables := ⟨#[⟨"x", .parameter, false, .entry⟩, ⟨"c", .parameter, false, .entry⟩]⟩

/-- A delete on one way: `1; if c { del? x }`. -/
def armDelete : Arena :=
  ⟨#[⟨.expr (.literal (.int 1)), ⟨0, 1⟩⟩, ⟨.stmt (.effect 0), ⟨1, 2⟩⟩, ⟨.expr (.read 1 none), ⟨2, 3⟩⟩, ⟨.stmt (.delete 0 true none), ⟨3, 4⟩⟩,
    ⟨.stmt (.branch 2 (some 3) none), ⟨4, 5⟩⟩, ⟨.stmt (.block [1, 4]), ⟨5, 6⟩⟩]⟩

/-- The variable is not sure to be unbound behind the conditional, as it is not on entry. -/
theorem armDelete_agrees :
    (∀ report ∈ (runPassesUntil Array.isEmpty .functionBody .reused 2 ⟨.forBody .functionBody deleteVars {}, armDelete⟩ 5).dropLast,
      ∀ var, armDelete.Tolerates 5 var → report.after.toSite.StandsAsOnEntry var) ∧
    (runPassesUntil Array.isEmpty .functionBody .reused 2 ⟨.forBody .functionBody deleteVars {}, armDelete⟩ 5).length = 2 ∧
    List.Forall₂ PassReport.Alike (runPassesUntil Array.isEmpty .functionBody .fresh 2 ⟨.forBody .functionBody deleteVars {}, armDelete⟩ 5)
      (runPassesUntil Array.isEmpty .functionBody .reused 2 ⟨.forBody .functionBody deleteVars {}, armDelete⟩ 5) := by
  have only {var : VarId} (tolerates : armDelete.Tolerates 5 var) : var = 0 := by
    obtain ⟨id, version, -, found⟩ := tolerates
    have low : id < 6 := Arena.lt_size_of_stmt? found
    have named : var ∈ (armDelete.stmt? id).bind Stmt.tolerated? := by rw [found]; rfl
    have zero : ∀ id < 6, ∀ var ∈ (armDelete.stmt? id).bind Stmt.tolerated?, var = 0 := by decide
    exact zero id low var named
  have stands : ∀ report ∈ (runPassesUntil Array.isEmpty .functionBody .reused 2 ⟨.forBody .functionBody deleteVars {}, armDelete⟩ 5).dropLast,
      report.after.toSite.StandsAsOnEntry 0 := by decide +kernel
  have held := fun report mem var (tolerates : armDelete.Tolerates 5 var) => only tolerates ▸ stands report mem
  exact ⟨held, by decide +kernel, passes_agree _ _ _ _ _ _ _ held⟩

/-- A delete on the only way: `del? x; 1`. -/
def liveDelete : Arena :=
  ⟨#[⟨.stmt (.delete 0 true none), ⟨0, 1⟩⟩, ⟨.expr (.literal (.int 1)), ⟨1, 2⟩⟩, ⟨.stmt (.effect 1), ⟨2, 3⟩⟩, ⟨.stmt (.block [0, 2]), ⟨3, 4⟩⟩]⟩

/-- The tree of the body. -/
def liveDeleteCode : Code := .block 3 (.cons (.delete 0 0 true none) (.cons (.effect 2 (.literal 1 (.int 1))) .nil))

/-- The first pass takes out the literal and gives notice of it. A second pass that starts anew
leaves the delete where it is. One that goes on finds `x` deleted, by the delete itself, and takes
it out, and the body with it. -/
theorem liveDelete_differs : liveDelete.IsTree 3 liveDeleteCode ∧
    (runPasses .functionBody .fresh 2 ⟨.forBody .functionBody deleteVars {}, liveDelete⟩ 3).map
        (fun report => (report.answer, report.notices.size)) = [(.ok (some 3), 1), (.ok (some 3), 0)] ∧
    (runPasses .functionBody .reused 2 ⟨.forBody .functionBody deleteVars {}, liveDelete⟩ 3).map
        (fun report => (report.answer, report.notices.size)) = [(.ok (some 3), 1), (.ok none, 2)] :=
  ⟨⟨.block rfl (.cons (.delete rfl) (.cons (.effect rfl (.literal rfl)) .nil)), by decide⟩, by decide +kernel, by decide +kernel⟩

end Walk

end ValueFlow
