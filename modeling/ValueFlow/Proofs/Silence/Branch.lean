import ValueFlow.Proofs.Silence.Block

/-!
# Silent walks of conditionals

Each arm is foretold in a fork of the scope, and what the two forks tell is joined. Notice is given
of a condition that is a literal, and of a conditional that no arm is left of.
-/

namespace ValueFlow
set_option autoImplicit false

namespace Walk

variable {walk : Walk} {id : NodeId} {visit : NodeId → WalkM (Option NodeId)} {depth : Nat}

/-- What an arm brings to the join, without versions. -/
def Arm.outline (traces : Traces) : Arm → Sketch.Arm
  | .absent => .absent
  | .aborting => .aborting
  | .reached scope => .reached (scope.outline traces)

/-- What an arm tells stays so while the log grows. -/
theorem Arm.outline_eq {arm : Arm} {before after : Analysis}
    (backed : ∀ path ∈ arm.scope?, path.Backed before.traces) (sound : before.Sound)
    (later : after.Sound) (grows : before.Grows after) :
    arm.outline after.traces = arm.outline before.traces := by
  cases arm with
  | reached scope =>
    exact congrArg Sketch.Arm.reached
      ((backed scope rfl).outline_eq sound.traces later.traces grows.traces)
  | _ => rfl

theorem tells_joinBehind {yes no : Arm} (sound : walk.toSite.Sound)
    (yesBacked : ∀ path ∈ yes.scope?, path.Backed walk.analysis.traces)
    (noBacked : ∀ path ∈ no.scope?, path.Backed walk.analysis.traces) :
    Tells (joinBehind yes no) walk
      (some (walk.sketch.joinBehind (yes.outline walk.analysis.traces)
          (no.outline walk.analysis.traces)))
      (fun _ after => after.arena = walk.arena) nothingDue := by
  have joins (paths : List Scope) (some_ : paths ≠ [])
      (backed : ∀ path ∈ paths, path.Backed walk.analysis.traces) :
      Tells (liftM (Site.join paths)) walk
        (some (walk.sketch.join (paths.map (·.outline walk.analysis.traces))))
        (fun _ after => after.arena = walk.arena) nothingDue :=
    .lift (Site.draws_join sound some_ backed) fun _ _ _ _ => rfl
  have own := sound.scope
  cases yes with
  | absent =>
    cases no with
    | absent | aborting => exact .pure sound rfl
    | reached path =>
      exact joins [walk.scope, path] (List.cons_ne_nil _ _)
        (by simpa using ⟨own, noBacked path rfl⟩)
  | aborting =>
    cases no with
    | absent | aborting => exact .pure sound rfl
    | reached path => exact joins [path] (List.cons_ne_nil _ _) (by simpa using noBacked path rfl)
  | reached path =>
    cases no with
    | absent =>
      exact joins [walk.scope, path] (List.cons_ne_nil _ _)
        (by simpa using ⟨own, yesBacked path rfl⟩)
    | aborting => exact joins [path] (List.cons_ne_nil _ _) (by simpa using yesBacked path rfl)
    | reached other =>
      exact joins [path, other] (List.cons_ne_nil _ _)
        (by simpa using ⟨yesBacked path rfl, noBacked other rfl⟩)

/-- Both arms of a conditional stay where they are. -/
structure ArmsStay (before : Arena) (id cond : NodeId) (yes no : Option NodeId)
    (yesCode noCode : Code) (after : Arena) : Prop where
  found : after.stmt? id = some (.branch cond yes no)
  stays : before.Stays (id :: (yesCode.ids ++ noCode.ids))
    (yesCode.isFlat = true ∧ noCode.isFlat = true) after
  yes : after.ShowsFlat (.maybe .stmt yes) yesCode
  no : after.ShowsFlat (.maybe .stmt no) noCode

/-- The conditional is written back with the arms that were walked one after the other. -/
theorem ArmsStay.of_spliced {before middle behind : Arena} {cond : NodeId}
    {yes no : Option NodeId} {yesCode noCode : Code}
    (found : before.stmt? id = some (.branch cond yes no))
    (nodup : (id :: (yesCode.ids ++ noCode.ids)).Nodup)
    (first : before.Spliced yesCode middle (.maybe .stmt yes))
    (second : middle.Spliced noCode behind (.maybe .stmt no)) :
    ArmsStay before id cond yes no yesCode noCode
      (behind.mapStmt id (.withArms cond yes no)) := by
  obtain ⟨free, nodupArms⟩ := List.nodup_cons.1 nodup
  have apart : yesCode.ids.Disjoint noCode.ids := List.disjoint_of_nodup_append nodupArms
  have both := first.trans second.toStays
  have foundNow := (both.stmt?_eq free).trans found
  have above := Arena.Stays.mapStmt foundNow (.withArms cond yes no) fun _ : True => rfl
  exact {
    found := Arena.stmt?_mapStmt_self foundNow _
    stays := (both.above above).widen (by simp) fun flat => ⟨flat, trivial⟩
    yes := (first.left second.toStays apart).keep_of_free above fun mem =>
      free (List.mem_append_left _ mem)
    no := second.shows_.keep_of_free above fun mem => free (List.mem_append_right _ mem) }

namespace Foretold

variable (foretold : Foretold visit depth)
include foretold

/-- An arm is walked in a fork. -/
theorem tells_walkArm {node : Option NodeId} {code : Code} (sound : walk.toSite.Sound)
    (shows_ : walk.arena.Shows (.maybe .stmt node) code) (nodup : code.ids.Nodup)
    (low : code.ids.length ≤ depth) (label : String) :
    Tells (walkArm visit label node) walk ((code.silent walk.sketch).map walk.sketch.beside)
      (fun answer after => ∃ last, code.silent walk.sketch = some last ∧ answer.1 = node ∧
        answer.2.outline after.analysis.traces = code.arm last ∧ walk.arena.Spliced code after.arena
          (.maybe .stmt node)) nothingDue := by
  cases shows_ with
  | absent => exact .pure sound ⟨_, rfl, rfl, by simp [Code.arm, Arm.outline], .refl .absent rfl⟩
  | @present _ arm _ here =>
    have forked : Site.Sound { walk.toSite with scope := walk.scope.fork label } :=
      ⟨sound.analysis, sound.scope.fork label⟩
    have inner : Tells (visit arm) { walk with scope := walk.scope.fork label }
        (code.silent walk.sketch)
        (fun node after => node = some arm ∧ walk.arena.Spliced code after.arena (.one .stmt arm))
          nothingDue :=
      foretold.tells forked here nodup low
    have steady : ∀ answer : Option NodeId × Scope, Steady (arenaHere >>= fun arena =>
        if answer.1.any arena.isAborting = true then
          (pure (answer.1, .aborting) : WalkM (Option NodeId × Arm))
        else pure (answer.1, .reached answer.2)) := by
      intro answer
      refine .arenaHere_bind fun arena => ?_
      split <;> exact .pure
    refine .bind_then (.inFork sound inner) sound (.inFork (foretold.steady arm)) steady ?_
    rintro ⟨node, scope⟩ after drawn ⟨last, soundLast, image, ⟨same, spliced⟩, reached, here⟩
    obtain rfl : node = some arm := same
    obtain rfl : scope = last.scope := reached
    obtain ⟨newCode, left, sameCode⟩ := spliced.shows_
    have nodupNew : newCode.ids.Nodup := nodup.sublist (Code.ids_sublist_of_flat sameCode)
    have aborts : (some arm).any last.arena.isAborting = code.aborts := by
      rw [← Code.aborts_of_flat sameCode]
      exact (Arena.Shows.present left).isAborting_eq nodupNew
    subst here
    have whole : walk.arena.Spliced code last.arena (.maybe .stmt (some arm)) :=
      { spliced with shows_ := ⟨newCode, .present left, sameCode⟩ }
    rw [Tells.arenaHere_bind]
    dsimp only
    rw [aborts]
    split
    · rename_i stops
      exact .pure drawn.sound
        ⟨_, image, rfl, by simp [Code.arm, Arm.outline, here.single.1, stops], whole⟩
    · rename_i goes
      refine .pure drawn.sound ⟨_, image, rfl, ?_, whole⟩
      rw [Code.arm, if_neg here.single.1, if_neg goes]
      rfl

omit foretold in
/-- Notice is given of a conditional that no arm is left of. -/
theorem tells_behindArms {cond : NodeId} {yes no : Option NodeId} {yesArm noArm : Arm}
    (sound : walk.toSite.Sound)
    (yesBacked : ∀ path ∈ yesArm.scope?, path.Backed walk.analysis.traces)
    (noBacked : ∀ path ∈ noArm.scope?, path.Backed walk.analysis.traces) :
    Tells (behindArms id cond (yes, yesArm) (no, noArm)) walk
      (if yes = none ∧ no = none then none
        else some (walk.sketch.joinBehind (yesArm.outline walk.analysis.traces)
          (noArm.outline walk.analysis.traces)))
      (fun answer after => answer = stay id ∧
        after.arena = walk.arena.mapStmt id (.withArms cond yes no))
      fun answer => answer.edit.isSome = true := by
  have holds := Discipline.holds_joinBehind integrity_law (ready_of_sound sound)
    (fun path mem => ⟨sound.analysis, yesBacked path mem⟩) fun path mem =>
    ⟨sound.analysis, noBacked path mem⟩
  have steadyPush :
      Steady (pushLike id (.stmt (.effect cond)) >>= fun effect =>
        (pure (.changed (some effect) .statements "Removed conditional statement without effect.") :
          WalkM StmtAnswer)) :=
      .bind (.of_yields
      (.pushLike integrity_law id
        (fun _ _ => ⟨fun _ _ => trivial, fun _ _ => trivial, fun _ _ => trivial⟩) nofun)) fun _ =>
      .pure
  have steadyEdit (yes no : Option NodeId) :
      Steady (editStmt id (.withArms cond yes no) >>= fun _ => pure (stay id)) :=
    .bind (.editStmt id _) fun _ => .pure
  refine (tells_joinBehind sound yesBacked noBacked).bind_to holds (fun _ after kept _ => ?_) nofun
    fun _ after drawn _ still => ?_
  · dsimp only
    split
    · exact steadyPush after kept.toReady
    · exact steadyEdit _ _ after kept.toReady
  dsimp only
  split
  · rw [if_pos ⟨rfl, rfl⟩]
    exact Tells.pushLike_bind.2 (.due drawn.sound rfl)
  · rename_i some_
    rw [if_neg fun both => some_ both.1 both.2, Option.some.inj drawn.image, ← still,
      Tells.editStmt_bind]
    exact .pure drawn.sound ⟨rfl, rfl⟩

/-- The arms are walked one after the other, each from the scope before both. -/
theorem tells_arms {cond : NodeId} {yes no : Option NodeId} {yesCode noCode : Code}
    (sound : walk.toSite.Sound) (found : walk.arena.stmt? id = some (.branch cond yes no))
    (yesShows : walk.arena.Shows (.maybe .stmt yes) yesCode)
    (noShows : walk.arena.Shows (.maybe .stmt no) noCode)
    (nodup : (id :: (yesCode.ids ++ noCode.ids)).Nodup)
    (low : yesCode.ids.length + noCode.ids.length ≤ depth) :
    Tells (walkArm visit "branch yes" yes >>= fun yesAnswer => walkArm visit "branch no" no >>=
      behindArms id cond yesAnswer) walk
      ((yesCode.silent walk.sketch).bind fun yesLast =>
        (noCode.silent (walk.sketch.beside yesLast)).bind fun noLast =>
        if yesCode = .nil ∧ noCode = .nil then none
        else some ((walk.sketch.beside noLast).joinBehind (yesCode.arm yesLast)
          (noCode.arm noLast)))
      (fun answer after => answer = stay id ∧
        ArmsStay walk.arena id cond yes no yesCode noCode after.arena)
      fun answer => answer.edit.isSome = true := by
  have nodupArms := (List.nodup_cons.1 nodup).2
  have apart : yesCode.ids.Disjoint noCode.ids := List.disjoint_of_nodup_append nodupArms
  have steady := fun (id : NodeId) (_ : integrity.region.stmts id) => foretold.yields id
  have arm {walk : Walk} (sound : walk.toSite.Sound) (label : String) (node : Option NodeId) :=
    Discipline.holds_walkArm integrity_law steady (ready_of_sound sound) label
      fun (id : NodeId) (_ : id ∈ node) => trivial
  refine (foretold.tells_walkArm sound yesShows nodupArms.of_append_left (by omega) _).bind_to
    (arm sound _ yes)
    (fun answer after kept good =>
      (Discipline.holds_behindYes integrity_law steady kept.toReady trivial trivial
        (fun _ _ => trivial) good).mono fun _ _ _ _ => trivial)
    (fun none_ => by rw [Option.map_eq_none_iff.1 none_, Option.bind_none]) ?_
  rintro ⟨yesLeft, yesArm⟩ middle drawn yesGood ⟨yesLast, yesSilent, same, yesTold, first⟩
  obtain rfl : yesLeft = yes := same
  have sketchYes : middle.sketch = walk.sketch.beside yesLast := by
    have image := drawn.image
    rw [yesSilent] at image
    exact (Option.some.inj image).symm
  rw [yesSilent, Option.bind_some, ← sketchYes]
  refine (foretold.tells_walkArm drawn.sound (first.beside noShows apart) nodupArms.of_append_right
    (by omega) _).bind_to (arm drawn.sound _ no) (fun answer after kept good => ?_)
    (fun none_ => by rw [Option.map_eq_none_iff.1 none_, Option.bind_none]) ?_
  · have carried : ∀ path ∈ yesArm.scope?, integrity.good path after.analysis :=
      fun path mem => integrity_law.carry (yesGood.2 path mem) kept.good kept.grows
    exact (Discipline.holds_behindArms integrity_law kept.toReady trivial trivial
      ⟨yesGood.1, carried⟩ good).mono fun _ _ _ _ => trivial
  rintro ⟨noLeft, noArm⟩ behind drawnNo noGood ⟨noLast, noSilent, same, noTold, second⟩
  obtain rfl : noLeft = no := same
  have sketchNo : behind.sketch = walk.sketch.beside noLast := by
    have image := drawnNo.image
    rw [noSilent, sketchYes] at image
    exact (Option.some.inj image).symm
  have yesLater : yesArm.outline behind.analysis.traces = yesCode.arm yesLast := by
    rw [Arm.outline_eq (fun path mem => (yesGood.2 path mem).2) drawn.sound.analysis
      drawnNo.sound.analysis drawnNo.grows, yesTold]
  have yesBacked : ∀ path ∈ yesArm.scope?, path.Backed behind.analysis.traces :=
    fun path mem => (yesGood.2 path mem).2.extend drawnNo.grows.traces
  have image : (if yesCode = .nil ∧ noCode = .nil then none
      else some ((walk.sketch.beside noLast).joinBehind (yesCode.arm yesLast)
        (noCode.arm noLast))) =
    if yesLeft = none ∧ noLeft = none then none
      else some (behind.sketch.joinBehind (yesArm.outline behind.analysis.traces)
        (noArm.outline behind.analysis.traces)) := by
    simp only [yesShows.eq_nil_iff, noShows.eq_nil_iff, yesLater, show noArm.outline _ = _ from
      noTold, sketchNo]
  rw [noSilent, Option.bind_some, image]
  refine (tells_behindArms drawnNo.sound yesBacked fun path mem => (noGood.2 path mem).2).mono ?_
    fun _ held => held
  rintro _ after _ ⟨rfl, edited⟩
  exact edited ▸ ⟨rfl, .of_spliced found nodup first second⟩

/-- Whichever arm a known condition takes, the answer tells of an edit. -/
theorem yields_takeArm (truth : Bool) (yes no : Option NodeId) :
    integrity.Yields integrity.ofWalk (takeArm visit truth yes no) fun answer =>
      answer.edit.isSome = true := by
  unfold takeArm
  dsimp only
  split
  · exact Discipline.Obeys.bind integrity_law (foretold.steady _) fun _ => .pure integrity_law rfl
  · exact Discipline.Obeys.bind integrity_law (.pure integrity_law trivial) fun _ =>
      .pure integrity_law rfl

theorem tells_rewriteBranch {cond : NodeId} {yes no : Option NodeId}
    {condCode yesCode noCode : Code} (sound : walk.toSite.Sound)
    (found : walk.arena.stmt? id = some (.branch cond yes no))
    (condShows : walk.arena.Shows (.one .expr cond) condCode)
    (yesShows : walk.arena.Shows (.maybe .stmt yes) yesCode)
    (noShows : walk.arena.Shows (.maybe .stmt no) noCode)
    (nodup : (Code.branch id condCode yesCode noCode).ids.Nodup)
    (low : yesCode.ids.length + noCode.ids.length ≤ depth) :
    TellsRewrite (rewriteBranch visit id cond yes no) walk id
      (.branch id condCode yesCode noCode) := by
  obtain ⟨free, nodupParts⟩ := List.nodup_cons.1 nodup
  have apart : condCode.ids.Disjoint (yesCode.ids ++ noCode.ids) :=
    List.disjoint_of_nodup_append nodupParts
  have steady : ∀ cond, Steady (behindCond visit id yes no cond) :=
    fun cond => .of_yields
      (Discipline.yields_behindCond integrity_law (fun id _ => foretold.yields id) trivial trivial
        (fun _ _ => trivial) fun _ _ => trivial)
  rw [rewriteBranch_eq]
  refine .bind (tells_walkExpr sound condShows nodupParts.of_append_left) sound
    (steady_walkExpr cond) steady ?_
  rintro kept middle drawn ⟨rfl, first⟩
  unfold behindCond
  rw [Tells.arenaHere_bind]
  obtain ⟨newCond, left, same⟩ := first.shows_
  have literal : middle.arena.literal? kept = condCode.literal? := by
    rw [left.literal?_eq, ← Code.literal?_bare, same, Code.literal?_bare, condShows.literal?_flat]
  rw [literal]
  cases condCode.literal? with
  | some value =>
    exact .of_holds
      (foretold.yields_takeArm value.isTruthy yes no middle (ready_of_sound drawn.sound))
  | none =>
    have foundNow := (first.stmt?_eq fun mem => free (List.mem_append_left _ mem)).trans found
    have yesNow := first.beside yesShows fun id held mem => apart held (List.mem_append_left _ mem)
    have noNow := first.beside noShows fun id held mem => apart held (List.mem_append_right _ mem)
    have nodupArms : (id :: (yesCode.ids ++ noCode.ids)).Nodup :=
      List.nodup_cons.2 ⟨fun mem => free (List.mem_append_right _ mem), nodupParts.of_append_right⟩
    refine (foretold.tells_arms drawn.sound foundNow yesNow noNow nodupArms low).mono ?_
      fun _ held => held
    rintro _ after _ ⟨rfl, arms⟩
    obtain ⟨newYes, yesLeft, sameYes⟩ := arms.yes
    obtain ⟨newNo, noLeft, sameNo⟩ := arms.no
    have apartCond : condCode.ids.Disjoint (id :: (yesCode.ids ++ noCode.ids)) :=
      List.disjoint_cons_right.2 ⟨fun mem => free (List.mem_append_left _ mem), apart⟩
    refine ⟨rfl, (first.trans arms.stays).widen (by simp [Code.ids])
      (by simp +contextual [Code.isFlat]), ?_⟩
    obtain ⟨newCond, condLeft, sameCond⟩ := first.left arms.stays apartCond
    refine ⟨.branch id newCond newYes newNo, .branch arms.found condLeft yesLeft noLeft, ?_⟩
    simp only [Code.flat, Code.bare, sameCond, sameYes, sameNo]

end Foretold

end Walk

end ValueFlow
