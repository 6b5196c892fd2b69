import ValueFlow.Proofs.Silence.Loop

/-!
# Silent walks of statements and of bodies

By induction on the depth of the walk, every statement is foretold by its tree. So is a body: a
function catches the returns below it, and in the end joins what they tell with what its end tells.
-/

namespace ValueFlow
set_option autoImplicit false

namespace Walk

variable {walk : Walk} {id body : NodeId} {code : Code} {visit : NodeId → WalkM (Option NodeId)}
  {depth : Nat}

theorem Foretold.tells_rewriteStmt (foretold : Foretold visit depth) (sound : walk.toSite.Sound)
    (shows_ : walk.arena.Shows (.one .stmt id) code) (nodup : code.ids.Nodup)
    (low : code.ids.length ≤ depth + 1) : TellsRewrite (rewriteStmt visit id) walk id code := by
  unfold rewriteStmt
  rw [TellsRewrite, Tells.arenaHere_bind]
  have alone := shows_
  cases shows_ with
  | hole _ lacks =>
    rw [show walk.arena.stmt? id = none from lacks]
    exact .throw
  | block found rowShows =>
    rw [found]
    exact foretold.tells_rewriteBlock sound found rowShows nodup (Nat.le_of_succ_le_succ low)
  | assign found valueShows =>
    rw [found]
    exact tells_rewriteAssign sound found valueShows nodup
  | delete found =>
    rw [found]
    exact tells_rewriteDelete sound found
  | release found =>
    rw [found]
    exact tells_rewriteRelease sound alone
  | effect found exprShows =>
    rw [found]
    exact tells_rewriteEffect sound found exprShows nodup
  | branch found condShows yesShows noShows =>
    rw [found]
    simp only [Code.ids, List.length_cons, List.length_append] at low
    exact foretold.tells_rewriteBranch sound found condShows yesShows noShows nodup (by omega)
  | loop found bodyShows =>
    rw [found]
    exact foretold.tells_rewriteLoop sound found bodyShows nodup (Nat.le_of_succ_le_succ low)
  | brk found | cont found =>
    rw [found]
    exact tells_rewriteExit sound (.refl alone rfl)
  | ret found valueShows =>
    rw [found]
    exact tells_rewriteReturn sound found valueShows nodup

/-- The walk of every statement is foretold. -/
theorem foretold_walkStmtWithin (depth : Nat) : Foretold (walkStmtWithin depth) depth := by
  induction depth with
  | zero =>
    refine ⟨fun _ => .of_yields (Discipline.yields_walkStmtWithin integrity_law 0 trivial), ?_⟩
    intro walk id code sound shows_ nodup low
    exact absurd (List.length_pos_of_mem shows_.mem_ids) (Nat.not_lt.2 low)
  | succ depth ih =>
    refine ⟨fun _ =>
      .of_yields (Discipline.yields_walkStmtWithin integrity_law (depth + 1) trivial), ?_⟩
    intro walk id code sound shows_ nodup low
    have steady : Steady (rewriteStmt (walkStmtWithin depth) id) :=
      .of_yields (Discipline.yields_rewriteStmt integrity_law (fun id _ => ih.yields id) trivial)
    rw [← Option.bind_fun_some (code.silent walk.sketch)]
    refine Tells.arenaHere_bind.2
      (Tells.located.2 (.bind_signal id (ih.tells_rewriteStmt sound shows_ nodup low) sound steady
          (fun _ => .pure) ?_))
    rintro _ after drawn ⟨rfl, spliced⟩
    exact ⟨rfl, .pure drawn.sound ⟨rfl, spliced⟩⟩

theorem tells_walkStmt (sound : walk.toSite.Sound)
    (shows_ : walk.arena.Shows (.one .stmt id) code) (nodup : code.ids.Nodup) :
    Tells (walkStmt id) walk (code.silent walk.sketch)
      (fun node after => node = some id ∧ walk.arena.Spliced code after.arena (.one .stmt id))
        nothingDue :=
  Tells.arenaHere_bind.2
    ((foretold_walkStmtWithin _).tells sound shows_ nodup
      (Nat.le_succ_of_le (shows_.length_le nodup)))

end Walk

/-- Where the walk of a body leads from a sketch, if it is silent. -/
def Code.silentBody (kind : BodyKind) (code : Code) (here : Sketch) : Option Sketch :=
  match kind with
  | .moduleBody => code.silent here
  | .functionBody => (code.silent (here.inside .byFunction)).map fun foot =>
      (here.leave .byFunction foot).join ((foot.exits .ret).getD [] ++ if code.aborts then [] else [foot.scope])

namespace Walk

variable {walk : Walk} {body : NodeId} {code : Code}

/-- What the returns of a function and its end tell is joined. -/
theorem tells_behindFunction {node : Option NodeId} {returns : List Scope}
    (sound : walk.toSite.Sound) (backed : ∀ path ∈ returns, path.Backed walk.analysis.traces) :
    Tells (behindFunction node returns) walk
      (some (walk.sketch.join
        (returns.map (·.outline walk.analysis.traces) ++ if node.any walk.arena.isAborting then
          [] else [walk.sketch.scope])))
      (fun answer after => answer = node ∧ after.arena = walk.arena) nothingDue := by
  have still : functionExits node returns walk =
      .ok (returns ++ if node.any walk.arena.isAborting then [] else
        [walk.scope.fork "fall through"]) walk := by
    change (if node.any walk.arena.isAborting = true then _ else _ : WalkM (List Scope)) walk = _
    split
    · rw [List.append_nil]
      rfl
    · rfl
  have image : returns.map (·.outline walk.analysis.traces) ++
      (if node.any walk.arena.isAborting then [] else [walk.sketch.scope]) =
      (returns ++ if node.any walk.arena.isAborting then [] else
        [walk.scope.fork "fall through"]).map (·.outline walk.analysis.traces) := by
    rw [List.map_append]
    split <;> rfl
  have fits : ∀ path ∈ returns ++
      if node.any walk.arena.isAborting then [] else [walk.scope.fork "fall through"],
      path.Backed walk.analysis.traces := by
    intro path mem
    rcases List.mem_append.1 mem with taken | last
    · exact backed path taken
    · split at last
      · cases last
      · rw [List.mem_singleton.1 last]
        exact sound.scope.fork "fall through"
  rw [image, behindFunction, Tells.bind_of_still still]
  generalize returns ++
    (if node.any walk.arena.isAborting then [] else [walk.scope.fork "fall through"]) =
    exits at fits
  cases exits with
  | nil => exact .pure sound ⟨rfl, rfl⟩
  | cons path paths =>
    refine .lift_then (Site.draws_join sound (List.cons_ne_nil _ _) fits) fun _ site drawn _ => ?_
    exact .pure drawn.sound ⟨rfl, rfl⟩

/-- The body of a function is walked with a registry of its own for returns. -/
theorem tells_walkCaught (sound : walk.toSite.Sound)
    (shows_ : walk.arena.Shows (.one .stmt body) code) (nodup : code.ids.Nodup) :
    Tells (walkCaught body) walk
      ((code.silent (walk.sketch.inside .byFunction)).map (walk.sketch.leave .byFunction))
      (fun answer after => ∃ foot, code.silent (walk.sketch.inside .byFunction) = some foot ∧
        answer.1 = some body ∧
        answer.2.map (·.outline after.analysis.traces) = (foot.exits .ret).getD [] ∧
          walk.arena.Spliced code after.arena (.one .stmt body))
      nothingDue := by
  have soundInside : Site.Sound ⟨walk.scope, walk.analysis.inside .byFunction⟩ :=
    ⟨sound.analysis.inside .byFunction, sound.scope⟩
  have inner : Tells (do
      let node ← walkStmt body
      pure (node, ← Analysis.takeExits .byFunction .ret))
        { walk with analysis := walk.analysis.inside .byFunction }
      ((code.silent (walk.sketch.inside .byFunction)).bind fun foot => some (foot.take .ret))
      (fun answer after => ∃ foot, code.silent (walk.sketch.inside .byFunction) = some foot ∧
        answer.1 = some body ∧ answer.2.map (·.outline after.analysis.traces) =
        (foot.exits .ret).getD [] ∧ walk.arena.Spliced code after.arena (.one .stmt body))
      nothingDue := by
    have walked : Tells (walkStmt body) { walk with analysis := walk.analysis.inside .byFunction } _
        _ _ := tells_walkStmt soundInside shows_ nodup
    rw [show Site.sketch ⟨walk.scope, walk.analysis.inside .byFunction⟩ =
      walk.sketch.inside .byFunction from Site.sketch_inside _ _] at walked
    refine .bind walked soundInside (.of_yields (Discipline.yields_walkStmt integrity_law trivial))
      (fun node => .bind (.takeExits .byFunction .ret) fun _ => .pure) ?_
    rintro _ foot drawn ⟨rfl, spliced⟩
    change Tells
      ((liftM (liftM (Analysis.takeExits .byFunction .ret) : SiteM (List Scope)) :
          WalkM (List Scope)) >>= fun returns => pure (some body, returns)) foot _ _ _
    refine .lift_then (Site.draws_takeExits drawn.sound rfl) fun returns last drawnLast told => ?_
    exact .pure drawnLast.sound ⟨foot.sketch, drawn.image, rfl, told, spliced⟩
  have image : (code.silent (walk.sketch.inside .byFunction)).map (walk.sketch.leave .byFunction) =
      ((code.silent (walk.sketch.inside .byFunction)).bind fun foot => some (foot.take .ret)).map
        (walk.sketch.leave .byFunction) := by
    cases code.silent (walk.sketch.inside .byFunction) with
    | none => rfl
    | some foot => exact congrArg some (Sketch.leave_take rfl foot).symm
  rw [image]
  refine Tells.mono (.catching sound inner) ?_ fun _ none_ => none_
  rintro answer _ _ ⟨last, -, -, held, rfl⟩
  exact held

theorem tells_walkFunction (sound : walk.toSite.Sound)
    (shows_ : walk.arena.Shows (.one .stmt body) code) (nodup : code.ids.Nodup) :
    Tells (walkFunction body) walk (code.silentBody .functionBody walk.sketch)
      (fun node after => node = some body ∧ walk.arena.Spliced code after.arena (.one .stmt body))
        nothingDue := by
  have holds : integrity.Holds integrity.ofWalk (walkCaught body) walk fun answer after =>
      (∀ node ∈ answer.1, integrity.region.stmts node) ∧ ∀ path ∈ answer.2,
        integrity.good path after.analysis :=
    Discipline.holds_walkCaught integrity_law (ready_of_sound sound) trivial (integrity_parks .ret)
  rw [walkFunction_eq]
  refine (tells_walkCaught sound shows_ nodup).bind_to holds ?_ ?_ ?_
  · exact fun answer after kept fits =>
      (Discipline.holds_behindFunction integrity_law kept.toReady fits.1 fits.2).mono
      fun _ _ _ _ => trivial
  · intro none_
    simp_all [Code.silentBody]
  rintro ⟨node, returns⟩ middle drawn fits ⟨foot, walked, same, told, spliced⟩
  obtain rfl : node = some body := same
  obtain ⟨newCode, left, sameCode⟩ := spliced.shows_
  have sketchNow : walk.sketch.leave .byFunction foot = middle.sketch := by
    have image := drawn.image
    rw [walked] at image
    exact Option.some.inj image
  have aborts : (some body).any middle.arena.isAborting = code.aborts := by
    have nodupNew : newCode.ids.Nodup := nodup.sublist (Code.ids_sublist_of_flat sameCode)
    rw [← Code.aborts_of_flat sameCode]
    exact (Arena.Shows.present left).isAborting_eq nodupNew
  have scope : foot.scope = middle.sketch.scope := sketchNow ▸ rfl
  rw [Code.silentBody, walked, Option.map_some, sketchNow, ← told, scope, ← aborts]
  refine (tells_behindFunction drawn.sound fun path mem => (fits.2 path mem).2).mono ?_
    fun _ none_ => none_
  rintro _ after _ ⟨rfl, still⟩
  rw [still]
  exact ⟨rfl, spliced⟩

/-- The walk of a body is foretold by its tree. -/
theorem tells_walkBody (kind : BodyKind) (sound : walk.toSite.Sound)
    (shows_ : walk.arena.Shows (.one .stmt body) code) (nodup : code.ids.Nodup) :
    Tells (walkBody kind body) walk (code.silentBody kind walk.sketch)
      (fun node after => node = some body ∧ walk.arena.Spliced code after.arena (.one .stmt body))
        nothingDue := by
  cases kind with
  | moduleBody => exact tells_walkStmt sound shows_ nodup
  | functionBody => exact tells_walkFunction sound shows_ nodup

end Walk

end ValueFlow
