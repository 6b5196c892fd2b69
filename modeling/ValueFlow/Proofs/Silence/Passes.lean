import ValueFlow.Passes
import ValueFlow.Proofs.Silence.Statement

/-!
# A silent pass is the last one

Passes are repeated until one of them gives no notice. What such a pass leaves is the body that it
was given, spliced and with versions noted in it. Another pass over it starts with the same sketch,
for a new site tells of the storage of the variables and not of their counters. So it decides alike
at every node, gives no notice either, and finds nothing to splice.
-/

namespace ValueFlow
set_option autoImplicit false

/-- A new site tells of the storage of the variables and of the options only. -/
theorem Site.sketch_forBody (kind : BodyKind) (vars : Variables) (options : Options) :
    (Site.forBody kind vars options).sketch =
      ⟨vars.slots, options, fun _ => none, fun _ => none⟩ := by
  refine Sketch.ext rfl rfl (funext fun var => ?_) (funext fun kind => ?_)
  · simp [Site.sketch, Site.forBody, Scope.outline, Scope.fresh]
  · cases kind <;> rfl

/-- The walk of a body is as silent over what a silent walk leaves of it. -/
theorem Code.silentBody_of_flat {kind : BodyKind} {arena : Arena} {place : Place}
    {code newCode : Code} (shows_ : arena.Shows place code) (same : newCode.bare = code.flat.bare)
    {here last : Sketch} (silent : code.silentBody kind here = some last) :
    newCode.silentBody kind here = some last := by
  have spliced : newCode.silent = code.flat.silent := silent_congr _ same
  cases kind with
  | moduleBody =>
    change newCode.silent here = some last
    rw [spliced]
    exact shows_.silent_flat silent
  | functionBody =>
    obtain ⟨foot, walked, rfl⟩ := Option.map_eq_some_iff.1 silent
    simp only [silentBody, spliced, shows_.silent_flat walked, aborts_of_flat same, Option.map_some]

namespace Walk

variable {kind : BodyKind} {vars : Variables} {options : Options} {walk after : Walk}
  {body : NodeId} {code : Code} {left : Option NodeId}

/-- A walk of a body that gave no notice had an image, and has left the body spliced. -/
theorem spliced_of_silent (sound : walk.toSite.Sound) (tree : walk.arena.IsTree body code)
    (walked : walkBody kind body walk = .ok left after)
    (silent : after.analysis.edits.size = walk.analysis.edits.size) :
    walk.toSite.Drawn (code.silentBody kind walk.sketch) after.toSite ∧ left = some body ∧
      walk.arena.Spliced code after.arena (.one .stmt body) := by
  rcases (tells_walkBody kind sound tree.shows_ tree.nodup).of_ok walked with told | ⟨-, noisy⟩
  · exact told
  · exact absurd (noisy.notice.resolve_right fun due => due) (Nat.not_lt.2 (Nat.le_of_eq silent))

/-- A walk of a body that has an image ends well and gives no notice. -/
theorem walkBody_of_silentBody {image : Sketch} (sound : walk.toSite.Sound)
    (tree : walk.arena.IsTree body code) (silent : code.silentBody kind walk.sketch = some image) :
    ∃ after, walkBody kind body walk = .ok (some body) after ∧
      after.analysis.edits = walk.analysis.edits ∧
      walk.arena.Spliced code after.arena (.one .stmt body) := by
  have tells := tells_walkBody kind sound tree.shows_ tree.nodup
  rw [silent] at tells
  obtain ⟨left, after, walked, ⟨drawn, rfl, spliced⟩ | ⟨none_, -⟩⟩ :=
    Ends.exists_ok (Ends.mono tells (fun _ _ told => told) fun _ _ => nofun)
  · exact ⟨after, walked, drawn.edits, spliced⟩
  · cases none_

/-- A pass of a new root that gives no notice leaves the body that it was given, with the blocks
that stand in rows spliced into them and versions noted, and a further pass by another new root
leaves all as it is but for the versions. -/
theorem silent_pass_fixed {arena : Arena} (tree : arena.IsTree body code)
    (walked : walkBody kind body ⟨.forBody kind vars options, arena⟩ = .ok left after) (silent : after.analysis.edits.isEmpty = true) :
    left = some body ∧ after.arena.size = arena.size ∧ (∀ id, after.arena.span id = arena.span id) ∧
    (∀ id, id ∉ code.ids → after.arena.node? id = arena.node? id) ∧
    (∃ newCode, after.arena.IsTree body newCode ∧ newCode.bare = code.flat.bare) ∧
    ∃ last, walkBody kind body (after.renew kind .fresh) = .ok (some body) last ∧ last.analysis.edits.isEmpty = true ∧
      last.arena.size = after.arena.size ∧ (∀ id, last.arena.span id = after.arena.span id) ∧
      ∀ id, (last.arena.node? id).map Node.bare = (after.arena.node? id).map Node.bare := by
  have sound := Site.sound_forBody kind vars options
  have nothing : after.analysis.edits.size = 0 := Array.isEmpty_iff_size_eq_zero.1 silent
  obtain ⟨drawn, rfl, spliced⟩ := spliced_of_silent sound tree walked nothing
  obtain ⟨newCode, left, same⟩ := spliced.shows_
  have newTree : after.arena.IsTree body newCode := ⟨left, tree.nodup.sublist (Code.ids_sublist_of_flat same)⟩
  have start : (after.renew kind .fresh).sketch = (Site.forBody kind vars options).sketch := by
    change (Site.forBody kind after.analysis.vars after.analysis.options).sketch = _
    rw [Site.sketch_forBody, Site.sketch_forBody, drawn.grows.vars.slots, drawn.grows.options]
    rfl
  have again : newCode.silentBody kind (after.renew kind .fresh).sketch = some after.sketch := by
    rw [start]
    exact Code.silentBody_of_flat tree.shows_ same drawn.image
  obtain ⟨last, walkedAgain, edits, idle⟩ : ∃ last, walkBody kind body (after.renew kind .fresh) = .ok (some body) last ∧
      last.analysis.edits = .empty ∧ after.arena.Spliced newCode last.arena (.one .stmt body) :=
    walkBody_of_silentBody (Site.sound_forBody kind _ _) newTree again
  have flat : newCode.isFlat = true := by
    rw [← Code.isFlat_bare, same, Code.isFlat_bare]
    exact tree.shows_.flat_forms.2
  exact ⟨rfl, spliced.size, spliced.span, spliced.frame, ⟨newCode, newTree, same⟩, last, walkedAgain, edits ▸ rfl, idle.size, idle.span,
    idle.same flat⟩

/-- The local of the body below. -/
def nestedVars : Variables := ⟨#[⟨"x", .maybeLocal none, false, .entry⟩]⟩

/-- A body with a block in a row: `{ x = 1 }; x`. -/
def nestedBody : Arena :=
  ⟨#[⟨.expr (.literal (.int 1)), ⟨0, 1⟩⟩, ⟨.stmt (.assign 0 0 none), ⟨1, 2⟩⟩, ⟨.stmt (.block [1]), ⟨2, 3⟩⟩, ⟨.expr (.read 0 none), ⟨3, 4⟩⟩,
    ⟨.stmt (.effect 3), ⟨4, 5⟩⟩, ⟨.stmt (.block [2, 4]), ⟨5, 6⟩⟩]⟩

/-- The tree of the body. -/
def nestedCode : Code :=
  .block 5 (.cons (.block 2 (.cons (.assign 1 0 (.literal 0 (.int 1)) none) .nil)) (.cons (.effect 4 (.read 3 0 none)) .nil))

theorem nestedBody_isTree : nestedBody.IsTree 5 nestedCode :=
  ⟨.block rfl (.cons (.block rfl (.cons (.assign rfl (.literal rfl)) .nil))
    (.cons (.effect rfl (.read rfl)) .nil)), by decide⟩

/-- The pass over the body is silent, and so is the one after it. -/
theorem nestedBody_fixed : nestedBody.IsTree 5 nestedCode ∧
    ∃ left after, walkBody .functionBody 5 ⟨.forBody .functionBody nestedVars {}, nestedBody⟩ = .ok left after ∧
      after.analysis.edits.isEmpty = true ∧ left = some 5 ∧ after.arena.size = nestedBody.size ∧
      (∀ id, after.arena.span id = nestedBody.span id) ∧ (∀ id, id ∉ nestedCode.ids → after.arena.node? id = nestedBody.node? id) ∧
      (∃ newCode, after.arena.IsTree 5 newCode ∧ newCode.bare = nestedCode.flat.bare) ∧
      ∃ last, walkBody .functionBody 5 (after.renew .functionBody .fresh) = .ok (some 5) last ∧ last.analysis.edits.isEmpty = true ∧
        last.arena.size = after.arena.size ∧ (∀ id, last.arena.span id = after.arena.span id) ∧
        ∀ id, (last.arena.node? id).map Node.bare = (after.arena.node? id).map Node.bare := by
  have silentEnd : endsWith (walkBody .functionBody 5) ⟨.forBody .functionBody nestedVars {}, nestedBody⟩
      (fun _ after => after.analysis.edits.isEmpty) = true := by decide +kernel
  obtain ⟨left, after, walked, silent⟩ := exists_of_endsWith silentEnd
  exact ⟨nestedBody_isTree, left, after, walked, silent, silent_pass_fixed nestedBody_isTree walked silent⟩

end Walk

end ValueFlow
