import ValueFlow.Proofs.Notices
import ValueFlow.Proofs.Renewal.Track

/-!
# Two computations abreast

Two computations run abreast, each from a state of its own, if they end alike: both well, or both
with the same fault (`Abreast`). On a track they also lead from sites beside one another to sites
beside one another, and give the same notices (`Track.Concurs`). Whatever a walk does at a scope
concurs with itself.
-/

namespace ValueFlow
set_option autoImplicit false

section Abreast

variable {σ α β γ δ : Type}

/-- The computations end alike, each from its own state: both well and as described, or both with
the same fault. -/
def Abreast (first : EStateM Fault σ α) (left : σ) (second : EStateM Fault σ β) (right : σ) (well : α → σ → β → σ → Prop) (ill : σ → σ → Prop) :
    Prop :=
  Ends first left (fun value leftAfter => Ends second right (fun other rightAfter => well value leftAfter other rightAfter) fun _ _ => False)
    fun fault leftAfter => Ends second right (fun _ _ => False) fun other rightAfter => other = fault ∧ ill leftAfter rightAfter

variable {first : EStateM Fault σ α} {second : EStateM Fault σ β} {left right : σ}
  {well more : α → σ → β → σ → Prop} {ill : σ → σ → Prop}

theorem Abreast.mono (abreast : Abreast first left second right well ill)
    (further : ∀ value leftAfter other rightAfter, well value leftAfter other rightAfter →
      more value leftAfter other rightAfter) :
    Abreast first left second right more ill :=
  Ends.mono abreast (fun _ _ ends => ends.mono (fun _ _ => further _ _ _ _) fun _ _ fell => fell)
    fun _ _ ends => ends

theorem Abreast.bind {next : α → EStateM Fault σ γ} {nextSecond : β → EStateM Fault σ δ}
    {last : γ → σ → δ → σ → Prop} (abreast : Abreast first left second right well ill)
    (rest : ∀ value leftAfter other rightAfter, well value leftAfter other rightAfter →
      Abreast (next value) leftAfter (nextSecond other) rightAfter last ill) :
    Abreast (first >>= next) left (second >>= nextSecond) right last ill := by
  refine ends_bind.2
    (Ends.mono abreast (fun value leftAfter ends => ?_) fun fault leftAfter ends => ?_)
  · unfold Ends at ends
    cases reached : second right with
    | ok other rightAfter =>
      rw [reached] at ends
      refine Ends.mono (rest value leftAfter other rightAfter ends) (fun _ _ late => ?_)
        fun _ _ late => ?_
      all_goals
        refine ends_bind.2 ?_
        unfold Ends
        rw [reached]
        exact late
    | error fault rightAfter =>
      rw [reached] at ends
      exact ends.elim
  · exact ends_bind.2 (Ends.mono ends (fun _ _ impossible => impossible.elim) fun _ _ fell => fell)

/-- What is known of the ends of both tells how they end abreast. -/
theorem abreast_of_ends {wellLeft : α → σ → Prop} {wellRight : β → σ → Prop}
    {illLeft illRight : Fault → σ → Prop} (ends : Ends first left wellLeft illLeft)
    (endsSecond : Ends second right wellRight illRight)
    (both : ∀ value leftAfter other rightAfter, wellLeft value leftAfter →
      wellRight other rightAfter → well value leftAfter other rightAfter)
    (onlyFirst : ∀ value leftAfter fault rightAfter, wellLeft value leftAfter →
      illRight fault rightAfter → False)
    (onlySecond : ∀ fault leftAfter other rightAfter, illLeft fault leftAfter →
      wellRight other rightAfter → False)
    (neither : ∀ fault leftAfter other rightAfter, illLeft fault leftAfter →
      illRight other rightAfter → other = fault ∧ ill leftAfter rightAfter) :
    Abreast first left second right well ill :=
  Ends.mono ends
    (fun value leftAfter here => Ends.mono endsSecond
      (fun other rightAfter => both value leftAfter other rightAfter here) fun fault rightAfter =>
      onlyFirst value leftAfter fault rightAfter here)
    fun fault leftAfter here => Ends.mono endsSecond
      (fun other rightAfter => onlySecond fault leftAfter other rightAfter here)
      fun other rightAfter => neither fault leftAfter other rightAfter here

end Abreast

namespace Track

/-- Two states that have sites in them, and a demand on what else is in them. -/
structure Pairing (σ : Type) where
  site : σ → Site
  fits : σ → σ → Prop

/-- Two sites by themselves. -/
def Pairing.ofSite : Pairing Site := ⟨id, fun _ _ => True⟩

variable (track : Track)

section Concurs

variable {σ α β γ δ : Type} (pairing : Pairing σ) (frame : Frame)

/-- The states are on the track beside one another: their sites are sound, have given the same
notices, and agree on what is decided in the frame. -/
structure Beside (left right : σ) : Prop where
  soundLeft : (pairing.site left).Sound
  soundRight : (pairing.site right).Sound
  edits : (pairing.site right).analysis.edits = (pairing.site left).analysis.edits
  matches_ : track.Matches frame (pairing.site left).sketch (pairing.site right).sketch
  fits : pairing.fits left right

/-- Two states beside one another have been reached, and nothing was lost on the way. -/
structure Onward (left leftAfter right rightAfter : σ) : Prop extends track.Beside pairing frame leftAfter rightAfter where
  growsLeft : (pairing.site left).analysis.Grows (pairing.site leftAfter).analysis
  growsRight : (pairing.site right).analysis.Grows (pairing.site rightAfter).analysis
  within : (pairing.site left).sketch.scope.Within (pairing.site leftAfter).sketch.scope

/-- The computations run abreast and stay on the track. -/
def Concurs (first : EStateM Fault σ α) (left : σ) (second : EStateM Fault σ β) (right : σ) (given : α → σ → β → σ → Prop) : Prop :=
  Abreast first left second right
    (fun value leftAfter other rightAfter => track.Onward pairing frame left leftAfter right rightAfter ∧ given value leftAfter other rightAfter)
    fun leftAfter rightAfter =>
      (pairing.site rightAfter).analysis.edits = (pairing.site leftAfter).analysis.edits ∧ pairing.fits leftAfter rightAfter

/-- Both answer the same, and as described. -/
def Same {σ α : Type} (given : α → Prop) : α → σ → α → σ → Prop := fun value _ other _ => other = value ∧ given value

variable {track} {pairing} {frame} {first : EStateM Fault σ α} {second : EStateM Fault σ β}
  {left leftAfter right rightAfter : σ} {given : α → σ → β → σ → Prop}

theorem Onward.refl (beside : track.Beside pairing frame left right) :
    track.Onward pairing frame left left right right :=
  { beside with growsLeft := .refl _, growsRight := .refl _, within := .refl _ }

theorem Onward.trans {leftLast rightLast : σ}
    (early : track.Onward pairing frame left leftAfter right rightAfter)
    (late : track.Onward pairing frame leftAfter leftLast rightAfter rightLast) :
    track.Onward pairing frame left leftLast right rightLast :=
  { late with
    growsLeft := early.growsLeft.trans late.growsLeft
    growsRight := early.growsRight.trans late.growsRight
    within := early.within.trans late.within }

namespace Concurs

theorem pure {value : α} {other : β} (beside : track.Beside pairing frame left right)
    (held : given value left other right) :
    track.Concurs pairing frame (Pure.pure value) left (Pure.pure other) right given :=
      ⟨.refl beside, held⟩

theorem throw {fault : Fault} (beside : track.Beside pairing frame left right) :
    track.Concurs pairing frame (throw fault) left (throw fault) right given :=
      ⟨rfl, beside.edits, beside.fits⟩

theorem bind {next : α → EStateM Fault σ γ} {nextSecond : β → EStateM Fault σ δ}
    {last : γ → σ → δ → σ → Prop}
    (concurs : track.Concurs pairing frame first left second right given)
    (rest : ∀ value leftAfter other rightAfter,
      track.Onward pairing frame left leftAfter right rightAfter →
      given value leftAfter other rightAfter → track.Concurs pairing frame (next value) leftAfter
      (nextSecond other) rightAfter last) :
    track.Concurs pairing frame (first >>= next) left (second >>= nextSecond) right last := by
  refine Abreast.bind concurs ?_
  rintro value leftAfter other rightAfter ⟨onward, held⟩
  exact Abreast.mono (rest value leftAfter other rightAfter onward held) fun _ _ _ _ late =>
    ⟨onward.trans late.1, late.2⟩

theorem mono {more : α → σ → β → σ → Prop}
    (concurs : track.Concurs pairing frame first left second right given)
    (further : ∀ value leftAfter other rightAfter,
      track.Onward pairing frame left leftAfter right rightAfter →
      given value leftAfter other rightAfter → more value leftAfter other rightAfter) :
    track.Concurs pairing frame first left second right more :=
  Abreast.mono concurs fun _ _ _ _ held => ⟨held.1, further _ _ _ _ held.1 held.2⟩

theorem discard (concurs : track.Concurs pairing frame first left second right given) :
    track.Concurs pairing frame (Functor.discard first) left (Functor.discard second) right
      fun _ _ _ _ => True := by
  refine ends_discard.2 (Ends.mono concurs (fun _ _ ends => ?_) fun _ _ ends => ?_)
  · exact ends_discard.2
      (ends.mono (fun _ _ held => ⟨held.1, trivial⟩) fun _ _ impossible => impossible)
  · exact ends_discard.2 (ends.mono (fun _ _ impossible => impossible) fun _ _ fell => fell)

theorem forM {items : List γ} {act : γ → EStateM Fault σ PUnit}
    (beside : track.Beside pairing frame left right)
    (each : ∀ item leftHere rightHere, track.Beside pairing frame leftHere rightHere →
      track.Concurs pairing frame (act item) leftHere (act item) rightHere fun _ _ _ _ => True) :
    track.Concurs pairing frame (items.forM act) left (items.forM act) right
      fun _ _ _ _ => True := by
  induction items generalizing left right with
  | nil => exact .pure beside trivial
  | cons item rest ih =>
    exact .bind (each item left right beside) fun _ _ _ _ onward _ => ih onward.toBeside

end Concurs

end Concurs

section Sites

variable {track} {frame : Frame} {α β : Type} {first : SiteM α} {second : SiteM β}
  {left right leftAfter rightAfter : Site} {var : VarId} {also : α → Site → Prop}
  {alsoRight : β → Site → Prop} {image imageRight : Option Sketch}

/-- Both sites have been drawn to sketches that match. -/
theorem Beside.onward (beside : track.Beside .ofSite frame left right)
    (drawn : left.Drawn image leftAfter) (drawnRight : right.Drawn imageRight rightAfter)
    (matches_ : ∀ after afterRight, image = some after → imageRight = some afterRight →
      track.MatchesFrom frame left.sketch after afterRight) :
    track.Onward .ofSite frame left leftAfter right rightAfter where
  soundLeft := drawn.sound
  soundRight := drawnRight.sound
  edits := drawnRight.edits.trans (beside.edits.trans drawn.edits.symm)
  matches_ := (matches_ _ _ drawn.image drawnRight.image).toMatches
  fits := trivial
  growsLeft := drawn.grows
  growsRight := drawnRight.grows
  within := (matches_ _ _ drawn.image drawnRight.image).within

/-- The variables are the same at both sites, but for their counters. -/
theorem Beside.slots {σ : Type} {pairing : Pairing σ} {left right : σ}
    (beside : track.Beside pairing frame left right) (var : VarId) :
    (pairing.site left).analysis.vars.slots var = (pairing.site right).analysis.vars.slots var :=
  (congrFun beside.matches_.slotsFirst var).trans (congrFun beside.matches_.slotsSecond var).symm

/-- A variable is registered at both sites or at neither. -/
theorem Beside.absent_iff (beside : track.Beside .ofSite frame left right) :
    right.analysis.vars.get? var = none ↔ left.analysis.vars.get? var = none := by
  have same : left.analysis.vars.slots var = right.analysis.vars.slots var := beside.slots var
  unfold Variables.slots at same
  rw [← Option.map_eq_none_iff, ← same, Option.map_eq_none_iff]

namespace Concurs

/-- Operations that fail over an unregistered variable only, and lead to sketches that match. -/
theorem of_refuses (beside : track.Beside .ofSite frame left right)
    (ends : Ends first left (fun value after => left.Drawn image after ∧ also value after)
      (left.Refuses var))
    (endsRight : Ends second right
      (fun value after => right.Drawn imageRight after ∧ alsoRight value after) (right.Refuses var))
    (unknown : left.analysis.vars.get? var = none → image = none)
    (unknownRight : right.analysis.vars.get? var = none → imageRight = none)
    (matches_ : ∀ after afterRight, image = some after → imageRight = some afterRight →
      track.MatchesFrom frame left.sketch after afterRight) :
    track.Concurs .ofSite frame first left second right fun value after other afterRight =>
      also value after ∧ alsoRight other afterRight := by
  refine abreast_of_ends ends endsRight ?_ ?_ ?_ ?_
  · exact fun _ _ _ _ here there => ⟨beside.onward here.1 there.1 matches_, here.2, there.2⟩
  · intro _ _ _ _ here there
    have nothing := unknown (beside.absent_iff.1 there.absent)
    cases nothing.symm.trans here.1.image
  · intro _ _ _ _ here there
    have nothing := unknownRight (beside.absent_iff.2 here.absent)
    cases nothing.symm.trans there.1.image
  · rintro _ _ _ _ ⟨rfl, rfl, -⟩ ⟨rfl, rfl, -⟩
    exact ⟨rfl, beside.edits, trivial⟩

/-- Operations that cannot fail, and lead to sketches that match. -/
theorem of_draws {after afterRight : Sketch} (beside : track.Beside .ofSite frame left right)
    (draws : Site.Draws first left (some after) also)
    (drawsRight : Site.Draws second right (some afterRight) alsoRight)
    (matches_ : track.MatchesFrom frame left.sketch after afterRight) :
    track.Concurs .ofSite frame first left second right fun value after other afterRight =>
      also value after ∧ alsoRight other afterRight := by
  refine abreast_of_ends draws drawsRight ?_
    (fun _ _ _ _ _ fell => absurd fell (Option.some_ne_none _))
    (fun _ _ _ _ fell _ => absurd fell (Option.some_ne_none _)) fun _ _ _ _ fell _ =>
    absurd fell (Option.some_ne_none _)
  refine fun _ _ _ _ here there => ⟨beside.onward here.1 there.1 ?_, here.2, there.2⟩
  rintro _ _ ⟨⟩ ⟨⟩
  exact matches_

/-- Looks at the same variable. -/
theorem of_looked (beside : track.Beside .ofSite frame left right)
    (ends : Ends first left (fun _ after => left.Looked var after) (left.Refuses var))
    (endsRight : Ends second right (fun _ after => right.Looked var after) (right.Refuses var)) :
    track.Concurs .ofSite frame first left second right fun _ _ _ _ => True := by
  have drawn : Ends first left (fun _ after => left.Drawn (left.sketch.look var) after ∧ True)
      (left.Refuses var) := ends.mono (fun _ _ looked => ⟨looked.drawn beside.soundLeft, trivial⟩)
    fun _ _ fell => fell
  have drawnRight : Ends second right
      (fun _ after => right.Drawn (right.sketch.look var) after ∧ True) (right.Refuses var) :=
    endsRight.mono (fun _ _ looked => ⟨looked.drawn beside.soundRight, trivial⟩)
      fun _ _ fell => fell
  refine (of_refuses beside drawn drawnRight (fun absent => ?_) (fun absent => ?_) fun _ _ =>
    beside.matches_.look).mono fun _ _ _ _ _ _ => trivial
  · exact Site.Refuses.look ⟨rfl, rfl, absent⟩ beside.soundLeft
  · exact Site.Refuses.look ⟨rfl, rfl, absent⟩ beside.soundRight

variable (beside : track.Beside .ofSite frame left right)
include beside

theorem currentVersion (var : VarId) :
    track.Concurs .ofSite frame (Site.currentVersion var) left (Site.currentVersion var) right
      fun _ _ _ _ => True :=
  of_looked beside
    ((Site.ends_currentVersion beside.soundLeft var).mono (fun _ _ told => told.2) fun _ _ fell =>
      fell) ((Site.ends_currentVersion beside.soundRight var).mono (fun _ _ told => told.2)
      fun _ _ fell => fell)

theorem read (var : VarId) :
    track.Concurs .ofSite frame (Site.read var) left (Site.read var) right fun _ _ _ _ => True :=
  of_looked beside (Site.ends_read beside.soundLeft var) (Site.ends_read beside.soundRight var)

theorem release (var : VarId) :
    track.Concurs .ofSite frame (Site.release var) left (Site.release var) right
      fun _ _ _ _ => True :=
  of_looked beside (Site.ends_release beside.soundLeft var)
    (Site.ends_release beside.soundRight var)

/-- Writes that leave the same, whatever the versions are. -/
theorem write (var : VarId) {origin : Version → Origin} (writes : Origin.IsWrite origin)
    {unbound : Bool} (leaves : ∀ previous, Traces.leavesUnbound (origin previous) = unbound) :
    track.Concurs .ofSite frame (Site.write var origin) left (Site.write var origin) right
      fun answer after other afterRight =>
      (answer.1 = left.scope.versionOf var ∧ left.Wrote var origin answer.2 after) ∧
        other.1 = right.scope.versionOf var ∧ right.Wrote var origin other.2 afterRight := by
  refine of_refuses beside ((Site.ends_write beside.soundLeft writes var).mono
    (fun _ _ told => ⟨told.2.drawn beside.soundLeft writes leaves, told⟩) fun _ _ fell => fell)
    ((Site.ends_write beside.soundRight writes var).mono
      (fun _ _ told => ⟨told.2.drawn beside.soundRight writes leaves, told⟩) fun _ _ fell => fell)
    (fun absent => ?_) (fun absent => ?_) fun _ _ => beside.matches_.write
  · exact Site.Refuses.write ⟨rfl, rfl, absent⟩ beside.soundLeft _
  · exact Site.Refuses.write ⟨rfl, rfl, absent⟩ beside.soundRight _

theorem assign (var : VarId) (node : NodeId) :
    track.Concurs .ofSite frame (Site.assign var node) left (Site.assign var node) right
      fun _ _ _ _ => True :=
  .bind (write beside var (Origin.isWrite_assigned node) fun _ => rfl) fun _ _ _ _ onward _ =>
    .pure onward.toBeside trivial

theorem forget (var : VarId) :
    track.Concurs .ofSite frame (Site.forget var) left (Site.forget var) right
      fun _ _ _ _ => True :=
  .bind (write beside var Origin.isWrite_unknown fun _ => rfl) fun _ _ _ _ onward _ =>
    .pure onward.toBeside trivial

theorem forgetAll (vars : List VarId) :
    track.Concurs .ofSite frame (Site.forgetAll vars) left (Site.forgetAll vars) right
      fun _ _ _ _ => True :=
  .forM beside fun var _ _ here => (forget here var).discard

/-- Behind a delete both logs tell the same of the variable before it, if deletes of it may be
cleared. -/
theorem delete (var : VarId) :
    track.Concurs .ofSite frame (Site.delete var) left (Site.delete var) right
      fun prior after other afterRight =>
      ∃ unbound unboundRight, after.analysis.traces.isSurelyUnbound prior = .ok unbound ∧
        afterRight.analysis.traces.isSurelyUnbound other = .ok unboundRight ∧
          (track.clears var → unboundRight = unbound) := by
  refine .bind (write beside var Origin.isWrite_unbound fun _ => rfl) ?_
  rintro ⟨prior, _⟩ after ⟨other, _⟩ afterRight onward ⟨⟨rfl, wrote⟩, rfl, wroteRight⟩
  have recorded := wrote.previous_mem Origin.isWrite_unbound
  have recordedRight := wroteRight.previous_mem Origin.isWrite_unbound
  refine .pure onward.toBeside ⟨_, _, wrote.sound.analysis.traces.isSurelyUnbound_eq recorded,
    wroteRight.sound.analysis.traces.isSurelyUnbound_eq recordedRight, fun clears => ?_⟩
  have stands := beside.soundLeft.stands_eq wrote.sound wrote.grows recorded
  have standsRight := beside.soundRight.stands_eq wroteRight.sound wroteRight.grows recordedRight
  exact Option.some.inj (standsRight.symm.trans ((beside.matches_.stands clears).trans stands))

theorem escapeAll :
    track.Concurs .ofSite frame Site.escapeAll left Site.escapeAll right fun _ _ _ _ => True :=
  (of_draws beside (Site.draws_escapeAll beside.soundLeft) (Site.draws_escapeAll beside.soundRight)
    beside.matches_.escape).mono fun _ _ _ _ _ _ => trivial

/-- The scope is parked, or refused, or passed over. -/
theorem exit (kind : ExitKind) :
    track.Concurs .ofSite frame
      (Site.scopeHere >>= fun scope => liftM (Analysis.recordExit kind scope)) left
      (Site.scopeHere >>= fun scope => liftM (Analysis.recordExit kind scope)) right
        fun _ _ _ _ => True := by
  have refused (site : Site) : Ends
      (Site.scopeHere >>= fun scope => liftM (Analysis.recordExit kind scope) : SiteM Unit) site
      (fun _ _ => True) fun fault after => fault = .strayExit kind ∧ after = site := by
    change Ends (liftM (Analysis.recordExit kind site.scope) : SiteM Unit) site _ _
    refine ends_liftAnalysis.2
      ((Analysis.ends_recordExit site.scope).mono (fun _ _ _ => trivial) ?_)
    rintro fault after ⟨rfl, rfl, -⟩
    exact ⟨rfl, rfl⟩
  have ends := (Site.draws_exit beside.soundLeft kind).and (refused left)
  have endsRight := (Site.draws_exit beside.soundRight kind).and (refused right)
  rcases beside.matches_.exit kind with ⟨closed, closedRight⟩ |
    ⟨after, afterRight, taken, takenRight, matches_⟩
  · rw [closed] at ends
    rw [closedRight] at endsRight
    refine abreast_of_ends ends endsRight ?_ ?_ ?_ ?_
    · exact fun _ _ _ _ here => absurd here.1.1.image nofun
    · exact fun _ _ _ _ here => absurd here.1.1.image nofun
    · exact fun _ _ _ _ _ there => absurd there.1.1.image nofun
    · rintro _ _ _ _ ⟨-, rfl, rfl⟩ ⟨-, rfl, rfl⟩
      exact ⟨rfl, beside.edits, trivial⟩
  · have draws := Site.draws_exit beside.soundLeft kind
    have drawsRight := Site.draws_exit beside.soundRight kind
    rw [taken] at draws
    rw [takenRight] at drawsRight
    exact (of_draws beside draws drawsRight matches_).mono fun _ _ _ _ _ _ => trivial

/-- What was collected at exits of a kind is taken out. What was parked at breaks matches
pairwise. -/
theorem takeExits {caught : Catch} {kind : ExitKind} (catches : caught.catches kind = true) :
    track.Concurs .ofSite frame (liftM (Analysis.takeExits caught kind)) left
      (liftM (Analysis.takeExits caught kind)) right
      fun paths after others afterRight => (∀ path ∈ paths, path.Backed after.analysis.traces) ∧
        (∀ path ∈ others, path.Backed afterRight.analysis.traces) ∧
        (kind = .brk →
          List.Forall₂ (track.Paths frame.floor) (paths.map (·.outline after.analysis.traces))
          (others.map (·.outline afterRight.analysis.traces))) := by
  have draws {site : Site} (sound : site.Sound) :=
    (Site.draws_takeExits sound catches).and_gives (holds_takeExits caught kind sound).gives
  have taken {site : Site} (sound : site.Sound) : Site.Draws
      (liftM (Analysis.takeExits caught kind)) site (some (site.sketch.take kind))
      fun paths after =>
        paths.map (·.outline after.analysis.traces) = (site.sketch.exits kind).getD [] ∧
        ∀ path ∈ paths, path.Backed after.analysis.traces :=
    (draws sound).mono (fun _ _ told => ⟨told.1.1, told.1.2, fun path mem => (told.2.2 path mem).2⟩)
      fun _ _ fell => fell
  refine (of_draws beside (taken beside.soundLeft) (taken beside.soundRight)
    (beside.matches_.take kind)).mono ?_
  rintro paths after others afterRight - ⟨⟨told, backed⟩, toldRight, backedRight⟩
  refine ⟨backed, backedRight, ?_⟩
  rintro rfl
  rw [told, toldRight]
  have same := (beside.matches_.openedSecond .brk).trans (beside.matches_.openedFirst .brk).symm
  have rows := beside.matches_.breaks
  dsimp only [Pairing.ofSite, id] at same rows
  cases parked : left.sketch.exits .brk with
  | some paths =>
    rw [parked] at same
    obtain ⟨others, parkedRight⟩ := Option.isSome_iff_exists.1 same
    rw [parkedRight]
    exact rows paths parked others parkedRight
  | none =>
    rw [parked] at same
    rw [Option.not_isSome_iff_eq_none.1 (ne_true_of_eq_false same)]
    exact .nil

/-- Paths to one point are joined that match pairwise and have looked at what the scope has looked
at. -/
theorem join {paths others : List Scope} (some_ : paths ≠ [])
    (backed : ∀ path ∈ paths, path.Backed left.analysis.traces)
    (backedRight : ∀ path ∈ others, path.Backed right.analysis.traces)
    (levels : List.Forall₂ track.Level (paths.map (·.outline left.analysis.traces))
      (others.map (·.outline right.analysis.traces)))
    (within : ∀ path ∈ paths, left.sketch.scope.Within (path.outline left.analysis.traces)) :
    track.Concurs .ofSite frame (Site.join paths) left (Site.join others) right
      fun _ _ _ _ => True := by
  have someRight : others ≠ [] := by
    rintro rfl
    exact some_ (List.map_eq_nil_iff.1 (List.forall₂_nil_right_iff.1 levels))
  have matches_ := beside.matches_.join (by simpa using some_) levels (List.forall_mem_map.2 within)
  exact (of_draws beside (Site.draws_join beside.soundLeft some_ backed)
    (Site.draws_join beside.soundRight someRight backedRight) matches_).mono
    fun _ _ _ _ _ _ => trivial

end Concurs

end Sites

end Track

end ValueFlow
