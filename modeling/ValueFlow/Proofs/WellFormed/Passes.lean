import ValueFlow.Passes
import ValueFlow.Proofs.WellFormed.Walk

/-!
# Passes over well-formed bodies succeed

A pass over a well-formed body does not fail, whatever was walked before in the same state, and what
it leaves of the body is well formed in its turn. So a row of passes ends because there is nothing
left to do, and never because of a fault (`passes_succeed`).

Only two things are asked of the state that a pass starts in: it is sound, and the variables that
the body names are registered. Both hold of a new state, and after every pass over a well-formed
body.
-/

namespace ValueFlow
set_option autoImplicit false

/-- The site of a body before its first pass, and after passes over well-formed bodies in any
arenas. -/
inductive Site.AfterPasses (kind : BodyKind) (vars : Variables) (options : Options) : Site → Prop
  | fresh : AfterPasses kind vars options (.forBody kind vars options)
  | walked {site : Site} {arena : Arena} {body : NodeId} {left : Option NodeId} {after : Walk} (before : AfterPasses kind vars options site)
      (wellFormed : arena.WellFormed site.analysis.vars body) (reached : Walk.walkBody kind body ⟨site, arena⟩ = .ok left after) :
      AfterPasses kind vars options after.toSite
  | cleared {site : Site} (before : AfterPasses kind vars options site) :
      AfterPasses kind vars options { site with analysis := { site.analysis with edits := .empty } }

/-- A sound site walks a well-formed body to its end, and stays sound. -/
theorem Site.Sound.walks {site : Site} (sound : site.Sound) (kind : BodyKind) {arena : Arena}
    {body : NodeId} (wellFormed : arena.WellFormed site.analysis.vars body) :
    ∃ left after, Walk.walkBody kind body ⟨site, arena⟩ = .ok left after ∧ after.toSite.Sound ∧
      ∀ node ∈ left, after.arena.WellFormed after.analysis.vars node := by
  obtain ⟨layout, laid, place, outside⟩ := wellFormed.laid
  have fits : Walk.Fits layout ⟨site, arena⟩ := ⟨sound, laid⟩
  obtain ⟨left, after, reached, newer, onward, replaces⟩ :=
    (Walk.succeeds_walkBody kind fits place fun inside => absurd outside inside).exists_ok
  exact ⟨left, after, reached, onward.site.sound,
    fun node mem => onward.laid.wellFormed (replaces node mem).place
    ((replaces node mem).outside outside)⟩

theorem Site.AfterPasses.sound {kind : BodyKind} {vars : Variables} {options : Options}
    {site : Site} (before : site.AfterPasses kind vars options) : site.Sound := by
  induction before with
  | fresh => exact Site.sound_forBody kind vars options
  | walked _ wellFormed reached sound =>
    obtain ⟨left, after, again, soundAfter, -⟩ := sound.walks kind wellFormed
    cases reached.symm.trans again
    exact soundAfter
  | cleared _ sound => exact ⟨sound.analysis.unseen .empty _, sound.scope⟩

/-- A pass starts at a sound site over the same arena and variables. -/
theorem Walk.sound_renew {walk : Walk} (sound : walk.toSite.Sound) (kind : BodyKind)
    (renewal : Renewal) :
    (walk.renew kind renewal).toSite.Sound := by
  cases renewal with
  | fresh => exact Site.sound_forBody kind _ _
  | reused => exact ⟨sound.analysis.unseen .empty _, sound.scope⟩

/-- No report of a row of passes tells of a fault. -/
theorem runPasses_succeed {kind : BodyKind} {renewal : Renewal} {limit : Nat} {walk : Walk}
    {body : NodeId} (sound : walk.toSite.Sound)
    (wellFormed : walk.arena.WellFormed walk.analysis.vars body) :
    ∀ report ∈ runPasses kind renewal limit walk body, ∃ left, report.answer = .ok left ∧
      ∀ node ∈ left, report.after.arena.WellFormed report.after.analysis.vars node := by
  induction limit generalizing walk body with
  | zero => nofun
  | succ limit ih =>
    have renewed : (walk.renew kind renewal).arena.WellFormed
        (walk.renew kind renewal).analysis.vars body := by
      cases renewal <;> exact wellFormed
    obtain ⟨left, after, reached, soundAfter, wellFormedAfter⟩ :=
      (walk.sound_renew sound kind renewal).walks kind renewed
    have report : runPass kind (walk.renew kind renewal) body = ⟨.ok left, after⟩ := by
      unfold runPass
      rw [reached]
    intro other mem
    unfold runPasses at mem
    rw [report] at mem
    have here : ∃ left', (⟨.ok left, after⟩ : PassReport).answer = .ok left' ∧
        ∀ node ∈ left', after.arena.WellFormed after.analysis.vars node :=
          ⟨left, rfl, wellFormedAfter⟩
    dsimp only at mem
    split at mem
    · rename_i next goes
      rcases List.mem_cons.1 mem with rfl | later
      · exact here
      · refine ih soundAfter (wellFormedAfter next ?_) other later
        unfold PassReport.next? at goes
        dsimp only at goes
        split at goes
        · cases goes
        · exact goes
    · rw [List.mem_singleton.1 mem]
      exact here

/-- From the site of a new root, or of one that has seen passes over well-formed bodies, the pass
over a well-formed body does not fail and leaves a well-formed body; and so does every pass of a row
of passes, whether each starts anew or goes on in the state of the one before. -/
theorem passes_succeed {kind : BodyKind} {vars : Variables} {options : Options} {site : Site} (before : site.AfterPasses kind vars options)
    {arena : Arena} {body : NodeId} (wellFormed : arena.WellFormed site.analysis.vars body) :
    (∃ left after, Walk.walkBody kind body ⟨site, arena⟩ = .ok left after ∧ after.toSite.AfterPasses kind vars options ∧
      ∀ node ∈ left, after.arena.WellFormed after.analysis.vars node) ∧
    ∀ renewal limit, ∀ report ∈ runPasses kind renewal limit ⟨site, arena⟩ body, ∃ left, report.answer = .ok left ∧
      ∀ node ∈ left, report.after.arena.WellFormed report.after.analysis.vars node := by
  obtain ⟨left, after, reached, -, wellFormedAfter⟩ := before.sound.walks kind wellFormed
  exact ⟨⟨left, after, reached, .walked before wellFormed reached, wellFormedAfter⟩,
    fun renewal limit => runPasses_succeed before.sound wellFormed⟩

/-- The parameter and the local of the loop below. -/
def leftVars : Variables := ⟨#[⟨"c", .parameter, false, .entry⟩, ⟨"x", .maybeLocal (some 0), false, .entry⟩]⟩

/-- A loop that is left by a break: `loop { if c { break }; x; del x }`. -/
def leftBody : Arena :=
  ⟨#[⟨.expr (.read 0 none), ⟨0, 1⟩⟩, ⟨.stmt .brk, ⟨1, 2⟩⟩, ⟨.stmt (.branch 0 (some 1) none), ⟨2, 3⟩⟩, ⟨.expr (.read 1 none), ⟨3, 4⟩⟩,
    ⟨.stmt (.effect 3), ⟨4, 5⟩⟩, ⟨.stmt (.delete 1 true none), ⟨5, 6⟩⟩, ⟨.stmt (.block [2, 4, 5]), ⟨6, 7⟩⟩, ⟨.stmt (.loop (some 6)), ⟨7, 8⟩⟩]⟩

theorem leftBody_wellFormed : leftBody.WellFormed leftVars 7 :=
  @Arena.wellFormed_of_ordered leftBody leftVars 7 (· == 7) rfl rfl (by decide +kernel)

/-- Passes over the loop succeed from the start, and again where the first one ended. -/
theorem leftBody_passes : (Site.forBody .functionBody leftVars {}).AfterPasses .functionBody leftVars {} ∧
    leftBody.WellFormed (Site.forBody .functionBody leftVars {}).analysis.vars 7 ∧
    ((∃ left after, Walk.walkBody .functionBody 7 ⟨.forBody .functionBody leftVars {}, leftBody⟩ = .ok left after ∧
      after.toSite.AfterPasses .functionBody leftVars {} ∧ ∀ node ∈ left, after.arena.WellFormed after.analysis.vars node) ∧
    ∀ renewal limit, ∀ report ∈ runPasses .functionBody renewal limit ⟨.forBody .functionBody leftVars {}, leftBody⟩ 7,
      ∃ left, report.answer = .ok left ∧ ∀ node ∈ left, report.after.arena.WellFormed report.after.analysis.vars node) :=
  ⟨.fresh, leftBody_wellFormed, passes_succeed .fresh leftBody_wellFormed⟩

end ValueFlow
