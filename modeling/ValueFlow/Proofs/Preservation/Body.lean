import ValueFlow.Proofs.Account.Closing
import ValueFlow.Proofs.Preservation.Walks

/-!
# A pass preserves what a body does

Whatever a pass makes of a body, dead code removed, blocks put into one another, conditionals
decided, loops trimmed, deletes left out, what is left does what the body did
(`walkBody_preserves`): in every world, and from every store in which the body may be entered, the
same can be seen of both.
-/

namespace ValueFlow
set_option autoImplicit false

namespace Walk

variable {arena : Arena} {body : NodeId} {code : Code} {left : Option NodeId} {after : Walk}

/-- What a pass over a body leaves of it does what the body does. -/
theorem walkBody_preserves (kind : BodyKind) (vars : Variables) (options : Options) (tree : arena.IsTree body code)
    (tolerated : ∀ var ∈ code.tolerated, vars.IsPrivate var)
    (walked : walkBody kind body ⟨.forBody kind vars options, arena⟩ = .ok left after) :
    ∃ newCode, after.arena.Shows (.maybe .stmt left) newCode ∧ newCode.ids.Nodup ∧
      ∀ (world : World ⟨vars, options⟩) (store : Store), vars.OnEntry store →
        Behaviour.Alike (code.runs world) (newCode.runs world) store := by
  obtain ⟨newCode, notes, rewrote⟩ := bodyRewrote_of_walkBody kind vars options tree walked
  obtain ⟨last, breaks, account⟩ := rewrote.account
  refine ⟨newCode, rewrote.shows_, rewrote.nodup, fun world store onEntry => ?_⟩
  have sound := rewrote.sound.analysis.traces
  exact account.preserves world tolerated .entry store (Ledger.fits_entry sound)
    (Ledger.truthful_entry sound rewrote.grows.vars onEntry)

/-- A function of a parameter and a local: `del? x; loop { break }; return; p`. -/
def idleBody : Arena :=
  ⟨#[⟨.stmt (.delete 1 true none), ⟨0, 1⟩⟩, ⟨.stmt .brk, ⟨1, 2⟩⟩, ⟨.stmt (.block [1]), ⟨2, 3⟩⟩, ⟨.stmt (.loop (some 2)), ⟨3, 4⟩⟩,
    ⟨.stmt (.ret none), ⟨4, 5⟩⟩, ⟨.expr (.read 0 none), ⟨5, 6⟩⟩, ⟨.stmt (.effect 5), ⟨6, 7⟩⟩, ⟨.stmt (.block [0, 3, 4, 6]), ⟨7, 8⟩⟩]⟩

/-- The parameter and the local. -/
def idleVars : Variables := ⟨#[⟨"p", .parameter, false, .entry⟩, ⟨"x", .localSlot, false, .entry⟩]⟩

/-- The tree of the body. -/
def idleCode : Code :=
  .block 7 (.cons (.delete 0 1 true none) (.cons (.loop 3 (.block 2 (.cons (.brk 1) .nil)))
    (.cons (.ret 4 .nil) (.cons (.effect 6 (.read 5 0 none)) .nil))))

theorem idleBody_isTree : idleBody.IsTree 7 idleCode where
  shows_ := .block rfl
    (.cons (.delete rfl)
      (.cons (.loop rfl (.present (.block rfl (.cons (.brk rfl) .nil))))
        (.cons (.ret rfl .absent) (.cons (.effect rfl (.read rfl)) .nil))))
  nodup := by decide

/-- The delete, the loop and the dead read are removed, and nobody can tell. -/
theorem idleBody_preserved : ∃ left after,
    walkBody .functionBody 7 ⟨.forBody .functionBody idleVars {}, idleBody⟩ = .ok left after ∧
      after.arena.block? 7 = some [4] ∧ ∃ newCode, after.arena.Shows (.maybe .stmt left) newCode ∧ newCode.ids.Nodup ∧
        ∀ (world : World ⟨idleVars, {}⟩) (store : Store), idleVars.OnEntry store →
          Behaviour.Alike (idleCode.runs world) (newCode.runs world) store := by
  have ends : endsWith (walkBody .functionBody 7) ⟨.forBody .functionBody idleVars {}, idleBody⟩
      (fun _ after => after.arena.block? 7 == some [4]) = true := by
    decide +kernel
  obtain ⟨left, after, walked, told⟩ := exists_of_endsWith ends
  refine ⟨left, after, walked, by simpa using told, walkBody_preserves .functionBody idleVars {} idleBody_isTree ?_ walked⟩
  intro var mem
  obtain rfl : var = 1 := by simpa [idleCode, Code.tolerated] using mem
  rintro slot found
  obtain rfl : slot = ⟨"x", .localSlot, false, .entry⟩ := by simpa [idleVars, Variables.get?] using found.symm
  exact ⟨rfl, rfl⟩

end Walk

end ValueFlow
