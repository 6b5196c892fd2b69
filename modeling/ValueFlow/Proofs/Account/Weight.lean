import ValueFlow.Passes
import ValueFlow.Proofs.Account.Closing

/-!
# Passes end

A pass makes a body no heavier, and lighter if it gives a notice: each notice stands for some weight
that the tree has lost, for as soon as an answer that owes one is made, something of the tree is
gone, and whatever stands above stores what is left (`Walk.Pays`). So passes that start anew come to
an end, after no more than one for each unit of weight, and one more (`passes_lighten`).

The arena weighs a body by what its nodes refer to, whatever they are, while a walk knows the tree
that it unfolds to. What a walk leaves has no node of the wrong class, so it weighs what its tree
weighs. What the walk was given weighs at least that.
-/

namespace ValueFlow
set_option autoImplicit false

namespace Ledger

variable {ledger : Ledger} {code newCode : Code} {before after : Versions} {breaks : List Versions}

theorem isWhole_of_still {options : Options} (still : code.isStill options = true) :
    code.isWhole = true := by
  unfold Code.isStill at still
  split at still <;> first | rfl | cases still

/-- No node of the wrong class is left by a walk. -/
theorem Walks.isWhole (walks : ledger.Walks code before newCode after breaks) :
    newCode.isWhole = true := by
  induction walks with
  | still still => exact isWhole_of_still still
  | fold | read | delete | idle | constant | brk => rfl
  | call _ _ _ first second => simp [Code.isWhole, first, second]
  | eval _ _ ih | effect _ ih | known _ _ ih | ret _ ih | assign _ _ _ ih => exact ih
  | block _ ih => simpa using ih
  | through _ _ _ first second => simp [Code.isWhole_append, first, second]
  | dead _ _ ih => simp [Code.isWhole_append, Code.isWhole, ih]
  | unknown _ _ _ _ _ _ _ _ cond yes no => simp [Code.isWhole_choice, cond, yes, no]
  | loop _ _ _ ih => exact Code.isWhole_cycle _ (by rwa [Code.isWhole_trim])

end Ledger

namespace Walk

variable {kind : BodyKind} {vars : Variables} {options : Options} {arena : Arena}
  {walk after : Walk} {body : NodeId} {code newCode : Code} {left : Option NodeId}
  {notes : List Note}

/-- What is left of a body and the notices weigh no more together than the body did. -/
theorem BodyRewrote.weight_le
    (rewrote : BodyRewrote ⟨.forBody kind vars options, arena⟩ code after left newCode notes)
    (tree : arena.IsTree body code) :
    after.analysis.edits.size + after.arena.weight left ≤ arena.weight (some body) := by
  obtain ⟨last, breaks, account⟩ := rewrote.account
  have lighter : code.weight ≤ arena.weight (some body) :=
    Arena.Shows.weight_le (.present tree.shows_) tree.nodup
  have paid : after.analysis.edits.size + 0 + newCode.weight ≤ 0 + code.weight := rewrote.paid
  rw [rewrote.shows_.weight_eq rewrote.nodup account.isWhole]
  omega

/-- A pass over a tree makes it no heavier, and lighter if it gives a notice. -/
theorem weight_le_of_walkBody (tree : arena.IsTree body code)
    (walked : walkBody kind body ⟨.forBody kind vars options, arena⟩ = .ok left after) :
    after.arena.weight left ≤ arena.weight (some body) ∧
      (after.analysis.edits.isEmpty = false →
        after.arena.weight left < arena.weight (some body)) := by
  obtain ⟨newCode, notes, rewrote⟩ := bodyRewrote_of_walkBody kind vars options tree walked
  have paid := rewrote.weight_le tree
  refine ⟨Nat.le_trans (Nat.le_add_left _ _) paid, fun noticed => ?_⟩
  have some_ : 0 < after.analysis.edits.size := Array.size_pos_iff.2 fun none_ => by
    simp [EditLog.isEmpty, none_] at noticed
  omega

/-- A pass over a tree leaves a tree, or nothing. -/
theorem isTree_of_walkBody {node : NodeId} (tree : arena.IsTree body code)
    (walked : walkBody kind body ⟨.forBody kind vars options, arena⟩ = .ok (some node) after) :
    ∃ newCode, after.arena.IsTree node newCode := by
  obtain ⟨newCode, notes, rewrote⟩ := bodyRewrote_of_walkBody kind vars options tree walked
  exact ⟨newCode, rewrote.shows_.here, rewrote.nodup⟩

/-- A pass that is not the last one has given a notice, and left a body. -/
theorem next?_eq_some {report : PassReport} {next : NodeId} (goes : report.next? = some next) :
    report.answer = .ok (some next) ∧ report.after.analysis.edits.isEmpty = false := by
  unfold PassReport.next? at goes
  split at goes
  · rename_i node ended
    split at goes
    · cases goes
    · rename_i noticed
      exact ⟨goes ▸ ended, eq_false_of_ne_true noticed⟩
  · cases goes

/-- The first pass ended well and was not the last. -/
theorem walked_of_next? {next : NodeId} (goes : (runPass kind walk body).next? = some next) :
    walkBody kind body walk = .ok (some next) (runPass kind walk body).after ∧
      (runPass kind walk body).after.analysis.edits.isEmpty = false := by
  obtain ⟨ended, noticed⟩ := next?_eq_some goes
  refine ⟨?_, noticed⟩
  unfold runPass at ended ⊢
  cases walked : walkBody kind body walk with
  | ok node after =>
    rw [walked] at ended
    exact congrArg (EStateM.Result.ok · after) (Except.ok.inj ended)
  | error fault after =>
    rw [walked] at ended
    cases ended

/-- There are no more passes than are allowed. -/
theorem length_runPasses_le (kind : BodyKind) (renewal : Renewal) (limit : Nat) (walk : Walk)
    (body : NodeId) :
    (runPasses kind renewal limit walk body).length ≤ limit := by
  induction limit generalizing walk body with
  | zero => exact Nat.le_refl 0
  | succ limit ih =>
    unfold runPasses
    dsimp only
    split
    · exact Nat.succ_le_succ (ih _ _)
    · exact Nat.succ_le_succ (Nat.zero_le limit)

/-- As many passes as the body weighs, and one, are enough: to allow for more changes nothing. -/
theorem runPasses_enough {bound limit : Nat} (tree : walk.arena.IsTree body code)
    (light : walk.arena.weight (some body) ≤ bound) (enough : bound < limit) :
    runPasses kind .fresh limit walk body = runPasses kind .fresh (bound + 1) walk body := by
  induction bound generalizing walk body code limit with
  | zero =>
    obtain ⟨limit, rfl⟩ := Nat.exists_eq_succ_of_ne_zero (Nat.ne_of_gt enough)
    unfold runPasses
    dsimp only
    split
    · rename_i goes
      obtain ⟨walked, noticed⟩ := walked_of_next? goes
      have lighter := (weight_le_of_walkBody tree walked).2 noticed
      omega
    · rfl
  | succ bound ih =>
    obtain ⟨limit, rfl⟩ := Nat.exists_eq_succ_of_ne_zero (Nat.ne_of_gt (Nat.zero_lt_of_lt enough))
    unfold runPasses
    dsimp only
    split
    · rename_i goes
      obtain ⟨walked, noticed⟩ := walked_of_next? goes
      have lighter := (weight_le_of_walkBody tree walked).2 noticed
      obtain ⟨newCode, newTree⟩ := isTree_of_walkBody tree walked
      exact congrArg _ (ih newTree (by omega) (by omega))
    · rfl

/-- For every tree, kind of body, variables and options: a pass that starts anew and ends well
leaves a body that is no heavier, and lighter if the pass has given a notice. So passes that start
anew, each with what the one before has left, end after no more of them than the body weighs, and
one, however many are allowed. -/
theorem passes_lighten (kind : BodyKind) (vars : Variables) (options : Options) (tree : arena.IsTree body code) :
    (∀ left after, walkBody kind body ⟨.forBody kind vars options, arena⟩ = .ok left after →
      after.arena.weight left ≤ arena.weight (some body) ∧
        (after.analysis.edits.isEmpty = false → after.arena.weight left < arena.weight (some body))) ∧
    ∀ limit,
      (runPasses kind .fresh limit ⟨.forBody kind vars options, arena⟩ body).length ≤ arena.weight (some body) + 1 ∧
      (arena.weight (some body) < limit → runPasses kind .fresh limit ⟨.forBody kind vars options, arena⟩ body =
        runPasses kind .fresh (arena.weight (some body) + 1) ⟨.forBody kind vars options, arena⟩ body) := by
  have enough {limit : Nat} (more : arena.weight (some body) < limit) :
      runPasses kind .fresh limit ⟨.forBody kind vars options, arena⟩ body =
        runPasses kind .fresh (arena.weight (some body) + 1) ⟨.forBody kind vars options, arena⟩ body :=
    runPasses_enough tree (Nat.le_refl _) more
  refine ⟨fun left after walked => weight_le_of_walkBody tree walked, fun limit => ⟨?_, enough⟩⟩
  rcases Nat.lt_or_ge (arena.weight (some body)) limit with more | few
  · rw [enough more]
    exact length_runPasses_le ..
  · exact Nat.le_trans (length_runPasses_le ..) (Nat.le_succ_of_le few)

/-- The parameter of the body below. -/
def bareVars : Variables := ⟨#[⟨"p", .parameter, false, .entry⟩]⟩

/-- A body of which the condition is left: `if p { None }; 1`. -/
def bareBody : Arena :=
  ⟨#[⟨.expr (.read 0 none), ⟨0, 1⟩⟩, ⟨.expr (.builtin "None"), ⟨1, 2⟩⟩, ⟨.stmt (.effect 1), ⟨2, 3⟩⟩, ⟨.stmt (.branch 0 (some 2) none), ⟨3, 4⟩⟩,
    ⟨.expr (.literal (.int 1)), ⟨4, 5⟩⟩, ⟨.stmt (.effect 4), ⟨5, 6⟩⟩, ⟨.stmt (.block [3, 5]), ⟨6, 7⟩⟩]⟩

/-- The tree of the body. -/
def bareCode : Code :=
  .block 6 (.cons (.branch 3 (.read 0 0 none) (.effect 2 (.builtin 1 "None")) .nil) (.cons (.effect 5 (.literal 4 (.int 1))) .nil))

theorem bareBody_isTree : bareBody.IsTree 6 bareCode where
  shows_ := .block rfl
    (.cons (.branch rfl (.read rfl) (.present (.effect rfl (.builtin rfl))) .absent)
      (.cons (.effect rfl (.literal rfl)) .nil))
  nodup := by decide

/-- The name, the arm, the conditional and the last statement are removed. A new statement has the
condition, and the body weighs less all the same. -/
theorem bareBody_lightens : bareBody.IsTree 6 bareCode ∧ bareBody.weight (some 6) = 9 ∧
    (∃ left after, walkBody .functionBody 6 ⟨.forBody .functionBody bareVars {}, bareBody⟩ = .ok left after ∧
      after.arena.block? 6 = some [8] ∧ after.arena.weight left < bareBody.weight (some 6)) ∧
    ∀ limit, (runPasses .functionBody .fresh limit ⟨.forBody .functionBody bareVars {}, bareBody⟩ 6).length ≤ 10 := by
  have weight : bareBody.weight (some 6) = 9 := by decide
  have lighten := passes_lighten .functionBody bareVars {} bareBody_isTree
  have ends : endsWith (walkBody .functionBody 6) ⟨.forBody .functionBody bareVars {}, bareBody⟩
      (fun _ after => after.arena.block? 6 == some [8] && !after.analysis.edits.isEmpty) = true := by
    decide +kernel
  obtain ⟨left, after, walked, told⟩ := exists_of_endsWith ends
  obtain ⟨stands, noticed⟩ : after.arena.block? 6 = some [8] ∧ after.analysis.edits.isEmpty = false := by simpa using told
  exact ⟨bareBody_isTree, weight, ⟨left, after, walked, stands, (lighten.1 left after walked).2 noticed⟩,
    fun limit => by simpa only [weight] using (lighten.2 limit).1⟩

end Walk

end ValueFlow
