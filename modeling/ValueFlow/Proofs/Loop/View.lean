import ValueFlow.Proofs.Exits
import ValueFlow.Walk.Statement

/-!
# What can be seen of a loop

The walk of a loop's body keeps only what it needs later. `viewLoop` is the same walk
(`walkLoopBody_eq`) and also answers with what it passes through: the scope and the state at the
head of the body, behind the loss of what the body writes, the scope at the foot, and the snapshots
taken at continues.
-/

namespace ValueFlow
set_option autoImplicit false

/-- The walk of a loop's body, seen from inside. -/
structure LoopView where
  node : Option NodeId
  head : Site
  foot : Scope
  breaks : List Scope
  continues : List Scope

namespace LoopView

/-- What the walk of the loop goes on with. -/
def answer (view : LoopView) : Option NodeId × List Scope := (view.node, view.breaks)

/-- The scopes in which control may come back to the head: those at continues, and the one at the
foot if control may run past the body. -/
def backEdges (view : LoopView) (arena : Arena) : List Scope :=
  view.continues ++ if view.node.any arena.isAborting then [] else [view.foot]

end LoopView

namespace Walk

variable {visit : NodeId → WalkM (Option NodeId)} {body : NodeId}

/-- Walks the body of a loop from its head on, where the site is the one given. -/
def viewFromHead (visit : NodeId → WalkM (Option NodeId)) (body : NodeId) (head : Site) : WalkM LoopView := do
  let node ← visit body
  let breaks ← Analysis.takeExits .byLoop .brk
  let continues ← Analysis.takeExits .byLoop .cont
  pure { node, head, foot := ← Site.scopeHere, breaks, continues }

/-- Walks the body of a loop, and answers with all that can be seen. -/
def viewLoop (visit : NodeId → WalkM (Option NodeId)) (body : NodeId) : WalkM LoopView := do
  let written := (← arenaHere).variablesWritten body
  let (view, _) ← inFork "loop" <| catching .byLoop do
    Site.forgetAll written
    viewFromHead visit body (← get).toSite
  pure view

/-- The walk of a loop's body is the one that is seen. -/
theorem walkLoopBody_eq : walkLoopBody visit body = LoopView.answer <$> viewLoop visit body := by
  funext walk
  have here (state : Walk) : (EStateM.get state : EStateM.Result Fault Walk Walk) =
      .ok state state := rfl
  unfold walkLoopBody viewLoop viewFromHead arenaHere inFork catching
  simp only [Functor.map, EStateM.map, Bind.bind, EStateM.bind, get, getThe, MonadStateOf.get, here,
    Pure.pure, EStateM.pure]
  cases (liftM (Site.forgetAll (walk.arena.variablesWritten body)) : WalkM Unit)
    { walk with scope := walk.scope.fork "loop",
                analysis := { walk.analysis with exits := walk.analysis.exits.enter .byLoop } } with
  | error fault after => rfl
  | ok _ start =>
    dsimp only
    cases visit body start with
    | error fault after => rfl
    | ok node after =>
      -- Taking out the continues shows in the inner registries only.
      have same :=
        Exits.leave_take (after.analysis.exits.take .byLoop .brk).2
          walk.analysis.exits .byLoop .cont
      exact congrArg
        (fun exits => EStateM.Result.ok (node, (after.analysis.exits.take .byLoop .brk).1)
          { after with scope := walk.scope, analysis := { after.analysis with exits } }) same.symm

/-- The walk of a loop's body is seen when it has ended well. -/
theorem viewLoop_of_walkLoopBody {walk after : Walk} {answer : Option NodeId × List Scope}
    (walked : walkLoopBody visit body walk = .ok answer after) :
    ∃ view, viewLoop visit body walk = .ok view after ∧ view.breaks = answer.2 := by
  rw [walkLoopBody_eq] at walked
  simp only [Functor.map, EStateM.map] at walked
  split at walked
  · rename_i view _ seen
    obtain ⟨rfl, rfl⟩ := EStateM.Result.ok.inj walked
    exact ⟨view, seen, rfl⟩
  · cases walked

/-- A walk that is seen loses first what the body writes, then goes on from the head, and behind the
loop the outer registries are back. -/
theorem fromHead_of_viewLoop {walk after : Walk} {view : LoopView}
    (walked : viewLoop visit body walk = .ok view after) :
    ∃ start last : Walk, start.arena = walk.arena ∧
      Site.forgetAll (walk.arena.variablesWritten body)
        ⟨walk.scope.fork "loop", walk.analysis.inside .byLoop⟩ =
        .ok ⟨⟩ start.toSite ∧
      viewFromHead visit body start.toSite start = .ok view last ∧
      after.analysis = last.analysis.behind .byLoop walk.analysis.exits ∧
        after.arena = last.arena := by
  have seen : Ends (viewLoop visit body) walk
      (fun view after => ∃ start last : Walk, start.arena = walk.arena ∧
      Site.forgetAll (walk.arena.variablesWritten body)
        ⟨walk.scope.fork "loop", walk.analysis.inside .byLoop⟩ = .ok ⟨⟩ start.toSite ∧
        viewFromHead visit body start.toSite start = .ok view last ∧
      after.analysis = last.analysis.behind .byLoop walk.analysis.exits ∧ after.arena = last.arena)
        fun _ _ => True := by
    unfold viewLoop arenaHere
    rw [ends_bind, ends_bind, ends_get, ends_pure, ends_bind, ends_inFork, ends_catching,
      ends_bind, ends_liftSite]
    refine (ends_reached _ _).mono (fun _ site forgotten => ?_) (fun _ _ _ => trivial)
    rw [ends_bind, ends_get]
    refine (ends_reached _ _).mono (fun view last onward => ?_) (fun _ _ _ => trivial)
    exact ⟨⟨site, walk.arena⟩, last, rfl, forgotten, onward, rfl, rfl⟩
  exact seen.of_ok walked

end Walk

end ValueFlow
