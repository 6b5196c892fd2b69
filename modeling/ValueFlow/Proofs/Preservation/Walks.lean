import ValueFlow.Proofs.Meaning.Alike
import ValueFlow.Proofs.Reaching.Latest

/-!
# What is left does the same

What a walk leaves of a tree does what the tree does, wherever the versions fit and the store is as
the last writes have left it (`Walks.preserves`). Most rewrites are laws of behaviours. Two of them
hold by what is known: nothing runs behind a statement of which an aborting one is left, and a
tolerant delete that is sure to find its variable unbound does nothing.

The latter is asked of private variables only. Of a shared one the log does not know what the code
elsewhere does to it.
-/

namespace ValueFlow
set_option autoImplicit false

namespace Ledger

open Behaviour

variable (ledger : Ledger)

/-- Wherever the versions fit the last writes, and these the store, the two programs are alike. -/
def Preserves (before : Versions) (first second : Behaviour) : Prop :=
  ∀ last store, ledger.Fits before last → ledger.Truthful last store → Alike first second store

variable {ledger} {first second body newFirst newSecond newBody : Behaviour} {goes : Prop}
  {before middle after here : Versions} {breaks : List Versions} {id : NodeId}

namespace Preserves

theorem refl (before : Versions) (behaviour : Behaviour) :
    ledger.Preserves before behaviour behaviour :=
  fun _ store _ _ => .refl behaviour store

theorem seq (guides : ledger.Guides ledger.lastWrites first before goes middle breaks)
    (preserves : ledger.Preserves before first newFirst)
    (preservesNext : ledger.Preserves middle second newSecond) :
    ledger.Preserves before (first.seq second) (newFirst.seq newSecond) := by
  intro last store fits truthful
  refine (preserves last store fits truthful).seq fun early storeMiddle run => ?_
  have follows := guides.follows fits run
  exact preservesNext _ _ (follows.done rfl).2 (follows.kept truthful)

theorem seq_of_not (guides : ledger.Guides ledger.lastWrites first before goes middle breaks)
    (stops : ¬ goes) (preserves : ledger.Preserves before first newFirst) :
    ledger.Preserves before (first.seq second) newFirst :=
  fun last store fits truthful => (preserves last store fits truthful).seq_of_not
    fun _ _ run => stops ((guides.follows fits run).done rfl).1

theorem either (preserves : ledger.Preserves before first newFirst)
    (preservesOther : ledger.Preserves before second newSecond) :
    ledger.Preserves before (first.either second) (newFirst.either newSecond) :=
  fun last store fits truthful => (preserves last store fits truthful).either
    (preservesOther last store fits truthful)

/-- At the head of every round the versions fit, and the store is as the last writes have left
it. -/
theorem loop {code : Code} {head foot : Versions} (forgets : ledger.Forgets code before head)
    (writes : body.Writes fun _ var => var ∈ code.targets)
    (guides : ledger.Guides ledger.lastWrites body head goes foot breaks)
    (preserves : ledger.Preserves head body newBody) :
    ledger.Preserves before (.Loop id body) (.Loop id newBody) := by
  intro last store fits truthful
  have atHead : ∀ moved : Versions, (∀ var ∉ code.targets, moved var = last var) →
      ledger.Fits head moved := fun moved same => fits.forgets forgets same
  have alike : ∀ store,
      (∃ moved : Versions, (∀ var ∉ code.targets, moved var = last var) ∧
        ledger.Truthful moved store) →
      Alike body newBody store := by
    rintro store ⟨moved, same, truthful⟩
    exact preserves moved store (atHead moved same) truthful
  refine .loop alike ?_ ⟨last, fun _ _ => rfl, truthful⟩
  · rintro store log ending after ⟨moved, same, truthful⟩ run -
    have follows := guides.follows (atHead moved same) run
    refine ⟨ledger.latest moved log, fun var unwritten => ?_, follows.kept truthful⟩
    rw [latest_of_not_written fun node mem => unwritten (writes.only run node var mem)]
    exact same var unwritten

end Preserves

/-- A tolerant delete of a private variable that is sure to be unbound does nothing. -/
theorem preserves_idle {id : NodeId} {var : VarId} (isPrivate : ledger.vars.IsPrivate var)
    (unbound : ledger.traces.AllLeaves var (here var) Traces.leavesUnbound) :
    ledger.Preserves here (World.unbinds id var true) .skip := by
  intro last store fits truthful
  have unboundHere : store var = false := by
    obtain ⟨leaf, below, told⟩ := fits var isPrivate
    obtain ⟨origin, recorded, leaves⟩ := unbound leaf below
    rcases told with ⟨previous, unknown⟩ | rfl
    · obtain rfl := Option.some.inj (recorded.symm.trans unknown)
      cases leaves
    · cases origin with
      | unbound previous => exact truthful var previous isPrivate recorded
      | _ => cases leaves
  have same : store.set var false = store := by
    funext other
    unfold Store.set
    split
    · rename_i eq
      rw [eq, unboundHere]
    · rfl
  refine alike_of_runs ?_ ?_
  · rintro log ending after (⟨rfl, rfl, rfl⟩ | ⟨rfl, reached, ⟨rfl, ends⟩, cut⟩)
    · exact ⟨[], skip_iff.2 ⟨rfl, rfl, .inr rfl⟩, rfl⟩
    · have isDone : reached = .done := by simpa using ends
      exact ⟨[], skip_iff.2 ⟨rfl, same, isDone ▸ cut⟩, rfl⟩
  · intro log ending after run
    obtain ⟨rfl, rfl, ends⟩ := skip_iff.1 run
    exact ⟨[.write id var], .inr ⟨rfl, .done, ⟨same.symm, by simp⟩, ends⟩, rfl⟩

/-- What a walk leaves of a tree does what the tree does, in any world. -/
theorem Walks.preserves {code newCode : Code}
    (walks : ledger.Walks code before newCode after breaks) (world : World ledger.toSetting)
    (tolerated : ∀ var ∈ code.tolerated, ledger.vars.IsPrivate var) :
    ledger.Preserves before (code.runs world) (newCode.runs world) := by
  induction walks with
  | still | read | delete | brk => exact .refl _ _
  | @fold id _ name _ _ known =>
    have constant : (Code.builtin id name).constant? ledger.options = some _ := known
    rw [Code.runs_of_constant constant]
    exact .refl _ _
  | call walkCallee walkArgs _ first second =>
    refine .seq (walkCallee.followsLastWrites world) (first ?_)
      (.seq (walkArgs.followsLastWrites world) (second ?_) (.refl _ _))
    · exact fun var mem => tolerated var (List.mem_append_left _ mem)
    · exact fun var mem => tolerated var (List.mem_append_right _ mem)
  | eval walkSource _ ih =>
    exact .seq (walkSource.followsLastWrites world) (ih tolerated) (.refl _ _)
  | block _ ih =>
    rw [Code.runs_wrap]
    exact ih tolerated
  | through walkHead _ _ first second =>
    rw [Code.runs_append, Code.runs_contents]
    refine .seq (walkHead.followsLastWrites world) (first ?_) (second ?_)
    · exact fun var mem => tolerated var (List.mem_append_left _ mem)
    · exact fun var mem => tolerated var (List.mem_append_right _ mem)
  | @dead _ _ newHead _ _ _ walkHead stops ih =>
    have nothing : (newHead.contents.append .nil).runs world = newHead.runs world := by
      rw [Code.runs_append, Code.runs_contents]
      exact seq_skip (newHead.cuttable world)
    rw [nothing]
    refine .seq_of_not (walkHead.followsLastWrites world) (by simp [stops]) (ih ?_)
    exact fun var mem => tolerated var (List.mem_append_left _ mem)
  | assign walkValue _ _ ih =>
    exact .seq (walkValue.followsLastWrites world) (ih tolerated) (.refl _ _)
  | idle _ _ unbound => exact preserves_idle (tolerated _ (List.mem_singleton_self _)) unbound
  | constant known =>
    rw [Code.runs, Code.runs_of_constant known]
    exact .refl _ _
  | effect _ ih => exact ih tolerated
  | known known _ ih =>
    rw [Code.runs_branch_known world _ known]
    refine ih fun var mem => tolerated var (List.mem_append_right _ ?_)
    split at mem
    · exact List.mem_append_left _ mem
    · exact List.mem_append_right _ mem
  | unknown walkCond unknown stays _ _ _ _ _ first second third =>
    rw [Code.runs_branch_unknown world _ unknown, Code.runs_choice world _ _ stays]
    refine .seq (walkCond.followsLastWrites world) (first ?_) (.either (second ?_) (third ?_))
    · exact fun var mem => tolerated var (List.mem_append_left _ mem)
    · exact fun var mem => tolerated var (List.mem_append_right _ (List.mem_append_left _ mem))
    · exact fun var mem => tolerated var (List.mem_append_right _ (List.mem_append_right _ mem))
  | @loop _ body _ _ _ _ _ _ forgets walkBody _ ih =>
    rw [Code.runs_cycle, Code.loop_trim]
    exact .loop forgets (body.writes_targets world)
      (walkBody.followsLastWrites world) (ih tolerated)
  | ret walkValue ih => exact .seq (walkValue.followsLastWrites world) (ih tolerated) (.refl _ _)

end Ledger

end ValueFlow
