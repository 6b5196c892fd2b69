import ValueFlow.Exit.Registry

/-!
# Frames

The constructs that are open at a time, the innermost first, each with the snapshots it has
collected and not handed out yet. A snapshot goes to the innermost frame that catches its kind
(`Frames.deliver`), and a take empties the innermost frame of one kind (`Frames.handOut`). What the
registries hold can be read off the frames: the current ones are those of the innermost frames
(`Frames.registry`), and those that a construct has put aside are the ones of the frames around it
(`Frames.Guarded`).
-/

namespace ValueFlow
set_option autoImplicit false

/-- An open construct, with the snapshots of each kind that it has collected and not handed out. -/
structure Frame where
  caught : Catch
  collected : ExitKind → List Scope

/-- The open constructs, the innermost first. -/
abbrev Frames := List Frame

namespace Frame

/-- A construct that was just entered. -/
def opened (caught : Catch) : Frame := ⟨caught, fun _ => []⟩

/-- The frame takes those of the snapshots that are of a kind it catches. -/
def collect (frame : Frame) (snapshots : ExitKind → List Scope) : Frame where
  caught := frame.caught
  collected kind := if frame.caught.catches kind then frame.collected kind ++ snapshots kind else frame.collected kind

/-- The frame has handed out what it had collected of a kind. -/
def emptied (frame : Frame) (kind : ExitKind) : Frame where
  caught := frame.caught
  collected other := if other = kind then [] else frame.collected other

end Frame

/-- What is left of the snapshots for the constructs around one that catches some kinds. -/
def Catch.pass (caught : Catch) (snapshots : ExitKind → List Scope) : ExitKind → List Scope :=
  fun kind => if caught.catches kind then [] else snapshots kind

namespace Frames

/-- What the innermost construct that catches a kind has collected of it. -/
def registry : Frames → ExitKind → Option (List Scope)
  | [], _ => none
  | frame :: frames, kind => if frame.caught.catches kind then some (frame.collected kind) else registry frames kind

/-- Snapshots go to the innermost constructs that catch their kinds; those that no construct catches
go nowhere. -/
def deliver (snapshots : ExitKind → List Scope) : Frames → Frames
  | [] => []
  | frame :: frames => frame.collect snapshots :: deliver (frame.caught.pass snapshots) frames

/-- What the innermost construct hands out of a kind: nothing if it does not catch it. -/
def handedOut (kind : ExitKind) : Frames → List Scope
  | [] => []
  | frame :: _ => if frame.caught.catches kind then frame.collected kind else []

/-- The innermost construct has handed out what it had of a kind. -/
def handOut (kind : ExitKind) : Frames → Frames
  | [] => []
  | frame :: frames => frame.emptied kind :: frames

variable {frames : Frames} {kind : ExitKind}

theorem registry_deliver (snapshots : ExitKind → List Scope) :
    (frames.deliver snapshots).registry kind = (frames.registry kind).map
      (· ++ snapshots kind) := by
  induction frames generalizing snapshots with
  | nil => rfl
  | cons frame frames ih =>
    unfold deliver registry
    by_cases catches : frame.caught.catches kind = true
    · simp [Frame.collect, catches]
    · simp [Frame.collect, catches, ih, Catch.pass]

theorem deliver_nothing (frames : Frames) : frames.deliver (fun _ => []) = frames := by
  induction frames with
  | nil => rfl
  | cons frame frames ih =>
    have nothing : (frame.caught.pass fun _ => []) = fun _ => [] :=
      funext fun kind => by simp [Catch.pass]
    simp [deliver, Frame.collect, nothing, ih]

theorem deliver_deliver (early late : ExitKind → List Scope) (frames : Frames) :
    (frames.deliver early).deliver late = frames.deliver fun kind => early kind ++ late kind := by
  induction frames generalizing early late with
  | nil => rfl
  | cons frame frames ih =>
    have passed : (fun kind => frame.caught.pass early kind ++ frame.caught.pass late kind) =
        frame.caught.pass fun kind => early kind ++ late kind := by
      funext kind
      unfold Catch.pass
      split <;> rfl
    have collected : (frame.collect early).collect late = frame.collect fun kind =>
        early kind ++ late kind := by
      unfold Frame.collect
      congr 1
      funext kind
      dsimp only
      split <;> simp
    simp only [deliver, collected, ih, ← passed]
    rfl

theorem registry_handOut (other : ExitKind) :
    (frames.handOut kind).registry other =
      if other = kind ∧ (frames.head?.any (·.caught.catches kind)) = true then some [] else
        frames.registry other := by
  cases frames with
  | nil => simp [handOut]
  | cons frame frames =>
    unfold handOut registry
    by_cases same : other = kind
    · subst same
      by_cases catches : frame.caught.catches other = true <;> simp [Frame.emptied, catches]
    · simp [Frame.emptied, same]

/-- The registries that open constructs have put aside hold what the frames around them say. -/
def Guarded : Frames → List (Catch × Exits) → Prop
  | [], [] => True
  | frame :: frames, (caught, outer) :: guards =>
    frame.caught = caught ∧ (∀ kind, caught.catches kind = true → outer.get kind = registry frames kind) ∧ Guarded frames guards
  | _, _ => False

theorem Guarded.deliver {guards : List (Catch × Exits)} (guarded : frames.Guarded guards)
    (snapshots : ExitKind → List Scope) :
    (frames.deliver snapshots).Guarded guards := by
  induction frames generalizing guards snapshots with
  | nil => exact guarded
  | cons frame frames ih =>
    cases guards with
    | nil => exact guarded
    | cons guard guards =>
      obtain ⟨same, outer, rest⟩ := guarded
      refine ⟨same, fun kind catches => ?_, ih rest _⟩
      rw [registry_deliver, outer kind catches]
      simp [Catch.pass, same, catches]

end Frames

end ValueFlow
