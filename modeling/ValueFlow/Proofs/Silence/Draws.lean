import ValueFlow.Proofs.Silence.Sketch

/-!
# The images of escapes, joins and exits

What the operations on several variables and on several scopes do to the sketch of a sound site. The
loss of listed variables is the loss of one after the other, so its image is found along the list. A
join asks every path for a variable that some path has looked at, as the image does.
-/

namespace ValueFlow
set_option autoImplicit false

namespace Sketch

variable {sketch : Sketch} {var : VarId} {unbound : Bool}

/-- What code elsewhere may rebind of the variables listed is no longer sure to be unbound. -/
def escapeOf (sketch : Sketch) (vars : List VarId) : Sketch where
  slots := sketch.slots
  options := sketch.options
  exits := sketch.exits
  scope var :=
    if var ∈ vars ∧ (sketch.slots var).any (·.mayBeRebound sketch.options) = true then some false else sketch.scope var

theorem standsIn_set (scope : Outline) (other : VarId) :
    (sketch.set var unbound).standsIn scope other = sketch.standsIn scope other :=
  rfl

theorem isSome_stands_set (other : VarId) (stands : (sketch.stands var).isSome) :
    ((sketch.set var unbound).stands other).isSome = (sketch.stands other).isSome := by
  unfold Sketch.stands
  rw [standsIn_set]
  unfold standsIn set
  dsimp only
  split
  · rename_i same
    rw [same]
    exact stands.symm
  · rfl

/-- Variables are forgotten one after the other. -/
theorem forget_cons (var : VarId) (vars : List VarId) :
    sketch.forget (var :: vars) = (sketch.write var false).bind (·.forget vars) := by
  unfold write
  cases stands : sketch.stands var with
  | none => simp [forget, stands]
  | some unbound =>
    have here : (sketch.stands var).isSome := by simp [stands]
    simp only [forget, Option.map_some, Option.bind_some, List.all_cons, here, Bool.true_and,
      isSome_stands_set _ here]
    congr 2
    simp only [set, List.mem_cons]
    congr 1
    funext other
    by_cases same : other = var <;> simp [same]

/-- Only which variables are forgotten counts. -/
theorem forget_congr {vars others : List VarId} (same : ∀ var, var ∈ vars ↔ var ∈ others) :
    sketch.forget vars = sketch.forget others := by
  have all : (vars.all fun var => (sketch.stands var).isSome) = others.all fun var =>
      (sketch.stands var).isSome := by
    rw [Bool.eq_iff_iff, List.all_eq_true, List.all_eq_true]
    exact forall_congr' fun var => by rw [same var]
  simp only [forget, all, same]

/-- What was taken out of the registries of a construct does not show behind it. -/
theorem leave_take {caught : Catch} {kind : ExitKind} (catches : caught.catches kind = true)
    (inner : Sketch) :
    sketch.leave caught (inner.take kind) = sketch.leave caught inner := by
  refine Sketch.ext rfl rfl rfl (funext fun other => ?_)
  simp only [leave, take]
  by_cases same : other = kind
  · rw [same, if_pos catches, if_pos catches]
  · rw [if_neg same]

end Sketch

namespace Site

variable {α β : Type} {site before after : Site} {act : SiteM α} {image : Option Sketch}
  {also : α → Site → Prop}

theorem Drawn.refl (sound : site.Sound) : site.Drawn (some site.sketch) site :=
  ⟨sound, .refl _, rfl, rfl⟩

theorem Drawn.trans {middle : Site} {onward : Sketch → Option Sketch}
    (first : before.Drawn image middle) (second : middle.Drawn (onward middle.sketch) after) :
    before.Drawn (image.bind onward) after :=
  ⟨second.sound, first.grows.trans second.grows,
    second.edits.trans first.edits, by rw [first.image]; exact second.image⟩

theorem Draws.bind {next : α → SiteM β} {onward : Sketch → Option Sketch} {more : β → Site → Prop}
    (first : Draws act site image also)
    (rest : ∀ value after, after.Sound → also value after →
      Draws (next value) after (onward after.sketch) more) :
    Draws (act >>= next) site (image.bind onward) more := by
  refine ends_bind.2 (Ends.mono first ?_ fun _ _ fell => by rw [fell]; rfl)
  rintro value middle ⟨drawn, held⟩
  refine Ends.mono (rest value middle drawn.sound held)
    (fun _ _ told => ⟨drawn.trans told.1, told.2⟩) fun _ _ fell => ?_
  rw [drawn.image]
  exact fell

theorem draws_forgetAll (sound : site.Sound) (vars : List VarId) :
    Draws (forgetAll vars) site (site.sketch.forget vars) fun _ _ => True := by
  induction vars generalizing site with
  | nil =>
    have nothing : site.sketch.forget [] = some site.sketch := by simp [Sketch.forget]
    exact ⟨nothing ▸ .refl sound, trivial⟩
  | cons var vars ih =>
    rw [Sketch.forget_cons]
    have first : Draws (discard <| forget var) site (site.sketch.write var false) fun _ _ => True :=
      ends_discard.2 (draws_forget sound var)
    exact first.bind fun _ _ soundAfter _ => ih soundAfter

/-- An active variable escapes. -/
theorem draws_escape (sound : site.Sound) {var : VarId} (active : var ∈ site.scope.active) :
    Draws (escape var) site (some (site.sketch.escapeOf [var])) fun _ after =>
      site.scope.Within after.scope := by
  refine (ends_escape sound var).mono ?_ fun _ _ refuses => ?_
  · rintro _ after ⟨slot, found, outcome⟩
    have slots : site.sketch.slots var = some { slot with lastVersion := .entry } :=
      congrArg (Option.map _) found
    split at outcome
    · rename_i rebound
      obtain ⟨version, wrote⟩ := outcome
      have drawn := wrote.drawn sound Origin.isWrite_unknown fun _ => rfl
      obtain ⟨unbound, -, image⟩ := Option.map_eq_some_iff.1 drawn.image
      have within : site.scope.Within after.scope := wrote.scope ▸ Scope.within_setVersion _ _ _
      refine ⟨{ drawn with image := congrArg some ?_ }, within⟩
      have rebinds : (site.sketch.slots var).any (·.mayBeRebound site.sketch.options) = true := by
        rw [slots]
        exact rebound
      rw [← image]
      refine Sketch.ext rfl rfl (funext fun other => ?_) rfl
      by_cases same : other = var
      · subst same
        simp [Sketch.escapeOf, Sketch.set, rebinds]
      · simp [Sketch.escapeOf, Sketch.set, same]
    · rename_i kept
      subst outcome
      have keeps : (after.sketch.slots var).any (·.mayBeRebound after.sketch.options) ≠ true := by
        rw [slots]
        exact kept
      refine ⟨{ Drawn.refl sound with
        image := congrArg some (Sketch.ext rfl rfl (funext fun other => ?_) rfl) }, .refl _⟩
      by_cases same : other = var
      · subst same
        simp [Sketch.escapeOf, keeps]
      · simp [Sketch.escapeOf, same]
  · -- An active variable is registered.
    obtain ⟨version, held⟩ := Scope.mem_activeVars.1 (Std.ExtTreeMap.mem_keys.2 active)
    obtain ⟨slot, found, -⟩ := sound.analysis.traces.entry _ (sound.scope var version held)
    cases refuses.absent.symm.trans found

/-- Some active variables escape. -/
theorem draws_escapes (sound : site.Sound) {vars : List VarId}
    (active : ∀ var ∈ vars, var ∈ site.scope.active) :
    Draws (vars.forM escape) site (some (site.sketch.escapeOf vars)) fun _ _ => True := by
  induction vars generalizing site with
  | nil =>
    have nothing : site.sketch.escapeOf [] = site.sketch :=
      Sketch.ext rfl rfl (funext fun other => by simp [Sketch.escapeOf]) rfl
    exact ⟨nothing.symm ▸ .refl sound, trivial⟩
  | cons var vars ih =>
    have both : site.sketch.escapeOf (var :: vars) =
        (site.sketch.escapeOf [var]).escapeOf vars := by
      refine Sketch.ext rfl rfl (funext fun other => ?_) rfl
      simp only [Sketch.escapeOf, List.mem_cons, List.not_mem_nil, or_false]
      by_cases rebinds : (site.sketch.slots other).any (·.mayBeRebound site.sketch.options) = true
      · by_cases later : other ∈ vars <;> simp [rebinds, later]
      · simp [rebinds]
    have first := draws_escape sound (active var List.mem_cons_self)
    rw [both]
    change Draws (escape var >>= fun _ => vars.forM escape) site
      ((some _).bind fun middle : Sketch => some (middle.escapeOf vars)) _
    exact first.bind fun _ after soundAfter within => ih soundAfter fun other mem =>
      within other (active other (List.mem_cons_of_mem _ mem))

theorem draws_escapeAll (sound : site.Sound) :
    Draws escapeAll site (some site.sketch.escape) fun _ _ => True := by
  have escapes := draws_escapes sound fun var mem => Std.ExtTreeMap.mem_keys.1 mem
  have same : site.sketch.escape = site.sketch.escapeOf site.scope.activeVars := by
    refine Sketch.ext rfl rfl (funext fun var => ?_) rfl
    simp only [Sketch.escape, Sketch.escapeOf]
    split
    · rename_i rebinds
      cases active : site.scope.active[var]? with
      | some version =>
        rw [if_pos ⟨Scope.mem_activeVars.2 ⟨version, active⟩, rebinds⟩]
        simp [sketch, Scope.outline, active]
      | none =>
        rw [if_neg (by simp [Scope.mem_activeVars, active])]
        simp [sketch, Scope.outline, active]
    · rename_i keeps
      rw [if_neg fun both => keeps both.2]
  rw [same]
  exact escapes

section Joins

variable {paths : List Scope}

/-- The image of a path at a variable that some path has looked at. -/
theorem Joined.standsIn (joined : before.Joined paths [] after) (sound : before.Sound)
    (backed : ∀ path ∈ paths, path.Backed before.analysis.traces) {var : VarId}
    (seen : var ∈ Scope.varsOf paths) {path : Scope} (mem : path ∈ paths) :
    before.sketch.standsIn (path.outline before.analysis.traces) var =
      some (after.analysis.traces.unboundAt var (path.versionOf var)) := by
  refine sound.standsIn_eq joined.sound joined.grows (backed path mem) ?_
  exact Scope.mem_of_versionsOf joined.sound.analysis.traces
    (fun other held => (backed other held).extend joined.grows.traces) seen
    (Scope.mem_versionsOf.2 ⟨path, mem, rfl⟩)

/-- A variable is sure to be unbound behind a join if it is so on every path. -/
theorem Joined.unboundAt (joined : before.Joined paths [] after) (some : paths ≠ []) {var : VarId}
    {version : Version} (joins : after.analysis.traces.Joins paths var version) :
    after.analysis.traces.unboundAt var version = paths.all fun path =>
      after.analysis.traces.unboundAt var (path.versionOf var) := by
  rcases joins with agree | origin
  · obtain ⟨first, mem⟩ := List.exists_mem_of_ne_nil paths some
    rw [Bool.eq_iff_iff, List.all_eq_true]
    exact ⟨fun unbound path held => by rwa [agree path held],
      fun all => agree first mem ▸ all first mem⟩
  · rw [joined.sound.analysis.traces.unboundAt_joined origin, Bool.eq_iff_iff, List.all_eq_true,
      List.all_eq_true]
    simp only [Scope.mem_versionsOf]
    exact ⟨fun all path held => all _ ⟨path, held, rfl⟩, fun all version ⟨path, held, same⟩ =>
      same ▸ all path held⟩

theorem Joined.sketch (joined : before.Joined paths [] after) (sound : before.Sound)
    (several : 2 ≤ paths.length) (backed : ∀ path ∈ paths, path.Backed before.analysis.traces) :
    before.sketch.join (paths.map (·.outline before.analysis.traces)) = after.sketch := by
  rw [sound.sketch_eq joined.sound joined.grows joined.logOnly.exits]
  have some_ : paths ≠ [] := by
    rintro rfl
    cases several
  rw [Sketch.join_eq]
  refine Sketch.ext rfl rfl (funext fun var => ?_) rfl
  have asked : ((paths.map (·.outline before.analysis.traces)).any fun path => (path var).isSome) =
      true ↔ var ∈ Scope.varsOf paths := by
    rw [List.any_map, List.any_eq_true, Scope.mem_varsOf]
    refine exists_congr fun path => and_congr_right fun _ => ?_
    rw [Scope.mem_activeVars, ← Option.isSome_iff_exists]
    simp [Scope.outline]
  dsimp only
  rw [Sketch.join_several (by simpa using several)]
  by_cases seen : var ∈ Scope.varsOf paths
  · obtain ⟨version, active, joins⟩ := joined.done var seen List.not_mem_nil
    have told : after.scope.outline after.analysis.traces var =
        some (after.analysis.traces.unboundAt var version) := congrArg (Option.map _) active
    rw [if_pos (asked.2 seen), told, joined.unboundAt some_ joins, List.all_map]
    refine congrArg some (Bool.eq_iff_iff.2 ?_)
    rw [List.all_eq_true, List.all_eq_true]
    refine forall₂_congr fun path mem => ?_
    rw [Function.comp_apply, joined.standsIn sound backed seen mem]
    rfl
  · rw [if_neg fun held => seen (asked.1 held)]
    simp [Scope.outline, joined.untouched var seen]

/-- A join of some paths is the join of what they tell. -/
theorem draws_join (sound : site.Sound) (some : paths ≠ [])
    (backed : ∀ path ∈ paths, path.Backed site.analysis.traces) :
    Draws (join paths) site
      (Option.some (site.sketch.join (paths.map (·.outline site.analysis.traces))))
      fun _ _ => True := by
  refine (ends_join sound some backed).mono ?_ fun _ _ impossible => impossible.elim
  rintro _ after (⟨path, rfl, rfl⟩ | ⟨several, joined⟩)
  · refine ⟨⟨⟨sound.analysis, sound.scope.adopt (backed path List.mem_cons_self)⟩, .refl _, rfl,
      congrArg Option.some ?_⟩, trivial⟩
    refine Sketch.ext rfl rfl (funext fun var => ?_) rfl
    simp only [List.map_cons, List.map_nil, Sketch.join, sketch, Scope.outline]
    rw [Scope.getElem?_adopt]
    cases path.active[var]? <;> rfl
  · exact ⟨⟨joined.sound,
      joined.grows, by
      rw [joined.logOnly], congrArg Option.some (joined.sketch sound several backed)⟩, trivial⟩

end Joins

section Exits

variable {kind : ExitKind}

/-- What the sketch has of the scopes parked at exits of a kind. -/
theorem sketch_exits (site : Site) (kind : ExitKind) :
    site.sketch.exits kind = (site.analysis.exits.get kind).map
      (·.map (·.outline site.analysis.traces)) := rfl

theorem draws_exit (sound : site.Sound) (kind : ExitKind) :
    Draws (scopeHere >>= fun scope => liftM (Analysis.recordExit kind scope)) site
      (site.sketch.exit kind) fun _ _ => True := by
  change Ends (liftM (Analysis.recordExit kind site.scope) : SiteM Unit) site _ _
  rw [ends_liftAnalysis]
  refine (Analysis.ends_recordExit site.scope).mono ?_ ?_
  · rintro _ after (⟨snapshots, opened, rfl⟩ | ⟨closed, rfl, rfl⟩)
    · refine ⟨⟨⟨sound.analysis.parkOne opened sound.scope _, sound.scope⟩, .withSnapshots _ _ _,
        rfl, ?_⟩, trivial⟩
      have parked : site.sketch.exits kind =
          some (snapshots.map (·.outline site.analysis.traces)) := by rw [sketch_exits, opened]; rfl
      rw [Sketch.exit_of_open parked]
      refine congrArg some (Sketch.ext rfl rfl rfl (funext fun other => ?_))
      rw [sketch_exits]
      dsimp only [Sketch.park]
      rw [Analysis.get_withSnapshots]
      split
      · rw [Option.map_some, List.map_append]
        rfl
      · rfl
    · refine ⟨{ Drawn.refl sound with image := ?_ }, trivial⟩
      have none_ : site.sketch.exits .ret = none := by rw [sketch_exits, closed]; rfl
      simp [Sketch.exit, none_]
  · rintro fault after ⟨-, -, closed, notReturn⟩
    have none_ : site.sketch.exits kind = none := by rw [sketch_exits, closed]; rfl
    unfold Sketch.exit
    rw [none_]
    cases kind with
    | ret => exact absurd rfl notReturn
    | _ => rfl

theorem draws_takeExits (sound : site.Sound) {caught : Catch}
    (catches : caught.catches kind = true) :
    Draws (liftM (Analysis.takeExits caught kind)) site (some (site.sketch.take kind))
      fun snapshots after =>
      snapshots.map (·.outline after.analysis.traces) = (site.sketch.exits kind).getD [] := by
  refine ends_liftAnalysis.2
    ((Analysis.ends_takeExits caught).mono ?_ fun _ _ impossible => impossible.elim)
  rintro snapshots after (⟨-, opened, rfl⟩ | ⟨rfl, closed, rfl⟩)
  · have parked : site.sketch.exits kind =
        some (snapshots.map (·.outline site.analysis.traces)) := by rw [sketch_exits, opened]; rfl
    refine ⟨⟨⟨sound.analysis.park (by simp), sound.scope⟩, .withSnapshots _ _ _, rfl,
      ?_⟩, by rw [parked]; rfl⟩
    refine congrArg some (Sketch.ext rfl rfl rfl (funext fun other => ?_))
    rw [sketch_exits]
    simp only [Sketch.take]
    rw [Analysis.get_withSnapshots, parked]
    split <;> rfl
  · have none_ : site.sketch.exits kind = none := by rw [sketch_exits, closed catches]; rfl
    refine ⟨{ Drawn.refl sound with
      image := congrArg some (Sketch.ext rfl rfl rfl (funext fun other => ?_)) }, by rw [none_]; rfl⟩
    simp only [Sketch.take, none_]
    split
    · rename_i same
      rw [same, none_]
      rfl
    · rfl

/-- Behind a construct the registries around it are back. -/
theorem Sound.sketch_leave (sound : before.Sound) {caught : Catch} (later : after.Sound)
    (grows : (before.analysis.inside caught).Grows after.analysis) :
    sketch ⟨after.scope, after.analysis.behind caught before.analysis.exits⟩ =
      before.sketch.leave caught after.sketch := by
  refine Sketch.ext rfl rfl rfl (funext fun kind => ?_)
  rw [sketch_exits]
  simp only [Analysis.behind, Exits.get_leave, Sketch.leave]
  split
  · rw [sketch_exits]
    cases opened : before.analysis.exits.get kind with
    | none => rfl
    | some paths =>
      refine congrArg some (List.map_congr_left fun path mem => ?_)
      exact (sound.analysis.parked kind paths opened path mem).outline_eq sound.analysis.traces
        later.analysis.traces grows.traces
  · rfl

/-- Behind a fork the scope is the one from before. -/
theorem Sound.sketch_beside (sound : before.Sound) (later : after.Sound)
    (grows : before.analysis.Grows after.analysis) :
    sketch { after with scope := before.scope } = before.sketch.beside after.sketch :=
  Sketch.ext grows.vars.slots grows.options
    (sound.scope.outline_eq sound.analysis.traces later.analysis.traces grows.traces) rfl

theorem sketch_inside (site : Site) (caught : Catch) :
    sketch { site with analysis := site.analysis.inside caught } = site.sketch.inside caught := by
  refine Sketch.ext rfl rfl rfl (funext fun kind => ?_)
  rw [sketch_exits]
  simp only [Analysis.inside, Exits.get_enter, Sketch.inside]
  split <;> rfl

end Exits

end Site

end ValueFlow
