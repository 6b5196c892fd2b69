import ValueFlow.Proofs.Arena.Bare
import ValueFlow.Proofs.Silence.Code
import ValueFlow.Proofs.Silence.Draws

/-!
# Silent and noisy parts of a walk

A part of a walk is foretold (`Walk.Tells`) if the image that its tree has among sketches says how
it ends. Where there is an image the part ends well and gives no notice, at a site with that sketch
and with the arena as described. Where there is none the part fails, or gives notice of an edit, or
leaves it to the part behind to do so.

A notice that was given stays given. So a part that follows a noisy one may do what it likes, as
long as it keeps to integrity and takes no notice back.
-/

namespace ValueFlow
set_option autoImplicit false

namespace Arena

/-- Nodes of some ids were changed at most, and none was added. Where there was nothing to splice
they were changed in their versions at most. -/
structure Stays (before : Arena) (ids : List NodeId) (flat : Prop) (after : Arena) : Prop where
  size : after.size = before.size
  span : ∀ id, after.span id = before.span id
  frame : ∀ id, id ∉ ids → after.node? id = before.node? id
  same : flat → ∀ id, (after.node? id).map Node.bare = (before.node? id).map Node.bare

/-- The spliced tree stands at the place, with any versions in it. -/
def ShowsFlat (arena : Arena) (place : Place) (code : Code) : Prop := ∃ newCode, arena.Shows place newCode ∧ newCode.bare = code.flat.bare

/-- A tree was spliced where it stands, and versions were noted in it. -/
structure Spliced (before : Arena) (code : Code) (after : Arena) (place : Place) : Prop
    extends Stays before code.ids (code.isFlat = true) after where
  shows_ : after.ShowsFlat place code

variable {before middle after arena : Arena} {place : Place} {id : NodeId} {code newCode : Code}
  {old more : List NodeId} {flat whole : Prop}

namespace Stays

theorem refl (arena : Arena) : arena.Stays old flat arena :=
  ⟨rfl, fun _ => rfl, fun _ _ => rfl, fun _ _ => rfl⟩

theorem trans (first : before.Stays old flat middle) (second : middle.Stays more whole after) :
    before.Stays (old ++ more) (flat ∧ whole) after where
  size := second.size.trans first.size
  span id := (second.span id).trans (first.span id)
  frame id free := by
    rw [List.mem_append, not_or] at free
    rw [second.frame id free.2, first.frame id free.1]
  same both id := (second.same both.2 id).trans (first.same both.1 id)

/-- More may count as changed, and less as flat. -/
theorem widen (stays : before.Stays old flat after) (sub : old ⊆ more) (less : whole → flat) :
    before.Stays more whole after :=
  { stays with
    frame := fun id free => stays.frame id fun mem => free (sub mem)
    same := fun held => stays.same (less held) }

/-- A tree beside the changed nodes stays. -/
theorem keep (stays : before.Stays old flat after) (shows_ : before.Shows place code)
    (apart : code.ids.Disjoint old) :
    after.Shows place code :=
  shows_.congr (Nat.le_of_eq stays.size.symm) fun id mem => stays.frame id (apart mem)

theorem stmt?_eq (stays : before.Stays old flat after) (free : id ∉ old) :
    after.stmt? id = before.stmt? id :=
  stmt?_congr (stays.frame id free)

theorem expr?_eq (stays : before.Stays old flat after) (free : id ∉ old) :
    after.expr? id = before.expr? id :=
  expr?_congr (stays.frame id free)

theorem mapStmt {stmt : Stmt} (found : arena.stmt? id = some stmt) (edit : Stmt → Stmt)
    (same : flat → (edit stmt).bare = stmt.bare) :
    arena.Stays [id] flat (arena.mapStmt id edit) where
  size := size_mapStmt _ _ _
  span other := span_mapStmt _ _ _ _
  frame other free := by rw [node?_mapStmt, if_neg (by simpa using free)]
  same held other := by
    rw [node?_mapStmt]
    split
    · rename_i here
      rw [here, found, stmt?_eq_some.1 found]
      exact congrArg (fun stmt => some (Node.stmt stmt)) (same held)
    · rfl

theorem mapExpr {expr : Expr} (found : arena.expr? id = some expr) (edit : Expr → Expr)
    (same : flat → (edit expr).bare = expr.bare) :
    arena.Stays [id] flat (arena.mapExpr id edit) where
  size := size_mapExpr _ _ _
  span other := span_mapExpr _ _ _ _
  frame other free := by rw [node?_mapExpr, if_neg (by simpa using free)]
  same held other := by
    rw [node?_mapExpr]
    split
    · rename_i here
      rw [here, found, expr?_eq_some.1 found]
      exact congrArg (fun expr => some (Node.expr expr)) (same held)
    · rfl

end Stays

/-- The node above was changed last. -/
theorem Stays.above (stays : before.Stays old flat middle)
    (edited : middle.Stays [id] whole after) :
    before.Stays (id :: old) (flat ∧ whole) after :=
  (stays.trans edited).widen (by simp) fun held => held

end Arena

namespace Code

variable {code newCode : Code}

/-- A tree that was spliced has no other ids. -/
theorem ids_sublist_of_flat (same : newCode.bare = code.flat.bare) :
    newCode.ids.Sublist code.ids := by
  rw [← ids_bare newCode, same, ids_bare]
  exact ids_flat_sublist code

/-- What a statement brings stands in front of what the ones behind it bring. -/
theorem bare_splice {head tail newHead newTail : Code} (first : newHead.bare = head.flat.bare)
    (second : newTail.bare = tail.flat.bare) :
    (newHead.contents.append newTail).bare = (cons head tail).flat.bare := by
  rw [flat, ← append_bare, ← append_bare, ← contents_bare, ← contents_bare, first, second]

theorem aborts_of_flat (same : newCode.bare = code.flat.bare) : newCode.aborts = code.aborts := by
  rw [← aborts_bare newCode, same, aborts_bare, aborts_flat]

end Code

namespace Arena

variable {before middle after : Arena} {place other : Place} {code tail : Code}
  {others : List NodeId} {flat : Prop}

/-- A spliced tree stays where other nodes are changed. -/
theorem ShowsFlat.keep (shows_ : middle.ShowsFlat place code)
    (stays : middle.Stays others flat after) (apart : code.ids.Disjoint others) :
    after.ShowsFlat place code := by
  obtain ⟨newCode, shows_, same⟩ := shows_
  exact ⟨newCode, stays.keep shows_ fun id mem held =>
    apart ((Code.ids_sublist_of_flat same).subset mem) held, same⟩

/-- It stays where a node is changed that is not in it. -/
theorem ShowsFlat.keep_of_free {id : NodeId} (shows_ : middle.ShowsFlat place code)
    (stays : middle.Stays [id] flat after) (free : id ∉ code.ids) : after.ShowsFlat place code :=
  shows_.keep stays fun _ mem held => free (List.mem_singleton.1 held ▸ mem)

/-- Where there is nothing to splice, a tree stays if nothing is done to it. -/
theorem Spliced.refl (shows_ : middle.Shows place code) (whole : code.flat = code) :
    middle.Spliced code middle place :=
  ⟨.refl _, code, shows_, by rw [whole]⟩

/-- What stands beside a spliced tree stays. -/
theorem Spliced.beside (spliced : before.Spliced code middle place)
    (shows_ : before.Shows other tail) (apart : code.ids.Disjoint tail.ids) :
    middle.Shows other tail :=
  spliced.keep shows_ (List.disjoint_symm apart)

/-- What is left of a tree stays beside the part that is walked next. -/
theorem Spliced.left (first : before.Spliced code middle place)
    (second : middle.Stays others flat after) (apart : code.ids.Disjoint others) :
    after.ShowsFlat place code :=
  first.shows_.keep second apart

end Arena

/-- Notice was given on the way, or is due. -/
structure Site.Noisy (before after : Site) (due : Prop) : Prop where
  sound : after.Sound
  grows : before.analysis.Grows after.analysis
  notice : before.analysis.edits.size < after.analysis.edits.size ∨ due

/-- A notice stays given. -/
theorem Site.Noisy.onward {before middle after : Site} {due : Prop}
    (noisy : before.Noisy middle False) (sound : after.Sound)
    (grows : middle.analysis.Grows after.analysis) : before.Noisy after due :=
  ⟨sound, noisy.grows.trans grows,
    .inl (Nat.lt_of_lt_of_le (noisy.notice.resolve_right id) grows.edits)⟩

/-- What went before a notice does not matter. -/
theorem Site.Noisy.before {earlier before after : Site} {due : Prop}
    (noisy : before.Noisy after False) (grows : earlier.analysis.Grows before.analysis) :
    earlier.Noisy after due :=
  ⟨noisy.sound, grows.trans noisy.grows,
    .inl (Nat.lt_of_le_of_lt grows.edits (noisy.notice.resolve_right id))⟩

theorem Site.noisy_signal {site : Site} (sound : site.Sound) (edit : Edit) (span : Span) :
    site.Noisy { site with analysis := { site.analysis with
      edits := site.analysis.edits.signal edit span } } False where
  sound := ⟨sound.analysis.unseen _ site.analysis.dynamicNames, sound.scope⟩
  grows := ⟨.refl _, .refl _, .refl _, rfl, EditLog.size_le_signal _ _ _⟩
  notice := .inl (Nat.lt_of_lt_of_eq (Nat.lt_succ_self _) (EditLog.size_signal _ _ _).symm)

namespace Walk

variable {α β : Type} {act : WalkM α} {walk : Walk} {image : Option Sketch}
  {stayed : α → Walk → Prop} {loud : α → Prop}

/-- A part of a walk that keeps to integrity, whatever stands in the arena. -/
def Steady (act : WalkM α) : Prop := integrity.Obeys integrity.ofWalk act

/-- A walk at a sound site is ready for integrity. -/
theorem ready_of_sound (sound : walk.toSite.Sound) : integrity.Ready integrity.ofWalk walk :=
  ⟨⟨sound.analysis, sound.scope⟩, Region.everything_encloses _⟩

theorem sound_of_ready (ready : integrity.Ready integrity.ofWalk walk) : walk.toSite.Sound :=
  ⟨ready.good.1, ready.good.2⟩

namespace Steady

theorem of_yields {given : α → Prop} (yields : integrity.Yields integrity.ofWalk act given) :
    Steady act :=
  fun walk ready => (yields walk ready).mono fun _ _ _ _ => trivial

theorem bind {next : α → WalkM β} (first : Steady act) (rest : ∀ value, Steady (next value)) :
    Steady (act >>= next) :=
  Discipline.Obeys.bind integrity_law first rest

theorem pure {value : α} : Steady (Pure.pure value) := Discipline.Yields.pure integrity_law trivial

theorem arenaHere_bind {next : Arena → WalkM α} (rest : ∀ arena, Steady (next arena)) :
    Steady (arenaHere >>= next) :=
  Discipline.Yields.arenaHere_bind fun arena _ => rest arena

theorem editStmt (id : NodeId) (edit : Stmt → Stmt) : Steady (Walk.editStmt id edit) :=
  .edit integrity_law fun _ _ => Region.everything_encloses _

theorem editExpr (id : NodeId) (edit : Expr → Expr) : Steady (Walk.editExpr id edit) :=
  .edit integrity_law fun _ _ => Region.everything_encloses _

theorem takeExits (caught : Catch) (kind : ExitKind) :
    Steady (liftM (Analysis.takeExits caught kind) : WalkM (List Scope)) := fun _ ready =>
  (Discipline.Holds.lift ready (holds_takeExits caught kind (sound_of_ready ready))).mono
    fun _ _ _ _ => trivial

theorem inFork {label : String} (steady : Steady act) :
    Steady (Walk.inFork label act) := fun walk ready =>
  (Discipline.Holds.inFork integrity_law ready
    (steady { walk with scope := walk.scope.fork label } ⟨integrity_law.fork label ready.good,
        ready.fits⟩)).mono fun _ _ _ _ => trivial

theorem holds (steady : Steady act) (sound : walk.toSite.Sound) :
    integrity.Holds integrity.ofWalk act walk fun _ _ => True :=
  steady walk (ready_of_sound sound)

end Steady

/-- The image says how a part of a walk ends: silent and as described, or else with a fault or with
a notice. -/
def Tells (act : WalkM α) (walk : Walk) (image : Option Sketch) (stayed : α → Walk → Prop) (loud : α → Prop) : Prop :=
  Ends act walk
    (fun value after => walk.toSite.Drawn image after.toSite ∧ stayed value after ∨ image = none ∧ walk.toSite.Noisy after.toSite (loud value))
    (fun _ _ => image = none)

/-- No answer leaves a notice to the part behind. -/
abbrev nothingDue : α → Prop := fun _ => False

namespace Tells

theorem mono {more : α → Walk → Prop} {louder : α → Prop}
    (tells : Tells act walk image stayed loud)
    (further : ∀ value after, walk.toSite.Drawn image after.toSite → stayed value after →
      more value after)
    (due : ∀ value, loud value → louder value) :
    Tells act walk image more louder :=
  Ends.mono tells
    (fun value after told =>
      told.imp (fun silent => ⟨silent.1, further value after silent.1 silent.2⟩) fun noisy =>
      ⟨noisy.1, { noisy.2 with notice := noisy.2.notice.imp_right (due value) }⟩)
    fun _ _ fell => fell

/-- Where there is no image, nothing is said of a silent end. -/
theorem of_none {other : α → Walk → Prop} (tells : Tells act walk none stayed loud) :
    Tells act walk none other loud :=
  tells.mono (fun _ _ drawn _ => absurd drawn.image nofun) fun _ held => held

theorem pure {value : α} (sound : walk.toSite.Sound) (held : stayed value walk) :
    Tells (Pure.pure value) walk (some walk.sketch) stayed loud :=
  .inl ⟨.refl sound, held⟩

/-- A part that fails has no image. -/
theorem throw {fault : Fault} : Tells (throw fault : WalkM α) walk none stayed loud := rfl

/-- An answer that is due a notice has no image. -/
theorem due {value : α} (sound : walk.toSite.Sound) (held : loud value) :
    Tells (Pure.pure value) walk none stayed loud :=
  .inr ⟨rfl, sound, .refl _, .inr held⟩

/-- A part that ends in any case well, and with an answer that is due a notice. -/
theorem of_holds (holds : integrity.Holds integrity.ofWalk act walk fun value _ => loud value) :
    Tells act walk none stayed loud :=
  Ends.mono holds
    (fun _ _ told => .inr ⟨rfl, sound_of_ready told.1.toReady, told.1.grows, .inr told.2⟩)
    fun _ _ _ => rfl

theorem arenaHere_bind {next : Arena → WalkM α} :
    Tells (arenaHere >>= next) walk image stayed loud ↔
      Tells (next walk.arena) walk image stayed loud :=
  Iff.rfl

theorem get_bind {next : Walk → WalkM α} :
    Tells (get >>= next) walk image stayed loud ↔ Tells (next walk) walk image stayed loud :=
  Iff.rfl

theorem fallback_bind {var : VarId} {next : Option VarId → WalkM α} :
    Tells (fallback? var >>= next) walk image stayed loud ↔
      Tells (next ((walk.analysis.vars.get? var).bind (·.storage.fallback?))) walk
        image stayed loud :=
  Iff.rfl

theorem scopeHere_bind {next : Scope → WalkM α} :
    Tells (liftM Site.scopeHere >>= next) walk image stayed loud ↔
      Tells (next walk.scope) walk image stayed loud :=
  Iff.rfl

theorem editStmt_bind {id : NodeId} {edit : Stmt → Stmt} {next : Unit → WalkM α} :
    Tells (editStmt id edit >>= next) walk image stayed loud ↔
    Tells (next ⟨⟩) { walk with arena := walk.arena.mapStmt id edit } image stayed loud :=
  Iff.rfl

theorem editExpr_bind {id : NodeId} {edit : Expr → Expr} {next : Unit → WalkM α} :
    Tells (editExpr id edit >>= next) walk image stayed loud ↔
    Tells (next ⟨⟩) { walk with arena := walk.arena.mapExpr id edit } image stayed loud :=
  Iff.rfl

theorem located {span : Span} :
    Tells (Walk.located span act) walk image stayed loud ↔ Tells act walk image stayed loud :=
  ends_located

theorem pushLike_bind {old : NodeId} {node : Node} {next : NodeId → WalkM α} :
    Tells (pushLike old node >>= next) walk image stayed loud ↔
    Tells (next walk.arena.size) { walk with arena := walk.arena.push node (walk.arena.span old) }
      image stayed loud :=
  Iff.rfl

theorem discard_bind {next : Unit → WalkM β} {last : β → Walk → Prop} {louder : β → Prop} :
    Tells (discard act >>= next) walk image last louder ↔
      Tells (act >>= fun _ => next ⟨⟩) walk image last louder := by
  unfold Tells
  rw [ends_bind, ends_discard, ends_bind]

/-- A part that ends where it started says only what it answers. -/
theorem bind_of_still {next : α → WalkM β} {last : β → Walk → Prop} {louder : β → Prop}
    {value : α} (still : act walk = .ok value walk) :
    Tells (act >>= next) walk image last louder ↔ Tells (next value) walk image last louder := by
  unfold Tells
  rw [ends_bind]
  unfold Ends
  rw [still]

/-- What comes next is foretold where the first part is silent. Where it is not, what comes next
only has to keep to integrity. -/
theorem bind_to {next : α → WalkM β} {target : Option Sketch} {given : α → Walk → Prop}
    {last : β → Walk → Prop} {louder : β → Prop} (first : Tells act walk image stayed nothingDue)
    (holds : integrity.Holds integrity.ofWalk act walk given)
    (steady : ∀ value after, integrity.Kept integrity.ofWalk walk after → given value after →
      integrity.Holds integrity.ofWalk (next value) after fun _ _ => True)
    (missing : image = none → target = none)
    (rest : ∀ value after, walk.toSite.Drawn image after.toSite → given value after →
      stayed value after → Tells (next value) after target last louder) :
    Tells (act >>= next) walk target last louder := by
  refine ends_bind.2 (Ends.mono (first.and_gives holds.gives) ?_ fun _ _ fell => missing fell)
  rintro value middle ⟨⟨drawn, held⟩ | ⟨none_, noisy⟩, kept, told⟩
  · refine Ends.mono (rest value middle drawn told held) ?_ fun _ _ fell => fell
    rintro answer after (⟨silent, held⟩ | ⟨none_, noisy⟩)
    · exact .inl ⟨⟨silent.sound, drawn.grows.trans silent.grows, silent.edits.trans drawn.edits,
        silent.image⟩, held⟩
    · exact .inr ⟨none_, noisy.sound, drawn.grows.trans noisy.grows, drawn.edits ▸ noisy.notice⟩
  · refine Ends.mono (steady value middle kept told) ?_ fun _ _ _ => missing none_
    exact fun _ after onward =>
      .inr ⟨missing none_, noisy.onward (sound_of_ready onward.1.toReady) onward.1.grows⟩

theorem bind {next : α → WalkM β} {onward : Sketch → Option Sketch} {last : β → Walk → Prop}
    {louder : β → Prop} (first : Tells act walk image stayed nothingDue)
    (sound : walk.toSite.Sound) (steady : Steady act) (steadyNext : ∀ value, Steady (next value))
    (rest : ∀ value after, walk.toSite.Drawn image after.toSite → stayed value after →
      Tells (next value) after (onward after.sketch) last louder) :
    Tells (act >>= next) walk (image.bind onward) last louder := by
  refine first.bind_to (steady.holds sound)
    (fun value after kept _ => steadyNext value after kept.toReady)
    (fun none_ => by rw [none_]; rfl) ?_
  intro value after drawn _ held
  rw [drawn.image]
  exact rest value after drawn held

/-- What comes next leaves the sketch as it is. -/
theorem bind_then {next : α → WalkM β} {last : β → Walk → Prop} {louder : β → Prop}
    (first : Tells act walk image stayed nothingDue) (sound : walk.toSite.Sound)
    (steady : Steady act) (steadyNext : ∀ value, Steady (next value))
    (rest : ∀ value after, walk.toSite.Drawn image after.toSite → stayed value after →
      Tells (next value) after (some after.sketch) last louder) :
    Tells (act >>= next) walk image last louder := by
  rw [← Option.bind_fun_some image]
  exact first.bind sound steady steadyNext rest

/-- The answer is changed. -/
theorem map {f : α → β} {last : β → Walk → Prop} {louder : β → Prop}
    (first : Tells act walk image stayed loud)
    (further : ∀ value after, after.toSite.Sound → stayed value after → last (f value) after)
    (due : ∀ value, loud value → louder (f value)) :
    Tells (act >>= fun value => Pure.pure (f value)) walk image last louder := by
  refine ends_bind.2 (Ends.mono first ?_ fun _ _ fell => fell)
  rintro value after (⟨drawn, held⟩ | ⟨none_, noisy⟩)
  · exact .inl ⟨drawn, further value after drawn.sound held⟩
  · exact .inr ⟨none_, { noisy with notice := noisy.notice.imp_right (due value) }⟩

/-- An operation on the site gives no notice, so what comes next is foretold wherever there is a
next part. -/
theorem lift_bind {act : SiteM α} {next : α → WalkM β} {onward : Sketch → Option Sketch}
    {also : α → Site → Prop} {last : β → Walk → Prop} {louder : β → Prop}
    (draws : Site.Draws act walk.toSite image also)
    (rest : ∀ value site, walk.toSite.Drawn image site → also value site →
      Tells (next value) { walk with toSite := site } (onward site.sketch) last louder) :
    Tells ((liftM act : WalkM α) >>= next) walk (image.bind onward) last louder := by
  refine ends_bind.2 (ends_liftSite.2 (Ends.mono draws ?_ fun _ _ fell => by rw [fell]; rfl))
  rintro value site ⟨drawn, held⟩
  refine Ends.mono (rest value site drawn held) ?_ fun _ _ fell => by rw [drawn.image]; exact fell
  rintro answer after (⟨silent, held⟩ | ⟨none_, noisy⟩)
  · exact .inl ⟨drawn.trans silent, held⟩
  · refine .inr ⟨by rw [drawn.image]; exact none_, noisy.sound, drawn.grows.trans noisy.grows, ?_⟩
    rw [← drawn.edits]
    exact noisy.notice

/-- What comes next leaves the sketch as it is. -/
theorem lift_then {act : SiteM α} {next : α → WalkM β} {also : α → Site → Prop}
    {last : β → Walk → Prop} {louder : β → Prop} (draws : Site.Draws act walk.toSite image also)
    (rest : ∀ value site, walk.toSite.Drawn image site → also value site →
      Tells (next value) { walk with toSite := site } (some site.sketch) last louder) :
    Tells ((liftM act : WalkM α) >>= next) walk image last louder := by
  rw [← Option.bind_fun_some image]
  exact lift_bind draws rest

/-- A notice is given. -/
theorem notice {edit : Edit} {node : NodeId} {value : α} (sound : walk.toSite.Sound) :
    Tells (signal node (some edit) >>= fun _ => Pure.pure value) walk none stayed loud :=
  .inr ⟨rfl, (Site.noisy_signal sound edit (walk.arena.span node)).before (.refl _)⟩

theorem lift {act : SiteM α} {also : α → Site → Prop}
    (draws : Site.Draws act walk.toSite image also)
    (further : ∀ value site, site.Sound → also value site →
      stayed value { walk with toSite := site }) :
    Tells (liftM act : WalkM α) walk image stayed loud :=
  ends_liftSite.2
    (Ends.mono draws (fun value site told => .inl ⟨told.1, further value site told.1.sound told.2⟩)
      fun _ _ fell => fell)

/-- Behind a fork the scope is the one from before. -/
theorem inFork {label : String} {act : WalkM α} (sound : walk.toSite.Sound)
    (inner : Tells act { walk with scope := walk.scope.fork label } image stayed nothingDue) :
    Tells (Walk.inFork label act) walk (image.map walk.sketch.beside)
      (fun answer after => ∃ last : Walk, last.toSite.Sound ∧ image = some last.sketch ∧
        stayed answer.1 last ∧ answer.2 = last.scope ∧
        after = { last with scope := walk.scope }) nothingDue := by
  refine ends_inFork.2 (Ends.mono inner ?_ fun _ _ fell => by rw [fell]; rfl)
  rintro value last (⟨drawn, held⟩ | ⟨none_, noisy⟩)
  · have beside := sound.sketch_beside drawn.sound drawn.grows
    refine .inl ⟨⟨⟨drawn.sound.analysis, sound.scope.extend drawn.grows.traces⟩, drawn.grows,
      drawn.edits, ?_⟩, last, drawn.sound, drawn.image, held, rfl, rfl⟩
    rw [drawn.image]
    exact congrArg some beside.symm
  · refine .inr ⟨by rw [none_]; rfl, ?_, noisy.grows, noisy.notice⟩
    exact ⟨noisy.sound.analysis, sound.scope.extend noisy.grows.traces⟩

/-- Behind a construct the registries around it are back. -/
theorem catching {caught : Catch} (sound : walk.toSite.Sound)
    (inner : Tells act { walk with analysis := walk.analysis.inside caught } image
      stayed nothingDue) :
    Tells (Walk.catching caught act) walk (image.map (walk.sketch.leave caught))
      (fun value after => ∃ last : Walk, last.toSite.Sound ∧ image = some last.sketch ∧
        stayed value last ∧
        after = last.leaveRegistries caught walk.analysis.exits) nothingDue := by
  refine ends_catching.2 (Ends.mono inner ?_ fun _ _ fell => by rw [fell]; rfl)
  rintro value last (⟨drawn, held⟩ | ⟨none_, noisy⟩)
  · have behind := integrity_law.behind caught (ready_of_sound sound).good
      (ready_of_sound drawn.sound).good drawn.grows
    refine .inl ⟨⟨⟨behind.1.1, behind.1.2⟩, behind.2, drawn.edits, ?_⟩, last, drawn.sound,
      drawn.image, held, rfl⟩
    rw [drawn.image]
    exact congrArg some (sound.sketch_leave drawn.sound drawn.grows).symm
  · have behind := integrity_law.behind caught (ready_of_sound sound).good
      (ready_of_sound noisy.sound).good noisy.grows
    exact .inr ⟨by rw [none_]; rfl, ⟨behind.1.1, behind.1.2⟩, behind.2, noisy.notice⟩

/-- Notice is given of the edit that an answer tells of, if there is one. -/
theorem bind_signal {act : WalkM (Rewritten α)} {stayed : Rewritten α → Walk → Prop}
    {next : Rewritten α → WalkM β} {onward : Sketch → Option Sketch} {last : β → Walk → Prop}
    {louder : β → Prop} (id : NodeId)
    (first : Tells act walk image stayed fun answer => answer.edit.isSome = true)
    (sound : walk.toSite.Sound) (steady : Steady act)
    (steadyNext : ∀ answer, Steady (next answer))
    (rest : ∀ answer after, walk.toSite.Drawn image after.toSite → stayed answer after →
      answer.edit = none ∧ Tells (next answer) after (onward after.sketch) last louder) :
    Tells (act >>= fun answer => signal id answer.edit >>= fun _ => next answer) walk
      (image.bind onward) last louder := by
  have told : Tells
      (act >>= fun answer => signal id answer.edit >>= fun _ => Pure.pure answer) walk image
      (fun answer after => stayed answer after ∧ walk.toSite.Drawn image after.toSite)
        nothingDue := by
    refine ends_bind.2 (Ends.mono first ?_ fun _ _ fell => fell)
    rintro ⟨node, edit⟩ after (⟨drawn, held⟩ | ⟨none_, noisy⟩)
    · obtain rfl := (rest _ after drawn held).1
      exact .inl ⟨drawn, held, drawn⟩
    · cases edit with
      | none => exact .inr ⟨none_, { noisy with notice := .inl (noisy.notice.resolve_right nofun) }⟩
      | some edit =>
        exact .inr ⟨none_,
          (Site.noisy_signal noisy.sound edit (after.arena.span id)).before noisy.grows⟩
  have signalled :
      Steady (act >>= fun answer => signal id answer.edit >>= fun _ => Pure.pure answer) :=
    steady.bind fun answer =>
      .bind (.of_yields (.signal integrity_law id answer.edit)) fun _ => .pure
  have whole := told.bind sound signalled steadyNext fun answer after drawn held =>
    (rest answer after drawn held.1).2
  rwa [bind_assoc, funext fun answer => bind_assoc _ _ _] at whole

end Tells

end Walk

end ValueFlow
