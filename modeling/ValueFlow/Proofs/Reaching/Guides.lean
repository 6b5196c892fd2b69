import ValueFlow.Proofs.Account.Walks

/-!
# Runs follow the account

A guide follows a run through its log with a state of its own, and says when the versions at a point
fit the state. `Guide.LawIn` lists what a guide owes to a ledger at single steps. Then the account
of a walk guides the runs of the tree that was walked (`Walks.guides`): wherever the versions fit as
a run begins, every read on the way sees what the guide says, and where the run ends the versions of
the account fit again, those behind the tree if control runs past it, and those at some break if a
break leads out of it. Control runs past no tree of which an aborting one is left.

For a loop the account has one round, and the run has any number of them. A guide has to tell why
versions that fit before the loop fit its head in every round, when only the body has written since.
-/

namespace ValueFlow
set_option autoImplicit false

namespace Ledger

/-- A way to follow runs: how an event moves the state, when versions fit it, what it has to do with
the store, what is said of a read, and which loops it can follow. -/
structure Guide (S : Type) where
  step : S → Event → S
  fits : Versions → S → Prop
  keeps : S → Store → Prop
  sees : S → NodeId → VarId → Prop
  covers : NodeId → Code → Prop

/-- What lies behind some rounds of a loop: nothing, or a log that ends with a turn, in which none
but the nodes of the body have written. -/
structure Rounds (id : NodeId) (body : Code) (log : List Event) : Prop where
  turned : log = [] ∨ ∃ early, log = early ++ [.turn id]
  writes : ∀ node var, .write node var ∈ log → ∃ binds, (node, var, binds) ∈ body.writes

namespace Guide

variable {S : Type} (guide : Guide S)

/-- The state behind a log. -/
def run (state : S) (log : List Event) : S := log.foldl guide.step state

/-- At every read in the log holds what is said of it. -/
def Sees : S → List Event → Prop
  | _, [] => True
  | state, event :: rest => (∀ node var, event = .read node var → guide.sees state node var) ∧ Sees (guide.step state event) rest

variable {guide} {state : S} {early late : List Event}

theorem run_append : guide.run state (early ++ late) = guide.run (guide.run state early) late :=
  List.foldl_append

theorem run_turn {id : NodeId} :
    guide.run state (early ++ .turn id :: late) =
      guide.run (guide.run state (early ++ [.turn id])) late := by
  rw [← run_append]
  simp

theorem sees_append :
    guide.Sees state (early ++ late) ↔
      guide.Sees state early ∧ guide.Sees (guide.run state early) late := by
  induction early generalizing state with
  | nil => simp [Sees, run]
  | cons event rest ih =>
    change _ ∧ guide.Sees _ (rest ++ late) ↔ (_ ∧ guide.Sees _ rest) ∧ _
    rw [ih, and_assoc]
    rfl

/-- What is said of the reads of a log is said of each of them. -/
theorem Sees.read {node : NodeId} {var : VarId}
    (sees : guide.Sees state (early ++ .read node var :: late)) :
    guide.sees (guide.run state early) node var :=
  (sees_append.1 sees).2.1 node var rfl

end Guide

variable (ledger : Ledger)

/-- What a guide owes to a ledger and to the world in which the code runs. -/
structure Guide.LawIn {S : Type} (guide : Guide S) (world : World ledger.toSetting) : Prop where
  meets : ∀ {path point state}, guide.fits path state → ledger.traces.Meets path point → guide.fits point state
  read : ∀ {here state id var}, ledger.labels id = here var → guide.fits here state →
    guide.sees state id var ∧ guide.fits here (guide.step state (.read id var))
  call : ∀ {here point state id store}, guide.fits here state → ledger.Escapes here point →
    guide.fits point (guide.step state (.call id store))
  write : ∀ {here state id var origin}, ledger.traces.origin? ⟨var, ledger.labels id⟩ = some origin →
    (∀ sources, origin ≠ .joined sources) → guide.fits here state →
      guide.fits (here.set var (ledger.labels id)) (guide.step state (.write id var))
  head : ∀ {id body before head state log}, guide.covers id body → ledger.Forgets body before head → guide.fits before state →
    Rounds id body log → guide.fits head (guide.run state log)
  keepsRead : ∀ {state store id var}, guide.keeps state store → guide.keeps (guide.step state (.read id var)) store
  keepsCall : ∀ {state store after id raises}, world.outcome id store raises after → guide.keeps state store →
    guide.keeps (guide.step state (.call id store)) after
  keepsWrite : ∀ {state store id var origin bound}, ledger.traces.origin? ⟨var, ledger.labels id⟩ = some origin →
    (∀ previous, origin = .unbound previous → bound = false) → guide.keeps state store →
      guide.keeps (guide.step state (.write id var)) (store.set var bound)
  keepsTurn : ∀ {state store id}, guide.keeps state store → guide.keeps (guide.step state (.turn id)) store

/-- What a guide owes to a ledger in every world. -/
def Guide.Law {S : Type} (guide : Guide S) : Prop := ∀ world : World ledger.toSetting, guide.LawIn ledger world

variable {S : Type} (guide : Guide S)

/-- The run fits the account: `goes` is what must hold where control runs past the end. -/
structure Follows (state : S) (store : Store) (goes : Prop) (after : Versions) (breaks : List Versions)
    (log : List Event) (ending : Ending) (storeAfter : Store) : Prop where
  sees : guide.Sees state log
  writes : ∀ node var, .write node var ∈ log → ledger.made node var
  kept : guide.keeps state store → guide.keeps (guide.run state log) storeAfter
  done : ending = .done → goes ∧ guide.fits after (guide.run state log)
  brk : ending = .brk → ∃ path ∈ breaks, guide.fits path (guide.run state log)

/-- Every run that begins where the versions fit follows the account. -/
structure Guides (behaviour : Behaviour) (before : Versions) (goes : Prop) (after : Versions) (breaks : List Versions) : Prop where
  follows : ∀ {state store log ending storeAfter}, guide.fits before state → behaviour store log ending storeAfter →
    ledger.Follows guide state store goes after breaks log ending storeAfter

variable {ledger guide} {world : World ledger.toSetting} {first second body : Behaviour}
  {goes goesOn : Prop} {before middle after : Versions} {breaks more : List Versions}
  {store storeAfter : Store} {log : List Event} {ending : Ending} {id : NodeId}

/-- A run that has not begun follows any account. -/
theorem Follows.start (state : S) (store : Store) (goes : Prop) (after : Versions)
    (breaks : List Versions) :
    ledger.Follows guide state store goes after breaks [] .cut store :=
  ⟨trivial, nofun, id, nofun, nofun⟩

namespace Guides

theorem mono (law : guide.LawIn ledger world)
    (guides : ledger.Guides guide first before goes middle breaks)
    (onward : goes → goesOn ∧ ledger.traces.Meets middle after)
    (out : ∀ path ∈ breaks, path ∈ more) :
    ledger.Guides guide first before goesOn after more where
  follows fits run := by
    obtain ⟨sees, writes, kept, done, brk⟩ := guides.follows fits run
    refine ⟨sees, writes, kept, fun ends => ?_, fun ends => ?_⟩
    · obtain ⟨held, fitsMiddle⟩ := done ends
      exact ⟨(onward held).1, law.meets fitsMiddle (onward held).2⟩
    · obtain ⟨path, mem, fitsPath⟩ := brk ends
      exact ⟨path, out path mem, fitsPath⟩

theorem weaken (guides : ledger.Guides guide first before goes after breaks)
    (onward : goes → goesOn) :
    ledger.Guides guide first before goesOn after breaks where
  follows fits run := by
    obtain ⟨sees, writes, kept, done, brk⟩ := guides.follows fits run
    exact ⟨sees, writes, kept, fun ends => ⟨onward (done ends).1, (done ends).2⟩, brk⟩

theorem atom {events : Store → List Event} {step : Store → Ending → Store → Prop}
    (each : ∀ state store ending storeAfter, guide.fits before state →
      step store ending storeAfter → ledger.Follows guide state store goes after breaks
      (events store) ending storeAfter) :
    ledger.Guides guide (.atom events step) before goes after breaks where
  follows := by
    rintro state store log ending storeAfter fits (⟨rfl, rfl, rfl⟩ | ⟨rfl, reached, taken, ends⟩)
    · exact .start _ _ _ _ _
    · have follows := each state store reached storeAfter fits taken
      rcases ends with rfl | rfl
      · exact follows
      · exact ⟨follows.sees, follows.writes, follows.kept, nofun, nofun⟩

/-- A single exit that is no break goes on behind itself or nowhere. -/
theorem stop {reached : Ending} (done : reached = .done → goes)
    (brk : reached = .brk → before ∈ breaks) :
    ledger.Guides guide (.stop reached) before goes before breaks :=
  .atom fun _ _ _ _ fits ⟨ends, same⟩ => {
    sees := trivial
    writes := nofun
    kept := fun kept => same ▸ kept
    done := fun isDone => ⟨done (ends ▸ isDone), fits⟩
    brk := fun isBreak => ⟨before, brk (ends ▸ isBreak), fits⟩ }

/-- Behind an exit that is no break, control does not go on. -/
theorem halt {reached : Ending} (notDone : reached ≠ .done) (notBreak : reached ≠ .brk) :
    ledger.Guides guide (.stop reached) before goes before breaks :=
  .stop (fun done => (notDone done).elim) fun brk => (notBreak brk).elim

theorem skip (here : Versions) (held : goes) : ledger.Guides guide .skip here goes here [] :=
  .stop (fun _ => held) nofun

theorem seq (guidesFirst : ledger.Guides guide first before goes middle breaks)
    (guidesSecond : ledger.Guides guide second middle goesOn after more) :
    ledger.Guides guide (first.seq second) before (goes ∧ goesOn) after (breaks ++ more) where
  follows := by
    rintro state store log ending storeAfter fits
      (⟨run, stops⟩ | ⟨early, storeMiddle, late, run, rest, rfl⟩)
    · obtain ⟨sees, writes, kept, -, brk⟩ := guidesFirst.follows fits run
      refine ⟨sees, writes, kept, fun ends => absurd ends stops, fun ends => ?_⟩
      obtain ⟨path, mem, fitsPath⟩ := brk ends
      exact ⟨path, List.mem_append_left _ mem, fitsPath⟩
    · have early := guidesFirst.follows fits run
      obtain ⟨held, fitsMiddle⟩ := early.done rfl
      have late := guidesSecond.follows fitsMiddle rest
      constructor
      · exact Guide.sees_append.2 ⟨early.sees, late.sees⟩
      · exact fun node var mem => (List.mem_append.1 mem).elim (early.writes node var)
          (late.writes node var)
      · rw [Guide.run_append]
        exact fun kept => late.kept (early.kept kept)
      · rw [Guide.run_append]
        exact fun ends => ⟨⟨held, (late.done ends).1⟩, (late.done ends).2⟩
      · rw [Guide.run_append]
        intro ends
        obtain ⟨path, mem, fitsPath⟩ := late.brk ends
        exact ⟨path, List.mem_append_right _ mem, fitsPath⟩

/-- Behind a program that control never runs past, anything may stand. -/
theorem seq_of_not (guides : ledger.Guides guide first before goes middle breaks) (stops : ¬ goes) :
    ledger.Guides guide (first.seq second) before goesOn after breaks where
  follows := by
    rintro state store log ending storeAfter fits
      (⟨run, notDone⟩ | ⟨early, storeMiddle, late, run, rest, rfl⟩)
    · have follows := guides.follows fits run
      exact ⟨follows.sees, follows.writes, follows.kept,
        fun ends => absurd ends notDone, follows.brk⟩
    · exact absurd ((guides.follows fits run).done rfl).1 stops

theorem either (guidesFirst : ledger.Guides guide first before goes after breaks)
    (guidesSecond : ledger.Guides guide second before goesOn after more) :
    ledger.Guides guide (first.either second) before (goes ∨ goesOn) after (breaks ++ more) where
  follows := by
    rintro state store log ending storeAfter fits (run | run)
    · obtain ⟨sees, writes, kept, done, brk⟩ := guidesFirst.follows fits run
      refine ⟨sees, writes, kept, fun ends => ⟨.inl (done ends).1, (done ends).2⟩, fun ends => ?_⟩
      obtain ⟨path, mem, fitsPath⟩ := brk ends
      exact ⟨path, List.mem_append_left _ mem, fitsPath⟩
    · obtain ⟨sees, writes, kept, done, brk⟩ := guidesSecond.follows fits run
      refine ⟨sees, writes, kept, fun ends => ⟨.inr (done ends).1, (done ends).2⟩, fun ends => ?_⟩
      obtain ⟨path, mem, fitsPath⟩ := brk ends
      exact ⟨path, List.mem_append_right _ mem, fitsPath⟩

/-- Of a loop the account has one round. Every round begins where the versions at the head fit,
since none but the body has written in the rounds before it. -/
theorem loop (law : guide.LawIn ledger world) {code : Code} {head foot : Versions}
    (covers : guide.covers id code) (forgets : ledger.Forgets code before head)
    (writes : body.Writes fun node var => ∃ binds, (node, var, binds) ∈ code.writes)
    (round : ledger.Guides guide body head goes foot breaks)
    (meets : ∀ path ∈ breaks, ledger.traces.Meets path after) :
    ledger.Guides guide (.Loop id body) before (breaks ≠ []) after [] where
  follows := by
    intro state store log ending storeAfter fits run
    -- The rounds that are over count as part of the log, so that every round is told from the state
    -- before the loop.
    suffices rounds : ∀ passed, Rounds id code passed →
        ledger.Follows guide (guide.run state passed) store (breaks ≠ []) after
        [] log ending storeAfter from rounds [] ⟨.inl rfl, nofun⟩
    induction run with
    | @again start middle final early late turn ending run back _ ih =>
      intro passed gone
      have first := round.follows (law.head covers forgets fits gone) run
      have turned : Rounds id code (passed ++ (early ++ [.turn id])) := by
        refine ⟨.inr ⟨passed ++ early, by simp⟩, fun node var mem => ?_⟩
        rcases List.mem_append.1 mem with mem | mem
        · exact gone.writes node var mem
        · exact writes.only run node var (by simpa using mem)
      have others := ih _ turned
      rw [Guide.run_append] at others
      constructor
      · refine Guide.sees_append.2 ⟨first.sees, nofun, ?_⟩
        have sees := others.sees
        rwa [Guide.run_append] at sees
      · intro node var mem
        rcases List.mem_append.1 mem with mem | mem
        · exact first.writes node var mem
        · exact others.writes node var (by simpa using mem)
      · rw [Guide.run_turn]
        refine fun kept => others.kept ?_
        rw [Guide.run_append]
        exact law.keepsTurn (first.kept kept)
      · rw [Guide.run_turn]
        exact others.done
      · rw [Guide.run_turn]
        exact others.brk
    | broken run =>
      intro passed gone
      have last := round.follows (law.head covers forgets fits gone) run
      refine ⟨last.sees, last.writes, last.kept, fun _ => ?_, nofun⟩
      obtain ⟨path, mem, fitsPath⟩ := last.brk rfl
      exact ⟨List.ne_nil_of_mem mem, law.meets fitsPath (meets path mem)⟩
    | left run out =>
      intro passed gone
      have last := round.follows (law.head covers forgets fits gone) run
      refine ⟨last.sees, last.writes, last.kept, ?_, ?_⟩
      · rintro rfl
        rcases out with out | out | out <;> cases out
      · rintro rfl
        rcases out with out | out | out <;> cases out

end Guides

section Steps

variable (law : guide.LawIn ledger world) {var : VarId} {here : Versions}

include law

/-- A read sees the version at which its variable stands. -/
theorem guides_reads (seen : ledger.labels id = here var) :
    ledger.Guides guide (World.reads ledger.toSetting id var) here True here [] := by
  refine .atom fun state store ending storeAfter fits ⟨same, ends⟩ => ?_
  subst same
  refine ⟨⟨?_, trivial⟩, by simp, law.keepsRead, fun _ => ⟨trivial, (law.read seen fits).2⟩, ?_⟩
  · rintro node other same
    obtain ⟨rfl, rfl⟩ := Event.read.inj same
    exact (law.read seen fits).1
  · rintro rfl
    rcases ends with ⟨ends, -⟩ | ⟨ends, -⟩ <;> cases ends

/-- A write makes the version current that is recorded for it. -/
theorem guides_write (bound : Bool) {step : Store → Ending → Store → Prop} {origin : Origin}
    (made : ledger.made id var)
    (recorded : ledger.traces.origin? ⟨var, ledger.labels id⟩ = some origin)
    (plain : ∀ sources, origin ≠ .joined sources)
    (right : ∀ previous, origin = .unbound previous → bound = false)
    (steps : ∀ {store ending storeAfter}, step store ending storeAfter →
      storeAfter = store.set var bound ∧ ending ≠ .brk) :
    ledger.Guides guide (.atom (fun _ => [.write id var]) step) here True
      (here.set var (ledger.labels id)) [] := by
  refine .atom fun state store ending storeAfter fits taken => ?_
  obtain ⟨rfl, notBrk⟩ := steps taken
  refine ⟨⟨nofun, trivial⟩, fun node other mem => ?_, law.keepsWrite recorded right,
    fun _ => ⟨trivial, law.write recorded plain fits⟩, fun ends => absurd ends notBrk⟩
  obtain ⟨rfl, rfl⟩ := Event.write.inj (List.mem_singleton.1 mem)
  exact made

theorem guides_binds {previous : Version} (made : ledger.made id var)
    (recorded : ledger.traces.origin? ⟨var, ledger.labels id⟩ = some (.assigned id previous)) :
    ledger.Guides guide (World.binds id var) here True (here.set var (ledger.labels id)) [] := by
  refine guides_write law true made recorded nofun nofun ?_
  rintro store ending storeAfter ⟨same, rfl⟩
  exact ⟨same, nofun⟩

theorem guides_unbinds {tolerant : Bool} {previous : Version} (made : ledger.made id var)
    (recorded : ledger.traces.origin? ⟨var, ledger.labels id⟩ = some (.unbound (some previous))) :
    ledger.Guides guide (World.unbinds id var tolerant) here True
      (here.set var (ledger.labels id)) [] := by
  refine guides_write law false made recorded nofun (fun _ _ => rfl) ?_
  rintro store ending storeAfter ⟨same, rfl⟩
  refine ⟨same, ?_⟩
  split <;> nofun

/-- Code elsewhere was run, and what it may have rebound is forgotten. -/
theorem guides_calls (id : NodeId) (escapes : ledger.Escapes here after) :
    ledger.Guides guide (world.calls id) here True after [] := by
  refine .atom fun state store ending storeAfter fits ⟨raises, outcome, ends⟩ => ?_
  refine ⟨⟨nofun,
    trivial⟩, by simp, law.keepsCall outcome, fun _ => ⟨trivial, law.call fits escapes⟩, ?_⟩
  rw [ends]
  split <;> nofun

/-- What is still moves no variable, and control runs past it unless it aborts. -/
theorem guides_still {code : Code} (still : code.isStill ledger.options = true)
    (covers : ∀ entry ∈ code.loops, guide.covers entry.1 entry.2) (here : Versions) :
    ledger.Guides guide (code.runs world) here (code.aborts = false) here [] := by
  unfold Code.isStill at still
  split at still
  · exact .skip here rfl
  · rename_i id name
    have unknown : ¬ (builtinValue? ledger.options name).isSome := by simpa using still
    unfold Code.runs
    rw [if_neg unknown]
    have found : ledger.Guides guide .skip here True here [] := .skip here trivial
    have missing : ledger.Guides guide (.stop .raised) here False here [] :=
      .halt (by decide) (by decide)
    exact (found.either missing).weaken fun _ => rfl
  · exact .skip here rfl
  · exact .halt (by decide) (by decide)
  · rename_i id
    have forgets : ledger.Forgets .nil here here := fun var => .inr ⟨List.not_mem_nil, rfl⟩
    have round : ledger.Guides guide .skip here True here [] := .skip here trivial
    have nothing : ledger.Guides guide (.Loop id .skip) here ([] ≠ []) here [] :=
      .loop law (covers _ List.mem_cons_self) forgets
        (Code.writes_writes world .nil) round (by simp)
    exact nothing.weaken fun absurd => (absurd rfl).elim
  · exact .skip here rfl
  · cases still

end Steps

/-- The account of a walk guides the runs of the tree that was walked. -/
theorem Walks.guidesIn (law : guide.LawIn ledger world) {code newCode : Code}
    (walks : ledger.Walks code before newCode after breaks)
    (covers : ∀ entry ∈ code.loops, guide.covers entry.1 entry.2) :
    ledger.Guides guide (code.runs world) before (newCode.aborts = false) after breaks := by
  induction walks with
  | still still => exact guides_still law still covers _
  | @fold id _ name _ _ known =>
    have constant : (Code.builtin id name).constant? ledger.options = some _ := known
    rw [Code.runs_of_constant constant]
    exact .skip _ rfl
  | read seen _ => exact (guides_reads law seen).weaken fun _ => rfl
  | call _ _ escapes first second =>
    have first := first fun entry mem => covers entry (List.mem_append_left _ mem)
    have second := second fun entry mem => covers entry (List.mem_append_right _ mem)
    exact (first.seq (second.seq (guides_calls law _ escapes))).weaken fun _ => rfl
  | eval _ escapes ih => exact ((ih covers).seq (guides_calls law _ escapes)).weaken fun _ => rfl
  | block _ ih =>
    rw [Code.aborts_wrap]
    exact ih covers
  | through _ _ _ first second =>
    have first := first fun entry mem => covers entry (List.mem_append_left _ mem)
    have second := second fun entry mem => covers entry (List.mem_append_right _ mem)
    refine (first.seq second).weaken fun goes => ?_
    rw [Code.aborts_append, Code.aborts_contents, goes.1, goes.2]
    rfl
  | dead _ stops ih =>
    have first := ih fun entry mem => covers entry (List.mem_append_left _ mem)
    exact first.seq_of_not (by simp [stops])
  | assign _ made recorded ih =>
    exact ((ih covers).seq (guides_binds law made recorded)).weaken fun _ => rfl
  | delete made recorded => exact (guides_unbinds law made recorded).weaken fun _ => rfl
  | idle made recorded _ => exact (guides_unbinds law made recorded).weaken fun _ => rfl
  | constant known =>
    rw [Code.runs, Code.runs_of_constant known]
    exact .skip _ rfl
  | effect _ ih => exact (ih covers).weaken fun _ => rfl
  | known known _ ih =>
    rw [Code.runs_branch_known world _ known]
    refine ih fun entry mem => covers entry (List.mem_append_right _ ?_)
    split at mem
    · exact List.mem_append_left _ mem
    · exact List.mem_append_right _ mem
  | unknown _ unknown _ _ _ meetsYes meetsNo _ first second third =>
    rw [Code.runs_branch_unknown world _ unknown, Code.aborts_choice]
    have first := first fun entry mem => covers entry (List.mem_append_left _ mem)
    have second :=
      second fun entry mem => covers entry (List.mem_append_right _ (List.mem_append_left _ mem))
    have third :=
      third fun entry mem => covers entry (List.mem_append_right _ (List.mem_append_right _ mem))
    have yes := second.mono law (fun goes => ⟨goes, meetsYes goes⟩) fun _ mem => mem
    have no := third.mono law (fun goes => ⟨goes, meetsNo goes⟩) fun _ mem => mem
    refine (first.seq (yes.either no)).weaken fun goes => ?_
    rcases goes.2 with goes | goes <;> simp [goes]
  | @loop _ body _ _ _ _ _ _ forgets walkBody meets ih =>
    have round := ih fun entry mem => covers entry (List.mem_cons_of_mem _ mem)
    refine (Guides.loop law (covers _ List.mem_cons_self) forgets (body.writes_writes world) round
      meets).weaken fun leads => ?_
    rw [Code.aborts_cycle, Code.mayBreak_trim, walkBody.mayBreak leads]
    rfl
  | brk => exact .stop (fun ends => by cases ends) fun _ => List.mem_singleton_self _
  | @ret _ _ _ _ point _ ih =>
    have leaves : ledger.Guides guide (.stop .ret) point False point [] :=
      .halt (by decide) (by decide)
    exact ((ih covers).seq leaves).weaken fun goes => goes.2.elim

/-- A guide that keeps its law in every world guides the runs in every world. -/
theorem Walks.guides (law : guide.Law ledger) {code newCode : Code}
    (walks : ledger.Walks code before newCode after breaks)
    (covers : ∀ entry ∈ code.loops, guide.covers entry.1 entry.2) (world : World ledger.toSetting) :
    ledger.Guides guide (code.runs world) before (newCode.aborts = false) after breaks :=
  walks.guidesIn (law world) covers

end Ledger

end ValueFlow
