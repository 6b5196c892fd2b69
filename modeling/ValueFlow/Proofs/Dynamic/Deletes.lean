import ValueFlow.Proofs.Account.Closing
import ValueFlow.Proofs.Dynamic.Stirring

/-!
# Deletes and source text that is evaluated

A pass removes a tolerant delete if the version of its variable is sure to be unbound. Where a run
comes to such a delete, the version tells of the last write of the variable, which is then recorded
to unbind it (`Ledger.Walks.arrives`, `Ledger.Walks.last_unbound`). Where source text is evaluated,
locals get no new version. So the variable is unbound at the delete unless an evaluation ran since
its last write, and if one did, some run comes there with the variable bound
(`Walk.removed_delete_unbound_unless_stirred`).
-/

namespace ValueFlow
set_option autoImplicit false

namespace Ledger

variable {ledger : Ledger} {code newCode : Code} {before after : Versions} {breaks : List Versions}

/-- The ledger in which code elsewhere may reach every variable. -/
def exposed (ledger : Ledger) : Ledger := { ledger with vars := ledger.vars.exposed }

theorem Escapes.exposed (escapes : ledger.Escapes before after) :
    ledger.exposed.Escapes before after := by
  intro var
  refine (escapes var).imp_right fun told => ⟨fun isPrivate => told.1 fun slot found => ?_, told.2⟩
  exact absurd isPrivate (Variables.not_isPrivate_exposed found)

/-- An account stands also if more variables may be reached. -/
theorem Walks.exposed (walks : ledger.Walks code before newCode after breaks) :
    ledger.exposed.Walks code before newCode after breaks := by
  induction walks with
  | still still => exact .still still
  | fold known => exact .fold known
  | read seen counted => exact .read seen counted
  | call _ _ escapes first second => exact .call first second escapes.exposed
  | eval _ escapes ih => exact .eval ih escapes.exposed
  | block _ ih => exact .block ih
  | through _ goes _ first second => exact .through first goes second
  | dead _ stops ih => exact .dead ih stops
  | assign _ made recorded ih => exact .assign ih made recorded
  | delete made recorded => exact .delete made recorded
  | idle made recorded unbound => exact .idle made recorded unbound
  | constant known => exact .constant known
  | effect _ ih => exact .effect ih
  | known known _ ih => exact .known known ih
  | unknown _ unknown stays _ _ meetsYes meetsNo comesFrom first second third =>
    exact .unknown first unknown stays second third meetsYes meetsNo comesFrom
  | loop forgets _ meets ih => exact .loop forgets ih meets
  | brk => exact .brk
  | ret _ ih => exact .ret ih

section Arrivals

variable {S : Type} {guide : Guide S} {world : World ledger.toSetting} {body : Behaviour}
  {store here : Store} {log : List Event} {state : S} {target id : NodeId} {var : VarId}
  {goes : Prop}

/-- Whole rounds of a loop lead to its head again. -/
theorem Guides.turns (law : guide.LawIn ledger world) {head foot : Versions}
    (covers : guide.covers id code) (forgets : ledger.Forgets code before head)
    (writes : body.Writes fun node var => ∃ binds, (node, var, binds) ∈ code.writes)
    (round : ledger.Guides guide body head goes foot breaks) (fits : guide.fits before state)
    (turns : Turns id body store log here) :
    Rounds id code log ∧ (guide.keeps state store → guide.keeps (guide.run state log) here) := by
  induction turns with
  | none => exact ⟨⟨.inl rfl, nofun⟩, fun kept => kept⟩
  | @again middle after early late ending _ run _ ih =>
    obtain ⟨gone, kept⟩ := ih
    have last := round.follows (law.head covers forgets fits gone) run
    constructor
    · refine ⟨.inr ⟨early ++ late, by simp⟩, fun node var mem => ?_⟩
      rcases List.mem_append.1 mem with mem | mem
      · exact gone.writes node var mem
      · exact writes.only run node var (by simpa using mem)
    · rw [Guide.run_append, Guide.run_append]
      exact fun held => law.keepsTurn (last.kept (kept held))

/-- At this point of an account a run comes to a delete: the versions fit, and the delete stands in
the new code, or the version of its variable is sure to be unbound. -/
structure ComesTo (ledger : Ledger) (guide : Guide S) (newCode : Code) (target : NodeId) (var : VarId) (state : S) (here : Store)
    (point : Versions) : Prop where
  fits : guide.fits point state
  kept : guide.keeps state here
  told : newCode.HasDelete target var ∨ ledger.traces.AllLeaves var (point var) Traces.leavesUnbound

theorem ComesTo.within {whole : Code} {point : Versions}
    (comes : ledger.ComesTo guide newCode target var state here point)
    (sub : newCode.notes ⊆ whole.notes) : ledger.ComesTo guide whole target var state here point :=
  { comes with told := comes.told.imp_left fun stands => stands.mono sub }

/-- Where a run of the code comes to a delete, some point of its account tells of it. -/
theorem Walks.arrives (law : guide.LawIn ledger world)
    (walks : ledger.Walks code before newCode after breaks)
    (covers : ∀ entry ∈ code.loops, guide.covers entry.1 entry.2)
    (arrives : Arrives world target var code store log here) (fits : guide.fits before state)
    (kept : guide.keeps state store) :
    ∃ point, ledger.ComesTo guide newCode target var (guide.run state log) here point := by
  induction walks generalizing state store log with
  | still still =>
    obtain ⟨version, mem⟩ := arrives.hasDelete
    rw [Code.notes_of_still still] at mem
    cases mem
  | fold | read | call | eval | assign | constant | effect | brk | ret => cases arrives
  | block _ ih =>
    cases arrives with
    | block inside =>
      obtain ⟨point, comes⟩ := ih covers inside fits kept
      exact ⟨point, comes.within (by simp)⟩
  | through walkHead _ _ first second =>
    have coversHead := fun entry mem => covers entry (List.mem_append_left _ mem)
    have coversTail := fun entry mem => covers entry (List.mem_append_right _ mem)
    cases arrives with
    | head inside =>
      obtain ⟨point, comes⟩ := first coversHead inside fits kept
      exact ⟨point, comes.within (by simp [Code.notes_append])⟩
    | tail run inside =>
      have follows := (walkHead.guidesIn law coversHead).follows fits run
      obtain ⟨point, comes⟩ := second coversTail inside (follows.done rfl).2 (follows.kept kept)
      rw [Guide.run_append]
      exact ⟨point, comes.within (by simp [Code.notes_append])⟩
  | dead walkHead stops ih =>
    have coversHead := fun entry mem => covers entry (List.mem_append_left _ mem)
    cases arrives with
    | head inside =>
      obtain ⟨point, comes⟩ := ih coversHead inside fits kept
      exact ⟨point, comes.within (by simp [Code.notes_append])⟩
    | tail run _ =>
      have goes := ((walkHead.guidesIn law coversHead).follows fits run).done rfl
      cases stops.symm.trans goes.1
  | delete =>
    cases arrives
    exact ⟨_, fits, kept, .inl ⟨_, List.mem_cons_self⟩⟩
  | idle _ _ unbound =>
    cases arrives
    exact ⟨_, fits, kept, .inr unbound⟩
  | known known _ ih =>
    cases arrives with
    | known knownHere inside =>
      obtain rfl := Option.some.inj (known.symm.trans knownHere)
      refine ih (fun entry mem => covers entry (List.mem_append_right _ ?_)) inside fits kept
      split at mem
      · exact List.mem_append_left _ mem
      · exact List.mem_append_right _ mem
    | arm unknown => cases known.symm.trans unknown
  | unknown walkCond unknown _ _ _ _ _ _ _ second third =>
    cases arrives with
    | known known => cases unknown.symm.trans known
    | arm _ taken run inside =>
      have coversCond := fun entry mem => covers entry (List.mem_append_left _ mem)
      have follows := (walkCond.guidesIn law coversCond).follows fits run
      have fits := (follows.done rfl).2
      have kept := follows.kept kept
      rw [Guide.run_append]
      rcases taken with rfl | rfl
      · have coversYes :=
          fun entry mem => covers entry (List.mem_append_right _ (List.mem_append_left _ mem))
        obtain ⟨point, comes⟩ := second coversYes inside fits kept
        exact ⟨point, comes.within (by simp [Code.notes_choice])⟩
      · have coversNo :=
          fun entry mem => covers entry (List.mem_append_right _ (List.mem_append_right _ mem))
        obtain ⟨point, comes⟩ := third coversNo inside fits kept
        exact ⟨point, comes.within (by simp [Code.notes_choice])⟩
  | @loop _ body _ _ _ _ _ _ forgets walkBody _ ih =>
    have coversBody := fun entry mem => covers entry (List.mem_cons_of_mem _ mem)
    cases arrives with
    | round turns inside =>
      have gone := Guides.turns law (covers _ List.mem_cons_self) forgets (body.writes_writes world)
        (walkBody.guidesIn law coversBody) fits turns
      obtain ⟨point, comes⟩ :=
        ih coversBody inside
          (law.head (covers _ List.mem_cons_self) forgets fits gone.1) (gone.2 kept)
      rw [Guide.run_append]
      exact ⟨point, comes.within (by simp [Code.notes_cycle, Code.notes_trim])⟩

end Arrivals

section Evaluations

variable (ledger) (nodes : List NodeId)

/-- Runs are followed with their logs. The versions tell of the last write of each variable. If it
is recorded to leave the variable unbound, and none of the nodes ran code elsewhere since, then the
variable is unbound. -/
def evaluations : Guide (List Event) where
  step log event := log ++ [event]
  fits here log := ∀ var, ledger.Tells var (here var) (ledger.latest .entry log var)
  keeps log store := ∀ var previous, ¬ Stirred nodes var log →
    ledger.traces.origin? ⟨var, ledger.latest .entry log var⟩ = some (.unbound previous) → store var = false
  sees _ _ _ := True
  covers _ _ := True

variable {ledger nodes} {log late : List Event} {event : Event}

theorem run_evaluations : (ledger.evaluations nodes).run log late = log ++ late := by
  induction late generalizing log with
  | nil => exact (List.append_nil log).symm
  | cons event rest ih => exact ih.trans (List.append_cons log event rest).symm

theorem latest_step :
    ledger.latest .entry ((ledger.evaluations nodes).step log event) =
      ledger.lastWrite (ledger.latest .entry log) event :=
  Guide.run_append

/-- To follow the evaluations is lawful where nothing else changes variables behind the code's
back. -/
theorem evaluations_law {world : World ledger.toSetting} (only : world.OnlyAt nodes) :
    (ledger.evaluations nodes).LawIn ledger world where
  meets fits meets var := (fits var).meets meets
  read _ fits := by
    refine ⟨trivial, fun var => ?_⟩
    rw [latest_step]
    exact fits var
  call fits escapes var := by
    rw [latest_step]
    exact (fits var).escapes escapes
  write recorded plain fits var := by
    rw [latest_step]
    exact (fits var).write recorded plain
  head _ forgets fits rounds var := by
    refine (fits var).forgets forgets fun unwritten => ?_
    rw [run_evaluations]
    exact (congrFun Guide.run_append var).trans (rounds.latest unwritten)
  keepsRead kept var previous calm unbound := by
    rw [latest_step] at unbound
    exact kept var previous (fun stirred => calm (stirred.snoc nofun)) unbound
  keepsCall {log store after id raises} outcome kept var previous calm unbound := by
    rw [latest_step] at unbound
    have outside : id ∉ nodes :=
      fun mem => calm (stirred_append.2 (.inl (stirred_single.2 ⟨id, store, rfl, mem⟩)))
    rw [only outcome outside]
    exact kept var previous (fun stirred => calm (stirred.snoc nofun)) unbound
  keepsWrite {log store id target origin bound} recorded right kept var previous calm unbound := by
    rw [latest_step] at unbound
    change ledger.traces.origin?
      ⟨var, if var = target then ledger.labels id else ledger.latest .entry log var⟩ = _ at unbound
    unfold Store.set
    by_cases same : var = target
    · subst same
      rw [if_pos rfl] at unbound ⊢
      exact right previous (Option.some.inj (recorded.symm.trans unbound))
    · rw [if_neg same] at unbound ⊢
      refine kept var previous
        (fun stirred => calm (stirred.snoc fun writer again => same ?_)) unbound
      exact (Event.write.inj again).2.symm
  keepsTurn kept var previous calm unbound := by
    rw [latest_step] at unbound
    exact kept var previous (fun stirred => calm (stirred.snoc nofun)) unbound

/-- Where a run comes to a delete of which nothing is left, the last write of its variable is
recorded to leave it unbound, and so it is unbound unless one of the nodes ran code elsewhere since
then. -/
theorem Walks.last_unbound {world : World ledger.toSetting} (only : world.OnlyAt nodes)
    (walks : ledger.Walks code .entry newCode after breaks) {vars : Variables}
    (sound : ledger.traces.Sound vars) {store here : Store} {target : NodeId} {var : VarId}
    (entered : ∀ var previous, ledger.traces.origin? ⟨var, .entry⟩ = some (.unbound previous) →
      store var = false)
    (arrives : Arrives world target var code store log here)
    (gone : ¬ newCode.HasDelete target var) :
    (∃ previous, ledger.traces.origin? ⟨var, ledger.latest .entry log var⟩ =
      some (.unbound previous)) ∧
      (¬ Stirred nodes var log → here var = false) := by
  have fitsHere : (ledger.evaluations nodes).fits .entry [] := fun var => tells_entry sound var
  have keptHere : (ledger.evaluations nodes).keeps [] store := fun var previous _ unbound =>
    entered var previous unbound
  obtain ⟨point, fits, kept, told⟩ :=
    walks.arrives (evaluations_law only) (fun _ _ => trivial) arrives fitsHere keptHere
  rw [run_evaluations, List.nil_append] at fits kept
  have all := told.resolve_left gone
  -- The leaf that tells of the last write is one of those that are all unbound.
  obtain ⟨leaf, below, told⟩ := fits var
  obtain ⟨origin, known, unbound⟩ := all leaf below
  cases origin with
  | unbound previous =>
    rcases told with ⟨_, unknown⟩ | rfl
    · cases known.symm.trans unknown
    · exact ⟨⟨previous, known⟩, fun calm => kept var previous calm known⟩
  | _ => cases unbound

end Evaluations

end Ledger

namespace Walk

variable {arena : Arena} {body : NodeId} {code : Code} {left : Option NodeId} {after : Walk}

/-- Where a run of a body comes to a delete that a pass does not leave, the variable is unbound if
no source text was evaluated since its last write, or since the start. If some was, another run
comes to the delete with the variable bound. Source text may bind and unbind any variable of the
table, and nothing else changes variables behind the code's back. -/
theorem removed_delete_unbound_unless_stirred (kind : BodyKind) (vars : Variables) (options : Options) (tree : arena.IsTree body code)
    (walked : walkBody kind body ⟨.forBody kind vars options, arena⟩ = .ok left after) :
    ∃ newCode, after.arena.Shows (.maybe .stmt left) newCode ∧
      ∀ (world : World ⟨vars.exposed, options⟩), world.OnlyAt code.evals → ∀ (store : Store), vars.Enters store →
        ∀ target var log here, Arrives world target var code store log here → target ∉ newCode.ids →
          (¬ Stirred code.evals var log → here var = false) ∧
          (Stirred code.evals var log → ∃ other,
            Arrives (World.widest ⟨vars.exposed, options⟩ code.evals) target var code store other (here.set var true)) := by
  obtain ⟨newCode, notes, rewrote⟩ := bodyRewrote_of_walkBody kind vars options tree walked
  obtain ⟨last, breaks, account⟩ := rewrote.account
  refine ⟨newCode, rewrote.shows_, fun world only store enters target var log here arrives removed => ?_⟩
  have sound := rewrote.sound.analysis.traces
  have entered : ∀ var previous, after.analysis.traces.origin? ⟨var, .entry⟩ = some (.unbound previous) → store var = false := by
    intro var previous unbound
    obtain ⟨slot, found, storage⟩ := sound.storage_of_unbound rewrote.grows.vars unbound
    exact (enters var slot found).2 storage
  have gone : ¬ newCode.HasDelete target var := by
    rintro ⟨version, mem⟩
    exact removed (Code.mem_ids_of_notes mem)
  obtain ⟨⟨previous, known⟩, calm⟩ := account.exposed.last_unbound only sound entered arrives gone
  refine ⟨calm, arrives.bound_of_stirred only ?_⟩
  obtain ⟨slot, found, -⟩ := sound.entry _ (Traces.mem_of_origin? known)
  obtain ⟨old, foundOld, -⟩ := rewrote.grows.vars.slot_back found
  exact Variables.not_isPrivate_exposed foundOld

/-- A function with a name that is resolved at run time: `eval("x = 1"); del? x; del? x`. -/
def twiceBody : Arena :=
  ⟨#[⟨.expr (.literal (.str "x = 1")), ⟨0, 1⟩⟩, ⟨.expr (.eval 0), ⟨1, 2⟩⟩, ⟨.stmt (.effect 1), ⟨2, 3⟩⟩, ⟨.stmt (.delete 0 true none), ⟨3, 4⟩⟩,
    ⟨.stmt (.delete 0 true none), ⟨4, 5⟩⟩, ⟨.stmt (.block [2, 3, 4]), ⟨5, 6⟩⟩]⟩

/-- The name. -/
def nameVars : Variables := ⟨#[⟨"x", .maybeLocal none, false, .entry⟩]⟩

/-- The tree of the function. -/
def twiceCode : Code :=
  .block 5 (.cons (.effect 2 (.eval 1 (.literal 0 (.str "x = 1")))) (.cons (.delete 3 0 true none) (.cons (.delete 4 0 true none) .nil)))

theorem twiceBody_isTree : twiceBody.IsTree 5 twiceCode where
  shows_ := .block rfl
    (.cons (.effect rfl (.eval rfl (.literal rfl)))
      (.cons (.delete rfl) (.cons (.delete rfl) .nil)))
  nodup := by decide

/-- Behind the first delete the second one has nothing to do, and it is removed. -/
theorem twiceBody_unbound : ∃ left after,
    walkBody .functionBody 5 ⟨.forBody .functionBody nameVars {}, twiceBody⟩ = .ok left after ∧ after.arena.block? 5 = some [2, 3] ∧
    ∃ newCode, after.arena.Shows (.maybe .stmt left) newCode ∧
      ∀ (world : World ⟨nameVars.exposed, {}⟩), world.OnlyAt twiceCode.evals → ∀ (store : Store), nameVars.Enters store →
        ∀ target var log here, Arrives world target var twiceCode store log here → target ∉ newCode.ids →
          (¬ Stirred twiceCode.evals var log → here var = false) ∧
          (Stirred twiceCode.evals var log → ∃ other,
            Arrives (World.widest ⟨nameVars.exposed, {}⟩ twiceCode.evals) target var twiceCode store other (here.set var true)) := by
  have ends : endsWith (walkBody .functionBody 5) ⟨.forBody .functionBody nameVars {}, twiceBody⟩
      (fun _ after => after.arena.block? 5 == some [2, 3]) = true := by
    decide +kernel
  obtain ⟨left, after, walked, told⟩ := exists_of_endsWith ends
  exact ⟨left, after, walked, by simpa using told, removed_delete_unbound_unless_stirred .functionBody nameVars {} twiceBody_isTree walked⟩

/-- The evaluation comes behind the first delete: `del? x; eval("x = 1"); del? x`. -/
def stirredBody : Arena :=
  ⟨#[⟨.stmt (.delete 0 true none), ⟨0, 1⟩⟩, ⟨.expr (.literal (.str "x = 1")), ⟨1, 2⟩⟩, ⟨.expr (.eval 1), ⟨2, 3⟩⟩, ⟨.stmt (.effect 2), ⟨3, 4⟩⟩,
    ⟨.stmt (.delete 0 true none), ⟨4, 5⟩⟩, ⟨.stmt (.block [0, 3, 4]), ⟨5, 6⟩⟩]⟩

/-- The tree of that function, with the version noted at the first delete and what is behind the
evaluation. -/
def stirredCode (version : Option Version) (behind : Code) : Code :=
  .block 5 (.cons (.delete 0 0 true version) (.cons (.effect 3 (.eval 2 (.literal 1 (.str "x = 1")))) behind))

/-- The second delete is removed, though the evaluated text may have bound the name again. -/
theorem stirredBody_bound : stirredBody.IsTree 5 (stirredCode none (.cons (.delete 4 0 true none) .nil)) ∧
    ∃ after, walkBody .functionBody 5 ⟨.forBody .functionBody nameVars {}, stirredBody⟩ = .ok (some 5) after ∧
      after.arena.Shows (.maybe .stmt (some 5)) (stirredCode (some 1) .nil) ∧ 4 ∉ (stirredCode (some 1) .nil).ids ∧
      ∃ (world : World ⟨nameVars.exposed, {}⟩) (store : Store) (log : List Event) (here : Store), world.OnlyAt [2] ∧ nameVars.Enters store ∧
        Arrives world 4 0 (stirredCode none (.cons (.delete 4 0 true none) .nil)) store log here ∧ here 0 = true := by
  have isTree : stirredBody.IsTree 5 (stirredCode none (.cons (.delete 4 0 true none) .nil)) := {
    shows_ := .block rfl (.cons (.delete rfl) (.cons (.effect rfl (.eval rfl (.literal rfl))) (.cons (.delete rfl) .nil)))
    nodup := by decide }
  have ends : endsWith (walkBody .functionBody 5) ⟨.forBody .functionBody nameVars {}, stirredBody⟩ (fun left after =>
      left == some 5 && after.arena == (stirredBody.mapStmt 5 fun _ => .block [0, 3]).mapStmt 0 fun _ => .delete 0 true (some 1)) = true := by
    decide +kernel
  obtain ⟨left, after, walked, told⟩ := exists_of_endsWith ends
  simp only [Bool.and_eq_true, beq_iff_eq] at told
  obtain ⟨rfl, left⟩ := told
  refine ⟨isTree, after, walked, ?_, by decide, ?_⟩
  · rw [left]
    exact .present (.block rfl (.cons (.delete rfl) (.cons (.effect rfl (.eval rfl (.literal rfl))) .nil)))
  · have enters : nameVars.Enters fun _ => false := by
      intro var slot found
      cases var with
      | zero =>
        obtain rfl := Option.some.inj found
        exact ⟨nofun, fun _ => rfl⟩
      | succ var => cases found
    have found : nameVars.get? 0 = some ⟨"x", .maybeLocal none, false, .entry⟩ := rfl
    have binds : (World.widest ⟨nameVars.exposed, {}⟩ [2]).outcome 2 (Store.set (fun _ => false) 0 false) false
        (Store.set (fun _ => false) 0 true) := by
      refine ⟨fun var isPrivate => ?_, fun outside => absurd List.mem_cons_self outside⟩
      have apart : var ≠ 0 := fun here => Variables.not_isPrivate_exposed found (here ▸ isPrivate)
      rw [Store.set_of_ne apart, Store.set_of_ne apart]
    have deletes : (Code.delete 0 0 true none).runs (.widest ⟨nameVars.exposed, {}⟩ [2]) (fun _ => false) [.write 0 0] .done
        (Store.set (fun _ => false) 0 false) := .inr ⟨rfl, .done, ⟨rfl, rfl⟩, .inl rfl⟩
    have evaluates : (Code.effect 3 (.eval 2 (.literal 1 (.str "x = 1")))).runs (.widest ⟨nameVars.exposed, {}⟩ [2])
        (Store.set (fun _ => false) 0 false) [.call 2 (Store.set (fun _ => false) 0 false)] .done (Store.set (fun _ => false) 0 true) :=
      .inr ⟨[], _, _, .inr ⟨rfl, .done, ⟨rfl, rfl⟩, .inl rfl⟩, .inr ⟨rfl, .done, ⟨false, binds, rfl⟩, .inl rfl⟩, rfl⟩
    exact ⟨_, _, _, _, World.onlyAt_widest _ _, enters, .block (.tail deletes (.tail evaluates (.head .here))), rfl⟩

end Walk

end ValueFlow
