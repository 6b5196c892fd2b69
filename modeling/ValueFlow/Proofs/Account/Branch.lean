import ValueFlow.Proofs.Account.Block

/-!
# Walks of conditionals have an account

A condition of known value decides, and the account is that of the arm taken. Otherwise both arms
are walked from the versions behind the condition, and those that control runs past lead to the join
(`gives_joinBehind`).
-/

namespace ValueFlow
set_option autoImplicit false

namespace Walk

variable {walk : Walk} {id : NodeId} {visit : NodeId → WalkM (Option NodeId)}

/-- What an arm brings to the join leads there from its end. An absent arm ends where it begins. -/
structure Arm.Leads (site : Site) (arm : Arm) (aborts : Bool) (last : Scope) : Prop where
  within : site.scope.Within last
  backed : last.Backed site.analysis.traces
  brings : arm = .absent ∧ aborts = false ∧ last = site.scope ∨ arm = .aborting ∧ aborts = true ∨ arm = .reached last ∧ aborts = false

theorem Arm.Leads.carry {before after : Site} {arm : Arm} {aborts : Bool} {last : Scope}
    (leads : arm.Leads before aborts last) (scope : after.scope = before.scope)
    (extends_ : before.analysis.traces.Extends after.analysis.traces) :
    arm.Leads after aborts last where
  within := scope ▸ leads.within
  backed := leads.backed.extend extends_
  brings := scope ▸ leads.brings

/-- An arm was walked in a fork of the scope. -/
structure ArmWalked (before : Walk) (code : Code) (after : Walk) (answer : Option NodeId × Arm) (newCode : Code) (last : Scope)
    (breaks : List Scope) (notes : List Note) : Prop extends Passed before code.ids after newCode.ids breaks notes where
  shows_ : after.arena.Shows (.maybe .stmt answer.1) newCode
  scope : after.scope = before.scope
  leads : answer.2.Leads after.toSite newCode.aborts last
  ordered : (notes.filterMap Note.write?).Sublist code.writes
  paid : before.Pays code 0 after newCode
  walks : ∀ ledger : Ledger, ledger.Closes before.analysis after.analysis notes →
    ledger.Walks code before.scope.versionOf newCode last.versionOf (breaks.map Scope.versionOf)

theorem gives_walkArm (visits : RewritesStmts visit) (label : String) {arm : Option NodeId}
    {code : Code} (sound : walk.toSite.Sound) (shows_ : walk.arena.Shows (.maybe .stmt arm) code)
    (nodup : code.ids.Nodup) :
    Gives (walkArm visit label arm) walk fun answer after =>
      ∃ newCode last breaks notes, walk.ArmWalked code after answer newCode last breaks notes := by
  cases shows_ with
  | absent =>
    exact .pure ⟨.nil, walk.scope, [], [], .idle sound nofun .nil, .absent, rfl,
      ⟨.refl _, sound.scope, .inl ⟨rfl, rfl, rfl⟩⟩, .slnil, Nat.le_refl _, fun _ _ => .still rfl⟩
  | @present _ arm _ here =>
    have visited : Gives (inFork label (visit arm)) walk fun answer after => ∃ newCode breaks notes,
        Rewrote { walk with scope := walk.scope.fork label } code { after with scope := answer.2 }
          (.maybe .stmt answer.1) newCode breaks notes ∧
          walk.Pays code 0 after newCode ∧ after.scope = walk.scope :=
      ends_inFork.2
        (Gives.mono (visits ⟨sound.analysis, sound.scope.fork label⟩ here nodup)
          fun node after left => by
        obtain ⟨newCode, breaks, notes, rewrote, paid⟩ := left
        exact ⟨newCode, breaks, notes, rewrote, paid, rfl⟩)
    refine .bind visited ?_
    rintro ⟨node, last⟩ after ⟨newCode, breaks, notes, rewrote, paid, scope⟩
    have moved : walk.toSite.Moved after.toSite breaks notes := by
      have out := rewrote.moved.outOfFork sound
      rwa [← scope] at out
    have walked (arm : Arm) (brings : arm = .aborting ∧ newCode.aborts = true ∨
        arm = .reached last ∧ newCode.aborts = false) :
        walk.ArmWalked code after (node, arm) newCode last breaks notes := {
      toPassed := { rewrote.toPassed with moved }
      shows_ := rewrote.shows_
      scope := scope
      leads := ⟨scope ▸ rewrote.moved.within, rewrote.moved.sound.scope, .inr brings⟩
      ordered := rewrote.ordered
      paid := paid
      walks := rewrote.walks }
    have aborts : node.any after.arena.isAborting = newCode.aborts :=
      rewrote.shows_.isAborting_eq rewrote.changes.nodup
    dsimp only
    rw [gives_arenaHere_bind, aborts]
    split
    · rename_i stops
      exact .pure ⟨newCode, last, breaks, notes, walked .aborting (.inl ⟨rfl, stops⟩)⟩
    · rename_i goes
      exact .pure ⟨newCode, last, breaks, notes,
        walked (.reached last) (.inr ⟨rfl, by simpa using goes⟩)⟩

/-- An arm leads to the point behind the join, if control runs past it. -/
def LeadsTo (aborts : Bool) (last : Scope) (after : Walk) : Prop :=
  aborts = false → after.analysis.traces.Meets last.versionOf after.scope.versionOf

/-- Behind the arms of a conditional the walk has moved on, and each of them that control runs past
leads to the point at hand, and nothing else. -/
structure ArmsMet (before : Walk) (yesAborts noAborts : Bool) (yesLast noLast : Scope) (after : Walk) : Prop where
  moved : before.toSite.Moved after.toSite [] []
  same : after.arena = before.arena
  unnoticed : after.analysis.edits = before.analysis.edits
  leadsYes : LeadsTo yesAborts yesLast after
  leadsNo : LeadsTo noAborts noLast after
  comesFrom : yesAborts = false ∨ noAborts = false →
    after.analysis.traces.ComesFrom (EndsOfArms yesAborts noAborts yesLast.versionOf noLast.versionOf) after.scope.versionOf

/-- Behind the join each arm that control runs past leads to the point at hand, and nothing else. -/
theorem gives_joinBehind {yes no : Arm} {yesAborts noAborts : Bool} {yesLast noLast : Scope}
    (sound : walk.toSite.Sound) (yesLeads : yes.Leads walk.toSite yesAborts yesLast)
    (noLeads : no.Leads walk.toSite noAborts noLast) :
    Gives (joinBehind yes no) walk fun _ after =>
      walk.ArmsMet yesAborts noAborts yesLast noLast after := by
  have fitsYes := And.intro yesLeads.within yesLeads.backed
  have fitsNo := And.intro noLeads.within noLeads.backed
  have joined (paths : List Scope) (fits : ∀ path ∈ paths, yesAborts = false ∧ path = yesLast ∨
      noAborts = false ∧ path = noLast)
      (yesMeets : yesAborts = false → yesLast ∈ paths)
        (noMeets : noAborts = false → noLast ∈ paths) :
      Gives (liftM (Site.join paths) : WalkM Unit) walk fun _ after =>
        walk.ArmsMet yesAborts noAborts yesLast noLast after := by
    have backed : ∀ path ∈ paths, walk.scope.Within path ∧ path.Backed walk.analysis.traces :=
      fun path mem => by
      rcases fits path mem with ⟨-, rfl⟩ | ⟨-, rfl⟩
      · exact fitsYes
      · exact fitsNo
    refine (gives_liftDiscreet (Site.gives_join sound backed) (Site.discreet_join paths)).mono ?_
    rintro _ after ⟨⟨moved, meets, comesFrom⟩, same, unnoticed⟩
    refine ⟨moved, same, unnoticed, fun goes => meets _ (yesMeets goes),
      fun goes => meets _ (noMeets goes), fun _ => comesFrom.mono ?_⟩
    rintro _ ⟨path, mem, rfl⟩
    rcases fits path mem with ⟨goes, rfl⟩ | ⟨goes, rfl⟩
    · exact .yes goes
    · exact .no goes
  have here {last : Scope} (same : last = walk.scope) (aborts : Bool) : LeadsTo aborts last walk :=
    fun _ => same ▸ .refl _ _
  have stopped {aborts : Bool} {last : Scope} (stops : aborts = true) :
      LeadsTo aborts last walk := by simp [LeadsTo, stops]
  have idle (leadsYes : LeadsTo yesAborts yesLast walk) (leadsNo : LeadsTo noAborts noLast walk)
      (own : yesAborts = false ∨ noAborts = false →
        EndsOfArms yesAborts noAborts yesLast.versionOf noLast.versionOf walk.scope.versionOf) :
      walk.ArmsMet yesAborts noAborts yesLast noLast walk :=
    ⟨.refl sound, rfl, rfl, leadsYes, leadsNo, fun goes _ => .inl ⟨_, own goes, rfl⟩⟩
  rcases yesLeads.brings with ⟨rfl, yesGoes, rfl⟩ | ⟨rfl, yesStops⟩ | ⟨rfl, yesGoes⟩
  · rcases noLeads.brings with ⟨rfl, -, noHere⟩ | ⟨rfl, noStops⟩ | ⟨rfl, noGoes⟩
    · exact .pure (idle (here rfl _) (here noHere _) fun _ => .yes yesGoes)
    · exact .pure (idle (here rfl _) (stopped noStops) fun _ => .yes yesGoes)
    · exact joined [walk.scope, noLast] (by simp [yesGoes, noGoes]) (by simp) (by simp)
  · rcases noLeads.brings with ⟨rfl, noGoes, rfl⟩ | ⟨rfl, noStops⟩ | ⟨rfl, noGoes⟩
    · exact .pure (idle (stopped yesStops) (here rfl _) fun _ => .no noGoes)
    · exact .pure (idle (stopped yesStops) (stopped noStops) (by simp [yesStops, noStops]))
    · exact joined [noLast] (by simp [noGoes]) (by simp [yesStops]) (by simp)
  · rcases noLeads.brings with ⟨rfl, noGoes, rfl⟩ | ⟨rfl, noStops⟩ | ⟨rfl, noGoes⟩
    · exact joined [walk.scope, yesLast] (by simp [yesGoes, noGoes]) (by simp) (by simp)
    · exact joined [yesLast] (by simp [yesGoes]) (by simp) (by simp [noStops])
    · exact joined [yesLast, noLast] (by simp [yesGoes, noGoes]) (by simp) (by simp)

/-- Walks what may be absent. -/
def visitArm (visit : NodeId → WalkM (Option NodeId)) : Option NodeId → WalkM (Option NodeId)
  | some arm => visit arm
  | none => pure none

/-- The arm taken is walked, and answers for the conditional. -/
theorem takeArm_eq (visit : NodeId → WalkM (Option NodeId)) (truth : Bool)
    (yes no : Option NodeId) :
    takeArm visit truth yes no = visitArm visit (if truth then yes else no) >>= fun node =>
      pure (.changed node .statements
        s!"Condition for branch statement was predicted to be always {truth}.") := by
  unfold takeArm
  dsimp only
  cases (if truth then yes else no) <;> rfl

theorem gives_visitArm (visits : RewritesStmts visit) {arm : Option NodeId} {code : Code}
    (sound : walk.toSite.Sound) (shows_ : walk.arena.Shows (.maybe .stmt arm) code)
    (nodup : code.ids.Nodup) :
    Gives (visitArm visit arm) walk fun node after => walk.LeavesStmt code node 0 after := by
  cases shows_ with
  | absent => exact .pure ⟨.nil, [], [], .nil sound .absent, Nat.le_refl _⟩
  | present here => exact visits sound here nodup

section Branch

variable {cond : NodeId} {yes no : Option NodeId} {condCode yesCode noCode newCondCode : Code}
  {middle : Walk} {newCond : NodeId} {condNotes : List Note}

/-- A condition of known value was walked: the arm that it takes stands for the conditional. -/
theorem gives_takeArm (visits : RewritesStmts visit) {value : Literal}
    (known : condCode.constant? walk.analysis.options = some value)
    (first : walk.Rewrote condCode middle (.one .expr newCond) newCondCode [] condNotes)
    (paidCond : walk.Pays condCode 0 middle newCondCode)
    (yesShows : walk.arena.Shows (.maybe .stmt yes) yesCode)
    (noShows : walk.arena.Shows (.maybe .stmt no) noCode)
    (nodup : (condCode.ids ++ (yesCode.ids ++ noCode.ids)).Nodup) :
    Gives (takeArm visit value.isTruthy yes no) middle fun answer after =>
      walk.LeavesStmt (.branch id condCode yesCode noCode) answer.node answer.owed after := by
  have takenShows : walk.arena.Shows (.maybe .stmt (if value.isTruthy then yes else no))
      (if value.isTruthy then yesCode else noCode) := by
    split
    · exact yesShows
    · exact noShows
  have taken : (if value.isTruthy then yesCode else noCode).ids.Sublist
      (yesCode.ids ++ noCode.ids) := by
    split
    · exact List.sublist_append_left _ _
    · exact List.sublist_append_right _ _
  have apart : condCode.ids.Disjoint (if value.isTruthy then yesCode else noCode).ids :=
    fun _ held mem => List.disjoint_of_nodup_append nodup held (taken.subset mem)
  rw [takeArm_eq]
  refine .bind
    (gives_visitArm visits first.moved.sound (first.keep takenShows (List.disjoint_symm apart))
      (nodup.of_append_right.sublist taken)) ?_
  rintro node after ⟨newCode, breaks, notes, second, paidArm⟩
  have both := first.toPassed.append second.toPassed takenShows.inside apart
  have passed : walk.Passed (Code.branch id condCode yesCode noCode).ids after newCode.ids breaks
      (condNotes ++ notes) :=
    (both.widen fun _ mem => List.mem_cons_of_mem _ ((taken.append_left _).subset mem)).sublist
      (List.sublist_append_right _ _)
  refine .pure
    ⟨newCode, breaks, condNotes ++ notes, ⟨passed, second.shows_, ?_, fun ledger closes => ?_⟩, ?_⟩
  · rw [List.filterMap_append]
    refine first.ordered.append (second.ordered.trans ?_)
    split
    · exact List.sublist_append_left _ _
    · exact List.sublist_append_right _ _
  · have constant : condCode.constant? ledger.options = some value := closes.options ▸ known
    have walksCond := first.walks ledger (closes.early second.moved.grows)
    have walksArm := second.walks ledger (closes.late first.moved.grows)
    rw [walksCond.same_of_constant constant] at walksArm
    exact .known constant walksArm
  · have lighter : (if value.isTruthy then yesCode else noCode).weight ≤
        yesCode.weight + noCode.weight := by
      split <;> omega
    simp only [Pays, Code.weight, Rewritten.owed_changed] at paidCond paidArm ⊢
    omega

/-- Both arms were walked behind a condition of unknown value, and what they bring was joined. -/
structure Rejoined (before : Walk) (id : NodeId) (condCode yesCode noCode : Code) (after : Walk) (newCond : NodeId)
    (newYes newNo : Option NodeId) (newCondCode newYesCode newNoCode : Code) (breaks : List Scope) (notes : List Note) : Prop
    extends Passed before (condCode.ids ++ (yesCode.ids ++ noCode.ids)) after
      (newCondCode.ids ++ (newYesCode.ids ++ newNoCode.ids)) breaks notes where
  condShows : after.arena.Shows (.one .expr newCond) newCondCode
  yesShows : after.arena.Shows (.maybe .stmt newYes) newYesCode
  noShows : after.arena.Shows (.maybe .stmt newNo) newNoCode
  ordered : (notes.filterMap Note.write?).Sublist (condCode.writes ++ (yesCode.writes ++ noCode.writes))
  paid : after.analysis.edits.size + (newCondCode.weight + newYesCode.weight + newNoCode.weight) ≤
    before.analysis.edits.size + (condCode.weight + yesCode.weight + noCode.weight)
  walks : ∀ ledger : Ledger, ledger.Closes before.analysis after.analysis notes → ∀ added,
    ledger.Walks (.branch id condCode yesCode noCode) before.scope.versionOf (.choice id added newCondCode newYesCode newNoCode)
      after.scope.versionOf (breaks.map Scope.versionOf)

theorem rejoined {walkedYes walkedNo after : Walk} {yesAnswer noAnswer : Option NodeId × Arm}
    {newYesCode newNoCode : Code} {yesLast noLast : Scope} {yesBreaks noBreaks : List Scope}
    {yesNotes noNotes : List Note} (unknown : condCode.constant? walk.analysis.options = none)
    (stays : newCondCode.constant? walk.analysis.options = none)
    (first : walk.Rewrote condCode middle (.one .expr newCond) newCondCode [] condNotes)
    (paidCond : walk.Pays condCode 0 middle newCondCode)
    (yesWalked : middle.ArmWalked yesCode walkedYes yesAnswer newYesCode yesLast yesBreaks yesNotes)
    (noWalked : walkedYes.ArmWalked noCode walkedNo noAnswer newNoCode noLast noBreaks noNotes)
    (met : walkedNo.ArmsMet newYesCode.aborts newNoCode.aborts yesLast noLast after)
    (inside : ∀ id ∈ yesCode.ids ++ noCode.ids, id < walk.arena.size)
    (nodup : (condCode.ids ++ (yesCode.ids ++ noCode.ids)).Nodup) :
    walk.Rejoined id condCode yesCode noCode after newCond yesAnswer.1 noAnswer.1 newCondCode
      newYesCode newNoCode
      (yesBreaks ++ noBreaks) (condNotes ++ (yesNotes ++ noNotes)) := by
  have apartCond : condCode.ids.Disjoint (yesCode.ids ++ noCode.ids) :=
    List.disjoint_of_nodup_append nodup
  have apartArms : yesCode.ids.Disjoint noCode.ids :=
    List.disjoint_of_nodup_append nodup.of_append_right
  have insideNo : ∀ id ∈ noCode.ids, id < middle.arena.size := fun id mem =>
    Nat.lt_of_lt_of_le (inside id (List.mem_append_right _ mem)) first.changes.grown
  have arms := yesWalked.toPassed.append noWalked.toPassed insideNo apartArms
  have all := (first.toPassed.append arms inside apartCond).settle met.moved met.same
  have yesBeside := yesWalked.changes.disjoint insideNo apartArms
  exact {
    toPassed := all
    condShows := met.same ▸ first.beside arms inside apartCond
    yesShows := met.same ▸ noWalked.keep yesWalked.shows_ yesBeside
    noShows := met.same ▸ noWalked.shows_
    ordered := by
      rw [List.filterMap_append, List.filterMap_append]
      exact first.ordered.append (yesWalked.ordered.append noWalked.ordered)
    paid := by
      have paidYes := yesWalked.paid
      have paidNo := noWalked.paid
      rw [met.unnoticed]
      unfold Pays at paidCond paidYes paidNo
      omega
    walks := by
      intro ledger closes added
      have behind := closes.upTo met.moved.grows
      have closesArms := behind.late first.moved.grows
      have walksNo := noWalked.walks ledger (closesArms.late yesWalked.moved.grows)
      rw [yesWalked.scope] at walksNo
      rw [List.map_append]
      exact .unknown (first.walks ledger (behind.early arms.moved.grows)) (closes.options ▸ unknown)
        (closes.options ▸ stays)
        (yesWalked.walks ledger (closesArms.early noWalked.moved.grows)) walksNo
        (fun goes => (met.leadsYes goes).extend closes.traces)
          (fun goes => (met.leadsNo goes).extend closes.traces)
        (fun goes => (met.comesFrom goes).extend closes.traces) }

section Rejoined

variable {after : Walk} {newYes newNo : Option NodeId} {newYesCode newNoCode : Code}
  {breaks : List Scope} {notes : List Note}

/-- If an arm is left, the conditional stays with what is left. -/
theorem Rejoined.branch
    (joined : walk.Rejoined id condCode yesCode noCode after newCond newYes newNo newCondCode
      newYesCode newNoCode breaks notes)
    (found : walk.arena.stmt? id = some (.branch cond yes no))
    (free : id ∉ condCode.ids ++ (yesCode.ids ++ noCode.ids))
    (left : newYes ≠ none ∨ newNo ≠ none) :
    walk.LeavesStmt (.branch id condCode yesCode noCode) (some id) 0
      { after with arena := after.arena.mapStmt id (.withArms newCond newYes newNo) } := by
  have edited := joined.editStmt found free (.withArms newCond newYes newNo)
  have beside := edited.not_mem
  have whole : Code.choice id 0 newCondCode newYesCode newNoCode =
      .branch id newCondCode newYesCode newNoCode := by
    refine (Code.choice_cases id 0 newCondCode newYesCode newNoCode).resolve_left ?_
    rintro ⟨-, noYes, noNo⟩
    exact left.elim (absurd (joined.yesShows.eq_nil_iff.1 noYes))
      (absurd (joined.noShows.eq_nil_iff.1 noNo))
  have foundAfter := Arena.stmt?_mapStmt_self (joined.stmt?_eq found free)
    (.withArms newCond newYes newNo)
  have paid := joined.paid
  refine ⟨.branch id newCondCode newYesCode newNoCode, _, _,
    ⟨edited, .present (.branch foundAfter ?_ ?_ ?_), joined.ordered, fun ledger closes =>
      whole ▸ joined.walks ledger closes 0⟩, by simp only [Pays, Code.weight]; omega⟩
  · exact joined.condShows.mapStmt (fun mem => beside (List.mem_append_left _ mem)) _
  · exact joined.yesShows.mapStmt
      (fun mem => beside (List.mem_append_right _ (List.mem_append_left _ mem))) _
  · exact joined.noShows.mapStmt
      (fun mem => beside (List.mem_append_right _ (List.mem_append_right _ mem))) _

/-- If no arm is left, a new statement has the condition. -/
theorem Rejoined.effect
    (joined : walk.Rejoined id condCode yesCode noCode after newCond none none newCondCode
      newYesCode newNoCode breaks notes)
    (span : Span) :
    walk.LeavesStmt (.branch id condCode yesCode noCode) (some after.arena.size) 1
      { after with arena := after.arena.push (.stmt (.effect newCond)) span } := by
  obtain rfl := joined.yesShows.eq_nil_iff.2 rfl
  obtain rfl := joined.noShows.eq_nil_iff.2 rfl
  have widened := joined.toPassed.widen (List.subset_cons_self id _)
  have pushed := (widened.sublist (List.sublist_append_left _ _)).push
    (.stmt (.effect newCond)) span
  have paid := joined.paid
  refine ⟨.effect after.arena.size newCondCode, _, _,
    ⟨pushed, .present (.effect ?_ (joined.condShows.push _ _)), joined.ordered, fun ledger closes =>
      joined.walks ledger closes _⟩, by simp only [Pays, Code.weight] at paid ⊢; omega⟩
  exact (Arena.stmt?_push _ _ _ _).trans (if_pos rfl)

end Rejoined

/-- A conditional is rewritten with what is left of its arms. Without any it is its condition. -/
theorem gives_rewriteBranch (visits : RewritesStmts visit) (sound : walk.toSite.Sound)
    (found : walk.arena.stmt? id = some (.branch cond yes no))
    (condShows : walk.arena.Shows (.one .expr cond) condCode)
    (yesShows : walk.arena.Shows (.maybe .stmt yes) yesCode)
    (noShows : walk.arena.Shows (.maybe .stmt no) noCode)
    (nodup : (Code.branch id condCode yesCode noCode).ids.Nodup) :
    Gives (rewriteBranch visit id cond yes no) walk fun answer after =>
      walk.LeavesStmt (.branch id condCode yesCode noCode) answer.node answer.owed after := by
  obtain ⟨free, nodupAll⟩ := List.nodup_cons.1 nodup
  have apartCond : condCode.ids.Disjoint (yesCode.ids ++ noCode.ids) :=
    List.disjoint_of_nodup_append nodupAll
  have apartArms : yesCode.ids.Disjoint noCode.ids :=
    List.disjoint_of_nodup_append nodupAll.of_append_right
  have inside : ∀ id ∈ yesCode.ids ++ noCode.ids, id < walk.arena.size := fun id mem =>
    (List.mem_append.1 mem).elim (yesShows.inside id) (noShows.inside id)
  refine .bind (gives_walkExpr sound condShows nodupAll.of_append_left) ?_
  rintro newCond middle ⟨newCondCode, condNotes, first, folds, paidCond⟩
  rw [gives_arenaHere_bind, first.shows_.literal?_eq, folds.literal]
  split
  · rename_i value known
    exact gives_takeArm visits known first paidCond yesShows noShows nodupAll
  · rename_i unknown
    have yesMiddle := first.keep yesShows fun _ mem held =>
      apartCond held (List.mem_append_left _ mem)
    have noMiddle := first.keep noShows fun _ mem held =>
      apartCond held (List.mem_append_right _ mem)
    refine .bind
      (gives_walkArm visits _ first.moved.sound yesMiddle nodupAll.of_append_right.of_append_left)
      ?_
    rintro ⟨newYes, yesArm⟩ walkedYes ⟨newYesCode, yesLast, yesBreaks, yesNotes, yesWalked⟩
    have noHere := yesWalked.keep noMiddle (List.disjoint_symm apartArms)
    refine .bind
      (gives_walkArm visits _ yesWalked.moved.sound noHere nodupAll.of_append_right.of_append_right)
      ?_
    rintro ⟨newNo, noArm⟩ walkedNo ⟨newNoCode, noLast, noBreaks, noNotes, noWalked⟩
    have yesLeads := yesWalked.leads.carry noWalked.scope noWalked.moved.grows.traces
    refine .bind (gives_joinBehind noWalked.moved.sound yesLeads noWalked.leads) ?_
    rintro _ after met
    have joined : walk.Rejoined id _ _ _ after _ newYes newNo _ _ _ _ _ :=
      rejoined unknown (folds.constant.trans unknown) first paidCond yesWalked noWalked
        met inside nodupAll
    split
    · rw [gives_pushLike_bind]
      exact .pure (joined.effect _)
    · rename_i left
      rw [gives_editStmt_bind]
      refine .pure (joined.branch found free ?_)
      by_contra none
      rw [not_or, not_not, not_not] at none
      exact left none.1 none.2

end Branch

end Walk

end ValueFlow
