import ValueFlow.Walk.Basic

/-!
# Computations and their two ends

A computation ends well, with a value, or with a fault, and in both cases it leaves a state behind.
`Ends act state well ill` says what holds of the end that `act` reaches from `state`. It unfolds
along the computation: the end of `act >>= next` is the end of `next` from where `act` ended well
(`ends_bind`), and an operation on a part of the state ends where that part ends (`ends_focus`).
-/

namespace ValueFlow
set_option autoImplicit false

section Ends

variable {ε σ τ α β : Type}

/-- The computation ends from a state as described: `well` of a value, `ill` of a fault. -/
def Ends (act : EStateM ε σ α) (state : σ) (well : α → σ → Prop) (ill : ε → σ → Prop) : Prop :=
  match act state with
  | .ok value after => well value after
  | .error fault after => ill fault after

variable {act : EStateM ε σ α} {state : σ} {well well' : α → σ → Prop} {ill ill' : ε → σ → Prop}

theorem Ends.mono (h : Ends act state well ill)
    (wellMono : ∀ value after, well value after → well' value after)
    (illMono : ∀ fault after, ill fault after → ill' fault after) : Ends act state well' ill' := by
  unfold Ends at *
  split at h
  · exact wellMono _ _ h
  · exact illMono _ _ h

/-- What holds of every good end holds of the one that was reached. -/
theorem Ends.of_ok (h : Ends act state well ill) {value : α} {after : σ}
    (reached : act state = .ok value after) : well value after := by
  unfold Ends at h
  rwa [reached] at h

theorem Ends.of_error (h : Ends act state well ill) {fault : ε} {after : σ}
    (reached : act state = .error fault after) : ill fault after := by
  unfold Ends at h
  rwa [reached] at h

theorem Ends.and (first : Ends act state well ill) (second : Ends act state well' ill') :
    Ends act state (fun value after => well value after ∧ well' value after) fun fault after =>
      ill fault after ∧ ill' fault after := by
  unfold Ends at *
  split at first
  · rename_i reached
    rw [reached] at second
    exact ⟨first, second⟩
  · rename_i reached
    rw [reached] at second
    exact ⟨first, second⟩

/-- A computation that cannot fail ends well. -/
theorem Ends.exists_ok (h : Ends act state well fun _ _ => False) :
    ∃ value after, act state = .ok value after ∧ well value after := by
  unfold Ends at h
  split at h
  · exact ⟨_, _, ‹_›, h⟩
  · exact h.elim

/-- A statement about good ends alone is one about the end that is reached. -/
theorem ends_well_iff : Ends act state well (fun _ _ => True) ↔
    ∀ value after, act state = .ok value after → well value after := by
  refine ⟨fun h _ _ reached => h.of_ok reached, fun h => ?_⟩
  unfold Ends
  split
  · exact h _ _ ‹_›
  · trivial

/-- A computation reaches the end that it reaches. -/
theorem ends_reached (act : EStateM ε σ α) (state : σ) :
    Ends act state (fun value after => act state = .ok value after)
      (fun fault after => act state = .error fault after) := by
  unfold Ends
  split
  · assumption
  · assumption

/-- The computation ends well from a state, and so does what is asked of its end. -/
def endsWith (act : EStateM ε σ α) (state : σ) (test : α → σ → Bool) : Bool :=
  match act state with
  | .ok value after => test value after
  | .error _ _ => false

theorem exists_of_endsWith {test : α → σ → Bool} (h : endsWith act state test = true) :
    ∃ value after, act state = .ok value after ∧ test value after = true := by
  unfold endsWith at h
  split at h
  · exact ⟨_, _, ‹_›, h⟩
  · cases h

theorem ends_bind {next : α → EStateM ε σ β} {well : β → σ → Prop} :
    Ends (act >>= next) state well ill ↔
      Ends act state (fun value after => Ends (next value) after well ill) ill := by
  simp only [Ends, Bind.bind, EStateM.bind]
  cases act state <;> rfl

theorem ends_map {f : α → β} {well : β → σ → Prop} :
    Ends (f <$> act) state well ill ↔
      Ends act state (fun value after => well (f value) after) ill := by
  simp only [Ends, Functor.map, EStateM.map]
  cases act state <;> rfl

@[simp] theorem ends_discard {well : PUnit → σ → Prop} :
    Ends (discard act) state well ill ↔ Ends act state (fun _ after => well ⟨⟩ after) ill :=
  ends_map

@[simp] theorem ends_pure {value : α} :
    Ends (pure value : EStateM ε σ α) state well ill ↔ well value state := Iff.rfl

@[simp] theorem ends_throw {fault : ε} :
    Ends (throw fault : EStateM ε σ α) state well ill ↔ ill fault state := Iff.rfl

@[simp] theorem ends_get {well : σ → σ → Prop} :
    Ends (get : EStateM ε σ σ) state well ill ↔ well state state := Iff.rfl

@[simp] theorem ends_modify {f : σ → σ} {well : PUnit → σ → Prop} :
    Ends (modify f : EStateM ε σ PUnit) state well ill ↔ well ⟨⟩ (f state) := Iff.rfl

theorem ends_ofExcept {answer : Except ε α} :
    Ends (ofExcept answer : EStateM ε σ α) state well ill ↔
      (∀ value, answer = .ok value → well value state) ∧
        (∀ fault, answer = .error fault → ill fault state) := by
  cases answer <;> simp [ofExcept]

/-- A computation on a part of the state ends where the part ends. -/
theorem ends_focus {part : σ → τ} {put : τ → σ → σ} {act : EStateM ε τ α} :
    Ends (focus part put act) state well ill ↔
      Ends act (part state) (fun value after => well value (put after state))
        (fun fault after => ill fault (put after state)) := by
  simp only [Ends, focus]
  cases act (part state) <;> rfl

/-- A computation is run for each of a list: what holds of the state while some of the list are
pending holds in the end with none pending. -/
theorem ends_forM {f : α → EStateM ε σ PUnit} {ill : ε → σ → Prop} (holds : List α → σ → Prop)
    (each : ∀ value pending state, holds (value :: pending) state →
      Ends (f value) state (fun _ => holds pending) ill)
    {list : List α} {state : σ} (start : holds list state) :
    Ends (list.forM f) state (fun _ => holds []) ill := by
  induction list generalizing state with
  | nil => exact start
  | cons head tail ih =>
    change Ends (f head >>= fun _ => tail.forM f) state (fun _ => holds []) ill
    rw [ends_bind]
    exact (each head tail state start).mono (fun _ _ => ih) (fun _ _ fell => fell)

/-- If the computation ends well, then as described. -/
def Gives (act : EStateM ε σ α) (state : σ) (well : α → σ → Prop) : Prop := Ends act state well fun _ _ => True

theorem Ends.gives (h : Ends act state well ill) : Gives act state well :=
  h.mono (fun _ _ told => told) fun _ _ _ => trivial

theorem Gives.mono (gives : Gives act state well)
    (wellMono : ∀ value after, well value after → well' value after) :
    Gives act state well' :=
  Ends.mono gives wellMono fun _ _ told => told

theorem Gives.and {also : α → σ → Prop} (first : Gives act state well)
    (second : Gives act state also) :
    Gives act state fun value after => well value after ∧ also value after :=
  (Ends.and first second).gives

/-- What holds of every good end may be added to a description of both ends. -/
theorem Ends.and_gives {also : α → σ → Prop} (ends : Ends act state well ill)
    (gives : Gives act state also) :
    Ends act state (fun value after => well value after ∧ also value after) ill :=
  (ends.and gives).mono (fun _ _ told => told) fun _ _ fell => fell.1

theorem Gives.pure {value : α} (held : well value state) :
    Gives (Pure.pure value : EStateM ε σ α) state well :=
  held

theorem Gives.discard {last : σ → Prop} (gives : Gives act state fun _ => last) :
    Gives (discard act) state fun _ => last :=
  ends_discard.2 gives

theorem Gives.throw {fault : ε} : Gives (MonadExcept.throw fault : EStateM ε σ α) state well :=
  trivial

theorem Gives.bind {next : α → EStateM ε σ β} {last : β → σ → Prop} (first : Gives act state well)
    (rest : ∀ value after, well value after → Gives (next value) after last) :
    Gives (act >>= next) state last :=
  ends_bind.2 (Gives.mono first rest)

end Ends

section Lifts

variable {α : Type} {ill : Fault → Site → Prop}

@[simp] theorem ends_liftTraces {act : TracesM α} {state : Analysis} {well : α → Analysis → Prop}
    {ill : Fault → Analysis → Prop} :
    Ends (liftM act : AnalysisM α) state well ill ↔
      Ends act state.traces (fun value traces => well value { state with traces })
        (fun fault traces => ill fault { state with traces }) :=
  ends_focus

@[simp] theorem ends_liftAnalysis {act : AnalysisM α} {site : Site} {well : α → Site → Prop} :
    Ends (liftM act : SiteM α) site well ill ↔
      Ends act site.analysis (fun value analysis => well value { site with analysis })
        (fun fault analysis => ill fault { site with analysis }) :=
  ends_focus

@[simp] theorem ends_liftTracesSite {act : TracesM α} {site : Site} {well : α → Site → Prop} :
    Ends (liftM act : SiteM α) site well ill ↔
      Ends act site.analysis.traces
        (fun value traces => well value { site with analysis := { site.analysis with traces } })
        (fun fault traces =>
          ill fault { site with analysis := { site.analysis with traces } }) := by
  change Ends (liftM (liftM act : AnalysisM α) : SiteM α) site well ill ↔ _
  rw [ends_liftAnalysis, ends_liftTraces]

@[simp] theorem ends_liftSite {act : SiteM α} {walk : Walk} {well : α → Walk → Prop}
    {ill : Fault → Walk → Prop} :
    Ends (liftM act : WalkM α) walk well ill ↔
      Ends act walk.toSite (fun value site => well value { walk with toSite := site })
        (fun fault site => ill fault { walk with toSite := site }) :=
  ends_focus

@[simp] theorem ends_liftAnalysisWalk {act : AnalysisM α} {walk : Walk} {well : α → Walk → Prop}
    {ill : Fault → Walk → Prop} :
    Ends (liftM act : WalkM α) walk well ill ↔
      Ends act walk.analysis (fun value analysis => well value { walk with analysis })
        (fun fault analysis => ill fault { walk with analysis }) := by
  change Ends (liftM (liftM act : SiteM α) : WalkM α) walk well ill ↔ _
  rw [ends_liftSite, ends_liftAnalysis]

end Lifts

section Brackets

variable {α : Type} {act : WalkM α} {walk : Walk} {ill : Fault → Walk → Prop}

theorem ends_inFork {label : String} {well : α × Scope → Walk → Prop} :
    Ends (Walk.inFork label act) walk well ill ↔
      Ends act { walk with scope := walk.scope.fork label }
        (fun value after => well (value, after.scope) { after with scope := walk.scope })
        (fun fault after => ill fault { after with scope := walk.scope }) := by
  unfold Ends Walk.inFork
  cases act { walk with scope := walk.scope.fork label } <;> rfl

theorem ends_catching {caught : Catch} {well : α → Walk → Prop} :
    Ends (Walk.catching caught act) walk well ill ↔
      Ends act { walk with
        analysis := { walk.analysis with exits := walk.analysis.exits.enter caught } }
        (fun value after => well value (after.leaveRegistries caught walk.analysis.exits))
        (fun fault after => ill fault (after.leaveRegistries caught walk.analysis.exits)) := by
  unfold Ends Walk.catching
  dsimp only
  cases act { walk with
    analysis := { walk.analysis with exits := walk.analysis.exits.enter caught } } <;> rfl

theorem ends_located {span : Span} {well : α → Walk → Prop} :
    Ends (Walk.located span act) walk well ill ↔
      Ends act walk well (fun fault after => ill (fault.within span) after) := by
  unfold Ends Walk.located
  cases act walk <;> rfl

end Brackets

namespace Walk

section GoodEnds

variable {α β : Type} {walk : Walk} {act : SiteM α} {well : α → Site → Prop}
  {last : β → Walk → Prop}

theorem gives_arenaHere_bind {next : Arena → WalkM β} :
    Gives (arenaHere >>= next) walk last ↔ Gives (next walk.arena) walk last :=
  Iff.rfl

theorem gives_get_bind {next : Walk → WalkM β} :
    Gives (get >>= next) walk last ↔ Gives (next walk) walk last :=
  Iff.rfl

theorem gives_scopeHere_bind {next : Scope → WalkM β} :
    Gives (liftM Site.scopeHere >>= next) walk last ↔ Gives (next walk.scope) walk last :=
  Iff.rfl

theorem gives_editStmt_bind {id : NodeId} {edit : Stmt → Stmt} {next : Unit → WalkM β} :
    Gives (editStmt id edit >>= next) walk last ↔
      Gives (next ⟨⟩) { walk with arena := walk.arena.mapStmt id edit } last :=
  Iff.rfl

theorem gives_editExpr_bind {id : NodeId} {edit : Expr → Expr} {next : Unit → WalkM β} :
    Gives (editExpr id edit >>= next) walk last ↔
      Gives (next ⟨⟩) { walk with arena := walk.arena.mapExpr id edit } last :=
  Iff.rfl

theorem gives_pushLike_bind {old : NodeId} {node : Node} {next : NodeId → WalkM β} :
    Gives (pushLike old node >>= next) walk last ↔
      Gives (next walk.arena.size)
        { walk with arena := walk.arena.push node (walk.arena.span old) } last :=
  Iff.rfl

/-- An operation on the site leaves the arena alone. -/
theorem gives_lift (gives : Gives act walk.toSite well) :
    Gives (liftM act : WalkM α) walk fun value after => well value after.toSite ∧
      after.arena = walk.arena :=
  ends_liftSite.2 (Gives.mono gives fun _ _ held => ⟨held, rfl⟩)

end GoodEnds

end Walk

end ValueFlow
