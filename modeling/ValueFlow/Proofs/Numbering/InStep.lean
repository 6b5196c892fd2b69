import ValueFlow.Proofs.Integrity.Law

/-!
# Two computations in step

Two computations are in step under a relation of states if from related states they end alike, both
with values that are related or both with a fault, and in states that are related again (`InStep`).
Faults have to be the same, unless both blame the log, which names versions in them.

Nothing is asked of the states but the relation. So a computation is in step with itself as soon as
the parts that it is put together from are, under any bracket that keeps the relation.
-/

namespace ValueFlow
set_option autoImplicit false

/-- The faults are the same, or both blame the log. -/
def Fault.Agrees (fault other : Fault) : Prop := other = fault ∨ fault.blamesLog = true ∧ other.blamesLog = true

theorem Fault.Agrees.refl (fault : Fault) : fault.Agrees fault := .inl rfl

theorem Fault.Agrees.within {fault other : Fault} (agrees : fault.Agrees other) (span : Span) :
    (fault.within span).Agrees (other.within span) := by
  rcases agrees with rfl | ⟨blames, blamesOther⟩
  · exact .refl _
  · refine .inr ⟨?_, ?_⟩ <;> simpa [blamesLog] using ‹_›

section InStep

variable {σ τ α β γ δ : Type}

/-- From related states both end alike, with related values or with faults that agree, and in
related states. -/
def InStep (rel : σ → σ → Prop) (first : EStateM Fault σ α) (second : EStateM Fault σ β) (same : α → β → Prop) : Prop :=
  ∀ left right, rel left right →
    match first left, second right with
    | .ok value leftAfter, .ok other rightAfter => same value other ∧ rel leftAfter rightAfter
    | .error fault leftAfter, .error other rightAfter => fault.Agrees other ∧ rel leftAfter rightAfter
    | _, _ => False

variable {rel : σ → σ → Prop} {first : EStateM Fault σ α} {second : EStateM Fault σ β}
  {same more : α → β → Prop}

namespace InStep

theorem mono (inStep : InStep rel first second same)
    (further : ∀ value other, same value other → more value other) :
    InStep rel first second more := by
  intro left right related
  have ends := inStep left right related
  cases one : first left <;> cases two : second right <;> rw [one, two] at ends
  · exact ⟨further _ _ ends.1, ends.2⟩
  · exact ends
  · exact ends
  · exact ends

theorem pure {value : α} {other : β} (held : same value other) :
    InStep rel (Pure.pure value) (Pure.pure other) same :=
  fun _ _ related => ⟨held, related⟩

theorem throw {fault other : Fault} (agrees : fault.Agrees other) :
    InStep rel (MonadExcept.throw fault : EStateM Fault σ α)
      (MonadExcept.throw other : EStateM Fault σ β) same :=
  fun _ _ related => ⟨agrees, related⟩

theorem bind {next : α → EStateM Fault σ γ} {nextSecond : β → EStateM Fault σ δ}
    {last : γ → δ → Prop} (inStep : InStep rel first second same)
    (rest : ∀ value other, same value other → InStep rel (next value) (nextSecond other) last) :
    InStep rel (first >>= next) (second >>= nextSecond) last := by
  intro left right related
  have ends := inStep left right related
  simp only [Bind.bind, EStateM.bind]
  cases one : first left <;> cases two : second right <;> rw [one, two] at ends
  · exact rest _ _ ends.1 _ _ ends.2
  · exact ends.elim
  · exact ends.elim
  · exact ends

theorem map {f : α → γ} {g : β → δ} {last : γ → δ → Prop} (inStep : InStep rel first second same)
    (further : ∀ value other, same value other → last (f value) (g other)) :
    InStep rel (f <$> first) (g <$> second) last := by
  intro left right related
  have ends := inStep left right related
  simp only [Functor.map, EStateM.map]
  cases one : first left <;> cases two : second right <;> rw [one, two] at ends
  · exact ⟨further _ _ ends.1, ends.2⟩
  · exact ends.elim
  · exact ends.elim
  · exact ends

theorem discard (inStep : InStep rel first second same) :
    InStep rel (Functor.discard first) (Functor.discard second) fun _ _ => True :=
  inStep.map fun _ _ _ => trivial

/-- What is done next may depend on what both states have in common. -/
theorem get_bind {next nextSecond : σ → EStateM Fault σ α} {same : α → α → Prop}
    (rest : ∀ left right, rel left right → InStep rel (next left) (nextSecond right) same) :
    InStep rel (get >>= next) (get >>= nextSecond) same :=
  fun left right related => rest left right related left right related

theorem modify {f g : σ → σ} (keeps : ∀ left right, rel left right → rel (f left) (g right)) :
    InStep rel (modify f : EStateM Fault σ PUnit) (modify g : EStateM Fault σ PUnit)
      fun _ _ => True :=
  fun left right related => ⟨trivial, keeps left right related⟩

theorem forM {related : γ → δ → Prop} {items : List γ} {others : List δ}
    {act : γ → EStateM Fault σ PUnit} {actOther : δ → EStateM Fault σ PUnit}
    (pairs : List.Forall₂ related items others)
    (each : ∀ item other, related item other → InStep rel (act item) (actOther other)
      fun _ _ => True) :
    InStep rel (items.forM act) (others.forM actOther) fun _ _ => True := by
  induction pairs with
  | nil => exact .pure trivial
  | cons here _ ih => exact (each _ _ here).bind fun _ _ _ => ih

/-- Both sides go through the same items. -/
theorem forM_same {items : List γ} {act actOther : γ → EStateM Fault σ PUnit}
    (each : ∀ item, InStep rel (act item) (actOther item) fun _ _ => True) :
    InStep rel (items.forM act) (items.forM actOther) fun _ _ => True :=
  .forM (List.forall₂_same.2 fun _ _ => rfl) fun item _ same => same ▸ each item

theorem mapM_same {items : List γ} {act : γ → EStateM Fault σ δ}
    (each : ∀ item, InStep rel (act item) (act item) Eq) :
    InStep rel (items.mapM act) (items.mapM act) Eq := by
  induction items with
  | nil => exact .pure rfl
  | cons item rest ih =>
    rw [List.mapM_cons]
    refine (each item).bind fun value _ same => ih.bind fun values _ sameRest => .pure ?_
    rw [same, sameRest]

/-- Computations on a part of the states. -/
theorem focus {part : σ → τ} {put : τ → σ → σ} {relPart : τ → τ → Prop}
    {first : EStateM Fault τ α} {second : EStateM Fault τ β}
    (inStep : InStep relPart first second same)
    (finds : ∀ {left right}, rel left right → relPart (part left) (part right))
    (puts : ∀ {left right leftPart rightPart}, rel left right → relPart leftPart rightPart →
      rel (put leftPart left) (put rightPart right)) :
    InStep rel (ValueFlow.focus part put first) (ValueFlow.focus part put second) same := by
  intro left right related
  have ends := inStep _ _ (finds related)
  simp only [ValueFlow.focus]
  cases one : first (part left) <;> cases two : second (part right) <;> rw [one, two] at ends
  · exact ⟨ends.1, puts related ends.2⟩
  · exact ends.elim
  · exact ends.elim
  · exact ⟨ends.1, puts related ends.2⟩

end InStep

end InStep

end ValueFlow
