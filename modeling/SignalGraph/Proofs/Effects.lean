/-
Operations that change a state and may fail.

Designs and machines are changed by operations of this kind. `bind_eq_ok` opens one that
succeeded into one equation for each of its steps, and `after` is what one leaves behind,
whether it succeeded or not.
-/

namespace SignalGraph

section

variable {ε σ α β : Type}

/-- The state after an operation, whether it succeeded or not. -/
def after (x : EStateM ε σ α) (s : σ) : σ :=
  match x s with
  | .ok _ s' => s'
  | .error _ s' => s'

theorem after_of_ok {x : EStateM ε σ α} {a : α} {s s' : σ} (h : x s = .ok a s') : after x s = s' := by
  simp [after, h]

theorem after_of_error {x : EStateM ε σ α} {e : ε} {s s' : σ} (h : x s = .error e s') :
    after x s = s' := by
  simp [after, h]

/-- What an operation returns, if it succeeds. -/
def result? (x : EStateM ε σ α) (s : σ) : Option α :=
  match x s with
  | .ok a _ => some a
  | .error _ _ => none

theorem eq_ok_of_result? {x : EStateM ε σ α} {s : σ} {f : α → β} {b : β} (h : (result? x s).map f = some b) :
    ∃ a, x s = .ok a (after x s) ∧ f a = b := by
  unfold result? at h
  cases hx : x s with
  | ok a s' =>
    rw [hx] at h
    exact ⟨a, by rw [after_of_ok hx], Option.some.inj h⟩
  | error e s' =>
    rw [hx] at h
    cases h

theorem eq_error_of_result? {x : EStateM ε σ α} {s : σ} (h : result? x s = none) :
    ∃ e, x s = .error e (after x s) := by
  unfold result? at h
  cases hx : x s with
  | ok a s' =>
    rw [hx] at h
    cases h
  | error e s' => exact ⟨e, by rw [after_of_error hx]⟩

@[simp] theorem after_pure (a : α) (s : σ) : after (pure a : EStateM ε σ α) s = s := rfl

@[simp] theorem after_throw (e : ε) (s : σ) : after (throw e : EStateM ε σ α) s = s := rfl

theorem after_bind (x : EStateM ε σ α) (f : α → EStateM ε σ β) (s : σ) :
    after (x >>= f) s = match x s with
      | .ok a s' => after (f a) s'
      | .error _ s' => s' := by
  simp only [after, bind, EStateM.bind]
  cases x s <;> rfl

theorem bind_eq_ok {x : EStateM ε σ α} {f : α → EStateM ε σ β} {s s' : σ} {b : β} :
    (x >>= f) s = .ok b s' ↔ ∃ a s₁, x s = .ok a s₁ ∧ f a s₁ = .ok b s' := by
  simp only [bind, EStateM.bind]
  cases hx : x s with
  | ok a s₁ =>
    constructor
    · exact fun h => ⟨a, s₁, rfl, h⟩
    · intro h
      obtain ⟨_, _, h, hf⟩ := h
      cases h
      exact hf
  | error e s₁ => simp

theorem bind_eq_error {x : EStateM ε σ α} {f : α → EStateM ε σ β} {s s' : σ} {e : ε} :
    (x >>= f) s = .error e s' ↔ x s = .error e s' ∨ ∃ a s₁, x s = .ok a s₁ ∧ f a s₁ = .error e s' := by
  simp only [bind, EStateM.bind]
  cases hx : x s with
  | ok a s₁ =>
    constructor
    · exact fun h => .inr ⟨a, s₁, rfl, h⟩
    · rintro (h | ⟨_, _, h, hf⟩)
      · cases h
      · cases h
        exact hf
  | error e s₁ => simp

theorem pure_eq_ok {a b : α} {s s' : σ} :
    (pure a : EStateM ε σ α) s = .ok b s' ↔ a = b ∧ s = s' := by
  simp only [pure, EStateM.pure, EStateM.Result.ok.injEq]

theorem throw_eq_ok {e : ε} {a : α} {s s' : σ} :
    (throw e : EStateM ε σ α) s = .ok a s' ↔ False := by
  show (EStateM.Result.error e s : EStateM.Result ε σ α) = .ok a s' ↔ False
  simp only [reduceCtorEq]

theorem modify_eq_ok {f : σ → σ} {u : PUnit} {s s' : σ} :
    (modify f : EStateM ε σ PUnit) s = .ok u s' ↔ f s = s' := by
  show (EStateM.Result.ok ⟨⟩ (f s) : EStateM.Result ε σ PUnit) = .ok u s' ↔ f s = s'
  simp only [EStateM.Result.ok.injEq, true_and]

theorem forM_cons_eq_ok {f : α → EStateM ε σ PUnit} {a : α} {l : List α} {u : PUnit} {s s' : σ} :
    (a :: l).forM f s = .ok u s' ↔ ∃ s₁, f a s = .ok ⟨⟩ s₁ ∧ l.forM f s₁ = .ok u s' := by
  show (f a >>= fun _ => l.forM f) s = _ ↔ _
  simp only [bind_eq_ok]
  constructor
  · intro h
    obtain ⟨_, s₁, ha, hl⟩ := h
    exact ⟨s₁, ha, hl⟩
  · intro h
    obtain ⟨s₁, ha, hl⟩ := h
    exact ⟨⟨⟩, s₁, ha, hl⟩

theorem forM_nil_eq_ok {f : α → EStateM ε σ PUnit} {u : PUnit} {s s' : σ} :
    ([] : List α).forM f s = .ok u s' ↔ s = s' := by
  show (pure ⟨⟩ : EStateM ε σ PUnit) s = _ ↔ _
  simp only [pure_eq_ok, true_and]

theorem forM_cons_eq_error {f : α → EStateM ε σ PUnit} {a : α} {l : List α} {e : ε} {s s' : σ} :
    (a :: l).forM f s = .error e s' ↔
      f a s = .error e s' ∨ ∃ s₁, f a s = .ok ⟨⟩ s₁ ∧ l.forM f s₁ = .error e s' := by
  show (f a >>= fun _ => l.forM f) s = _ ↔ _
  rw [bind_eq_error]
  refine or_congr_right ⟨fun h => ?_, fun h => ?_⟩
  · obtain ⟨_, s₁, ha, hl⟩ := h
    exact ⟨s₁, ha, hl⟩
  · obtain ⟨s₁, ha, hl⟩ := h
    exact ⟨⟨⟩, s₁, ha, hl⟩

/-- A loop fails where its body does for the first time. -/
theorem forM_eq_error {f : α → EStateM ε σ PUnit} {l : List α} {e : ε} {s s' : σ} : l.forM f s = .error e s' ↔
    ∃ before a rest s₁, l = before ++ a :: rest ∧ before.forM f s = .ok ⟨⟩ s₁ ∧ f a s₁ = .error e s' := by
  induction l generalizing s with
  | nil =>
    refine ⟨fun h => ?_, fun h => ?_⟩
    · cases h
    · obtain ⟨before, a, rest, s₁, h, -⟩ := h
      cases before <;> cases h
  | cons x l ih =>
    rw [forM_cons_eq_error]
    refine ⟨fun h => ?_, fun h => ?_⟩
    · rcases h with h | ⟨s₁, hx, h⟩
      · exact ⟨[], x, l, s, rfl, rfl, h⟩
      · obtain ⟨before, a, rest, s₂, rfl, hbefore, ha⟩ := ih.mp h
        exact ⟨x :: before, a, rest, s₂, rfl, forM_cons_eq_ok.mpr ⟨s₁, hx, hbefore⟩, ha⟩
    · obtain ⟨_ | ⟨y, before⟩, a, rest, s₂, h, hbefore, ha⟩ := h
      · cases h
        cases forM_nil_eq_ok.mp hbefore
        exact .inl ha
      · cases h
        obtain ⟨s₁, hx, hbefore⟩ := forM_cons_eq_ok.mp hbefore
        exact .inr ⟨s₁, hx, ih.mpr ⟨before, a, rest, s₂, rfl, hbefore, ha⟩⟩

theorem after_discard (x : EStateM ε σ α) (s : σ) : after (discard x) s = after x s := by
  simp only [after, discard, Functor.discard, Functor.mapConst, EStateM.map, Function.comp]
  cases x s <;> rfl

theorem discard_eq_ok {x : EStateM ε σ α} {u : PUnit} {s s' : σ} :
    (discard x) s = .ok u s' ↔ ∃ a, x s = .ok a s' := by
  simp only [discard, Functor.discard, Functor.mapConst, EStateM.map, Function.comp]
  cases x s <;> simp

end

end SignalGraph
