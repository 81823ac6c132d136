import Mathlib.Data.List.Basic

namespace Transition

variable {σ α ε : Type*}

-- A run takes the acts of a list one after the other. Every act has to be enabled (`step` is `some`)
-- and has to meet the side condition `ok` in the state in which it is taken.
inductive Run (step : σ → α → Option σ) (ok : σ → α → Prop) : σ → List α → σ → Prop
  | refl {s} : Run step ok s [] s
  | trans {s₁ s₂ s₃ a as} :
      (ok s₁ a) → (step s₁ a = some s₂) → (Run step ok s₂ as s₃) → Run step ok s₁ (a :: as) s₃

-- The side condition of a run in which every enabled act is allowed.
def free : σ → α → Prop :=
  fun _ _ => True

instance (s : σ) (a : α) : Decidable (free s a) :=
  .isTrue trivial

variable {step : σ → α → Option σ} {ok ok' : σ → α → Prop}
variable {s s₁ s₂ s₃ : σ} {a : α} {as bs : List α}

namespace Run

theorem single (h : ok s₁ a) (e : step s₁ a = some s₂) : Run step ok s₁ [a] s₂ :=
  .trans h e .refl

theorem append (r₁ : Run step ok s₁ as s₂) (r₂ : Run step ok s₂ bs s₃) :
    Run step ok s₁ (as ++ bs) s₃ := by
  induction r₁
  case refl => exact r₂
  case trans h e _ hi => exact .trans h e (hi r₂)

theorem mono (r : Run step ok s₁ as s₂) (h : ∀ {s a s'}, ok s a → step s a = some s' → ok' s a) :
    Run step ok' s₁ as s₂ := by
  induction r
  case refl => exact .refl
  case trans h' e _ hi => exact .trans (h h' e) e hi

theorem toFree (r : Run step ok s₁ as s₂) : Run step free s₁ as s₂ :=
  r.mono fun _ _ => trivial

-- A side condition may be one of the acts alone.
theorem of_forall (r : Run step ok s₁ as s₂) (h : ∀ a ∈ as, ∀ s, ok' s a) : Run step ok' s₁ as s₂ := by
  induction r
  case refl => exact .refl
  case trans e _ hi =>
    obtain ⟨ha, h⟩ := List.forall_mem_cons.mp h
    exact .trans (ha _) e (hi h)

-- What holds in the first state and is preserved by every step of a run holds in the last state.
theorem invariant {I : σ → Prop} (r : Run step ok s₁ as s₂) (h : I s₁)
    (preserves : ∀ {s a s'}, I s → ok s a → step s a = some s' → I s') : I s₂ := by
  induction r
  case refl => exact h
  case trans h' e _ hi => exact hi (preserves h h' e)

-- A side condition may be replaced by what follows from it and from an invariant.
theorem mono_of_invariant {I : σ → Prop} (r : Run step ok s₁ as s₂) (h : I s₁)
    (preserves : ∀ {s a s'}, I s → ok s a → step s a = some s' → I s')
    (implies : ∀ {s a s'}, I s → ok s a → step s a = some s' → ok' s a) : Run step ok' s₁ as s₂ := by
  induction r
  case refl => exact .refl
  case trans h' e _ hi => exact .trans (implies h h' e) e (hi (preserves h h' e))

-- A measure which decreases with every step pays for the length of the run.
theorem length_le {I : σ → Prop} {f : σ → ℕ} (r : Run step ok s₁ as s₂) (h : I s₁)
    (preserves : ∀ {s a s'}, I s → ok s a → step s a = some s' → I s')
    (decreases : ∀ {s a s'}, I s → ok s a → step s a = some s' → f s' < f s) :
    as.length + f s₂ ≤ f s₁ := by
  induction r
  case refl => simp
  case trans h' e _ hi =>
    have hd := decreases h h' e
    have hl := hi (preserves h h' e)
    simp only [List.length_cons]
    omega

-- What a part of a system goes through is a run of its own, if each step of the system is a step of the
-- part or leaves it as it is.
theorem project {τ β : Type*} {step' : τ → β → Option τ} {ok' : τ → β → Prop} {I : σ → Prop} {f : σ → τ}
    (r : Run step ok s₁ as s₂) (h : I s₁)
    (preserves : ∀ {s a s'}, I s → ok s a → step s a = some s' → I s')
    (projects : ∀ {s a s'}, I s → ok s a → step s a = some s' →
      f s' = f s ∨ ∃ b, ok' (f s) b ∧ step' (f s) b = some (f s')) : ∃ bs, Run step' ok' (f s₁) bs (f s₂) := by
  induction r
  case refl => exact ⟨[], .refl⟩
  case trans h' e _ hi =>
    obtain ⟨bs, r⟩ := hi (preserves h h' e)
    cases projects h h' e
    case inl he => exact ⟨bs, he ▸ r⟩
    case inr hb =>
      obtain ⟨b, hok, hs⟩ := hb
      exact ⟨b :: bs, .trans hok hs r⟩

-- A run goes on until what it is about, if there is always something to be done before.
theorem exists_of_progress {I P : σ → Prop} {f : σ → ℕ} {n : ℕ} (hn : f s ≤ n) (h : I s)
    (preserves : ∀ {s a s'}, I s → ok s a → step s a = some s' → I s')
    (decreases : ∀ {s a s'}, I s → ok s a → step s a = some s' → f s' < f s)
    (progress : ∀ {s}, I s → ¬ P s → ∃ a s', ok s a ∧ step s a = some s') :
    ∃ as s', Run step ok s as s' ∧ P s' := by
  induction n generalizing s
  case zero =>
    refine ⟨[], s, .refl, by_contra fun hp => ?_⟩
    obtain ⟨a, s', ho, e⟩ := progress h hp
    have := decreases h ho e
    omega
  case succ n hi =>
    by_cases hp : P s
    case pos => exact ⟨[], s, .refl, hp⟩
    case neg =>
      obtain ⟨a, s', ho, e⟩ := progress h hp
      have := decreases h ho e
      obtain ⟨as, s'', r, hp'⟩ := hi (by omega) (preserves h ho e)
      exact ⟨a :: as, s'', .trans ho e r, hp'⟩

end Run

-- What the steps of a run emit, in order.
def trace (step : σ → α → Option σ) (emit : σ → α → List ε) (s : σ) : List α → List ε
  | [] => []
  | a :: as =>
    match step s a with
    | none    => []
    | some s' => emit s a ++ trace step emit s' as

-- The counterpart of `Run.invariant` for properties which relate the last state to what has been
-- emitted on the way there.
theorem Run.invariant_trace {emit : σ → α → List ε} {I : List ε → σ → Prop}
    (r : Run step ok s₁ as s₂) (h : I [] s₁)
    (preserves : ∀ {es s a s'}, I es s → ok s a → step s a = some s' → I (es ++ emit s a) s') :
    I (trace step emit s₁ as) s₂ := by
  suffices H : ∀ es, I es s₁ → I (es ++ trace step emit s₁ as) s₂ from H [] h
  clear h
  induction r
  case refl =>
    intro es h
    simpa [trace] using h
  case trans h' e _ hi =>
    intro es h
    simp only [trace, e, ← List.append_assoc]
    exact hi _ (preserves h h' e)

-- Runs over concrete acts are found by evaluation.
def exec (step : σ → α → Option σ) (ok : σ → α → Prop) [∀ s a, Decidable (ok s a)] (s : σ) :
    List α → Option σ
  | [] => some s
  | a :: as => if ok s a then (step s a).bind (exec step ok · as) else none

theorem Run.of_exec [∀ s a, Decidable (ok s a)] (h : exec step ok s₁ as = some s₂) :
    Run step ok s₁ as s₂ := by
  induction as generalizing s₁
  case nil =>
    cases h
    exact .refl
  case cons a as hi =>
    simp only [exec] at h
    split at h
    case isTrue ho =>
      have ⟨s', e, h⟩ := Option.bind_eq_some_iff.mp h
      exact .trans ho e (hi h)
    case isFalse => contradiction

theorem Run.of_exec_isSome [∀ s a, Decidable (ok s a)] (h : (exec step ok s as).isSome = true) :
    ∃ s', Run step ok s as s' := by
  have ⟨s', e⟩ := Option.isSome_iff_exists.mp h
  exact ⟨s', .of_exec e⟩

theorem Run.of_exec_any [∀ s a, Decidable (ok s a)] {P : σ → Prop} [DecidablePred P]
    (h : (exec step ok s as).any (P ·) = true) : ∃ s', Run step ok s as s' ∧ P s' := by
  have ⟨s', e, h⟩ := (Option.any_eq_true ..).mp h
  exact ⟨s', .of_exec e, of_decide_eq_true h⟩

theorem Run.of_exec_any₂ [∀ s a, Decidable (ok s a)] {P Q : σ → Prop} [DecidablePred P] [DecidablePred Q]
    (h : (exec step ok s as).any (fun s₁ => P s₁ ∧ (exec step ok s₁ bs).any (Q ·) = true) = true) :
    ∃ s₁ s₂, Run step ok s as s₁ ∧ Run step ok s₁ bs s₂ ∧ P s₁ ∧ Q s₂ := by
  have ⟨s₁, r₁, hp, hq⟩ := Run.of_exec_any h
  have ⟨s₂, r₂, hq⟩ := Run.of_exec_any hq
  exact ⟨s₁, s₂, r₁, r₂, hp, hq⟩

end Transition
