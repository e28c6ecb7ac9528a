import Locking.Proofs.System.Order

/-! From one stage to the next.  The course of an event is cut into single passes, the first of
which is its start, so that what holds at one moment of a course can be told from what holds after
it. -/

namespace Locking.System

/-- In the course that an event takes, the system passes from one stage to the next. -/
inductive Passes (s : System) (e : Event) : System → Stage → System → Stage → Prop
  | start {s' p'} (hst : Start s e s' p') (hend : Advances s' p' (s.step e)) :
    Passes s e s idle s' p'
  | advance {s₁ p₁ s₂ p₂ s₃ p₃} (h : Passes s e s₁ p₁ s₂ p₂) (ha : Advance s₂ p₂ s₃ p₃)
      (hend : Advances s₃ p₃ (s.step e)) : Passes s e s₂ p₂ s₃ p₃

variable {s s₁ s₂ : System} {e : Event} {p₁ p₂ : Stage}

theorem Passes.advances (h : Passes s e s₁ p₁ s₂ p₂) : Advances s₂ p₂ (s.step e) := by
  cases h with
  | start _ hend | advance _ _ hend => exact hend

/-- What is invariant holds at both ends of every pass. -/
theorem Invariant.passes {rule : System → Event → Prop} {P : System → Stage → Prop}
    (h : Invariant rule P) (hp : P s idle) (hr : rule s e) (hpass : Passes s e s₁ p₁ s₂ p₂) :
    P s₁ p₁ ∧ P s₂ p₂ := by
  induction hpass with
  | start hst => exact ⟨hp, h.start hr hp hst⟩
  | advance _ ha _ ih => exact ⟨ih.2, h.advance ih.2 ha⟩

/-- What an event puts an end to comes to its end in one of the passes. -/
theorem Tidy.exists_passes {P : System → Stage → Prop} (h : s.Tidy) (hp : P s idle)
    (hn : ¬ P (s.step e).1 (.concluded (s.step e).2)) :
    ∃ s₁ p₁ s₂ p₂, Passes s e s₁ p₁ s₂ p₂ ∧ P s₁ p₁ ∧ ¬ P s₂ p₂ := by
  have hrest : ∀ {s₁ p₁ s₂ p₂ result}, Advances s₂ p₂ result → result = s.step e →
      Passes s e s₁ p₁ s₂ p₂ → P s₂ p₂ →
        ∃ s₁ p₁ s₂ p₂, Passes s e s₁ p₁ s₂ p₂ ∧ P s₁ p₁ ∧ ¬ P s₂ p₂ := by
    intro s₁ p₁ s₂ p₂ result hend
    induction hend generalizing s₁ p₁ with
    | concluded =>
      intro heq _ hp
      rw [← heq] at hn
      exact absurd hp hn
    | @step s₂ p₂ s₃ p₃ result ha hend ih =>
      intro heq hpass hp
      have hnext : Passes s e s₂ p₂ s₃ p₃ := .advance hpass ha (heq ▸ hend)
      by_cases hp' : P s₃ p₃
      · exact ih heq hnext hp'
      · exact ⟨s₂, p₂, s₃, p₃, hnext, hp, hp'⟩
  obtain ⟨s', p', hst, hend⟩ := follows_step h e
  have hstart : Passes s e s idle s' p' := .start hst hend
  by_cases hp' : P s' p'
  · exact hrest hend rfl hstart hp'
  · exact ⟨s, idle, s', p', hstart, hp, hp'⟩

end Locking.System
