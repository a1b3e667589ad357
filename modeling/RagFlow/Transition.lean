import Mathlib.Data.List.Basic

/-! # Runs of a transition system

A transition system on states `σ` with labels `ℓ` is a relation `step s l s'`.  A run is the list
of its labels together with the states they lead to.  `states_of_steps` and `states_iff_steps`
reduce a statement on all states of a run to a statement on its steps: where a step from a good
state leads to a good state exactly when it meets a condition, the states of a run are all good
exactly when its steps all meet the condition. -/

namespace RagFlow.Transition

variable {σ ℓ : Type}

/-- The list is a run of the system from `s`. -/
def IsRun (step : σ → ℓ → σ → Prop) : σ → List (ℓ × σ) → Prop
  | _, [] => True
  | s, (l, s') :: run => step s l s' ∧ IsRun step s' run

/-- Every step of the run meets the condition `C` in the state it is taken from. -/
def AllSteps (C : σ → ℓ → Prop) : σ → List (ℓ × σ) → Prop
  | _, [] => True
  | s, (l, s') :: run => C s l ∧ AllSteps C s' run

instance AllSteps.decidable {C : σ → ℓ → Prop} [∀ s l, Decidable (C s l)] :
    ∀ (s : σ) (run : List (ℓ × σ)), Decidable (AllSteps C s run)
  | _, [] => isTrue trivial
  | s, (l, s') :: run =>
      have := AllSteps.decidable (C := C) s' run
      inferInstanceAs (Decidable (C s l ∧ AllSteps C s' run))

/-- The state after the run. -/
def last : σ → List (ℓ × σ) → σ
  | s, [] => s
  | _, (_, s') :: run => last s' run

variable {step : σ → ℓ → σ → Prop} {C : σ → ℓ → Prop} (Good : σ → Prop)

@[simp] theorem last_concat (s : σ) (run : List (ℓ × σ)) (x : ℓ × σ) :
    last s (run ++ [x]) = x.2 := by
  induction run generalizing s with
  | nil => rfl
  | cons y run ih => exact ih y.2

theorem isRun_append (run run' : List (ℓ × σ)) :
    ∀ s, IsRun step s (run ++ run') ↔ IsRun step s run ∧ IsRun step (last s run) run' := by
  induction run with
  | nil => exact fun s => (and_iff_right trivial).symm
  | cons x run ih =>
      intro s
      show _ ∧ IsRun step x.2 (run ++ run') ↔
        (_ ∧ IsRun step x.2 run) ∧ IsRun step (last x.2 run) run'
      rw [ih, and_assoc]

theorem allSteps_append (run run' : List (ℓ × σ)) :
    ∀ s, AllSteps C s (run ++ run') ↔ AllSteps C s run ∧ AllSteps C (last s run) run' := by
  induction run with
  | nil => exact fun s => (and_iff_right trivial).symm
  | cons x run ih =>
      intro s
      show _ ∧ AllSteps C x.2 (run ++ run') ↔
        (_ ∧ AllSteps C x.2 run) ∧ AllSteps C (last x.2 run) run'
      rw [ih, and_assoc]

theorem allSteps_congr {C' : σ → ℓ → Prop} (h : ∀ s l, C s l ↔ C' s l) (run : List (ℓ × σ)) :
    ∀ {s}, AllSteps C s run ↔ AllSteps C' s run := by
  induction run with
  | nil => exact Iff.rfl
  | cons x run ih => exact and_congr (h _ _) ih

theorem allSteps_and {C' : σ → ℓ → Prop} (run : List (ℓ × σ)) :
    ∀ {s}, AllSteps (fun s l => C s l ∧ C' s l) s run ↔ AllSteps C s run ∧ AllSteps C' s run := by
  induction run with
  | nil => exact iff_of_true trivial ⟨trivial, trivial⟩
  | cons x run ih =>
      intro s
      show (_ ∧ _) ∧ AllSteps _ x.2 run ↔ (_ ∧ AllSteps C x.2 run) ∧ _ ∧ AllSteps C' x.2 run
      rw [ih]
      exact and_and_and_comm

/-- Where a step that meets the condition leads from a good state to a good state, and with `P`, all
steps of a run whose steps meet it are with `P`. -/
theorem results_of_steps {P : ℓ → σ → Prop}
    (hstep : ∀ {s l s'}, Good s → C s l → step s l s' → Good s' ∧ P l s')
    (run : List (ℓ × σ)) :
    ∀ {s}, Good s → IsRun step s run → AllSteps C s run → ∀ x ∈ run, P x.1 x.2 := by
  induction run with
  | nil =>
      intro s _ _ _ x hx
      exact absurd hx List.not_mem_nil
  | cons y run ih =>
      obtain ⟨l, s'⟩ := y
      rintro s hs ⟨hfirst, hrest⟩ ⟨hc, hsteps⟩ x hx
      obtain ⟨hs', hP⟩ := hstep hs hc hfirst
      rcases List.mem_cons.mp hx with rfl | hx
      · exact hP
      · exact ih hs' hrest hsteps x hx

/-- The states of such a run are good. -/
theorem states_of_steps (hstep : ∀ {s l s'}, Good s → C s l → step s l s' → Good s')
    (run : List (ℓ × σ)) :
    ∀ {s}, Good s → IsRun step s run → AllSteps C s run → ∀ x ∈ run, Good x.2 := by
  intro s hs hrun hsteps
  exact results_of_steps Good (fun hs hc h => ⟨hstep hs hc h, hstep hs hc h⟩) run hs hrun hsteps

/-- What holds of a step that meets the condition from a good state holds of all steps of a run
whose steps meet it. -/
theorem allSteps_of_steps {P : σ → ℓ → Prop}
    (hstep : ∀ {s l s'}, Good s → C s l → step s l s' → Good s' ∧ P s l) (run : List (ℓ × σ)) :
    ∀ {s}, Good s → IsRun step s run → AllSteps C s run → AllSteps P s run := by
  induction run with
  | nil => exact fun _ _ _ => trivial
  | cons x run ih =>
      intro s hs hrun hsteps
      obtain ⟨hgood, hP⟩ := hstep hs hsteps.1 hrun.1
      exact ⟨hP, ih hgood hrun.2 hsteps.2⟩

/-- A run is a run of every system that has its steps, and its steps meet what all steps meet. -/
theorem isRun_mono (step' : σ → ℓ → σ → Prop)
    (hstep : ∀ {s l s'}, step s l s' → step' s l s' ∧ C s l) (run : List (ℓ × σ)) :
    ∀ {s}, IsRun step s run → IsRun step' s run ∧ AllSteps C s run := by
  induction run with
  | nil => exact fun _ => ⟨trivial, trivial⟩
  | cons x run ih =>
      intro s hrun
      obtain ⟨hfirst, hC⟩ := hstep hrun.1
      obtain ⟨hrest, hCs⟩ := ih hrun.2
      exact ⟨⟨hfirst, hrest⟩, hC, hCs⟩

theorem states_iff_steps
    (hstep : ∀ {s l s'}, Good s → step s l s' → (Good s' ↔ C s l)) (run : List (ℓ × σ)) :
    ∀ {s}, Good s → IsRun step s run → ((∀ x ∈ run, Good x.2) ↔ AllSteps C s run) := by
  induction run with
  | nil =>
      intro s _ _
      exact ⟨fun _ => trivial, fun _ x hx => absurd hx List.not_mem_nil⟩
  | cons x run ih =>
      obtain ⟨l, s'⟩ := x
      intro s hs hrun
      obtain ⟨hfirst, hrest⟩ := hrun
      have hiff := hstep hs hfirst
      constructor
      · intro hall
        have hs' : Good s' := hall (l, s') List.mem_cons_self
        refine ⟨hiff.mp hs', (ih hs' hrest).mp ?_⟩
        intro x hx
        exact hall x (List.mem_cons_of_mem _ hx)
      · have hkeep : ∀ {s l s'}, Good s → C s l → step s l s' → Good s' :=
          fun hs hc h => (hstep hs h).mpr hc
        have hrun : IsRun step s ((l, s') :: run) := ⟨hfirst, hrest⟩
        exact states_of_steps Good hkeep _ hs hrun

end RagFlow.Transition
