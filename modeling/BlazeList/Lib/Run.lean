import Mathlib.Tactic.Common

/-!
# Runs

A system is a step function on states, and a run feeds it labels one after the other. `Meets` says that
every step of a run is taken in a state and with a label that satisfy a condition.
-/

universe u v

namespace Run

variable {σ : Type u} {α : Type v} (step : σ → α → σ)

def after (state : σ) (labels : List α) : σ := labels.foldl step state

def Meets (condition : σ → α → Prop) : σ → List α → Prop
  | _, [] => True
  | state, label :: rest => condition state label ∧ Meets condition (step state label) rest

instance {condition : σ → α → Prop} [∀ state label, Decidable (condition state label)] :
    (state : σ) → (labels : List α) → Decidable (Meets step condition state labels)
  | _, [] => isTrue trivial
  | state, label :: rest =>
      have : Decidable (Meets step condition (step state label) rest) :=
        instDecidableMeets (step state label) rest
      inferInstanceAs (Decidable (_ ∧ _))

variable {step} {condition : σ → α → Prop} {state : σ} {labels : List α}

@[simp]
theorem after_nil : after step state [] = state := rfl

@[simp]
theorem after_cons {label : α} :
    after step state (label :: labels) = after step (step state label) labels := rfl

theorem after_append {more : List α} :
    after step state (labels ++ more) = after step (after step state labels) more :=
  List.foldl_append

theorem meets_append {more : List α} :
    Meets step condition state (labels ++ more) ↔
      Meets step condition state labels ∧ Meets step condition (after step state labels) more := by
  induction labels generalizing state with
  | nil => simp [Meets]
  | cons label rest ih => simp [Meets, ih, and_assoc]

theorem Meets.mono {weaker : σ → α → Prop} (hmeets : Meets step condition state labels)
    (himp : ∀ state label, condition state label → weaker state label) :
    Meets step weaker state labels := by
  induction labels generalizing state with
  | nil => trivial
  | cons label rest ih => exact ⟨himp _ _ hmeets.1, ih hmeets.2⟩

theorem Meets.and {other : σ → α → Prop} (hmeets : Meets step condition state labels)
    (hother : Meets step other state labels) :
    Meets step (fun state label => other state label ∧ condition state label) state labels := by
  induction labels generalizing state with
  | nil => trivial
  | cons label rest ih => exact ⟨⟨hother.1, hmeets.1⟩, ih hmeets.2 hother.2⟩

theorem meets_of_forall (hall : ∀ state label, label ∈ labels → condition state label) :
    Meets step condition state labels := by
  induction labels generalizing state with
  | nil => trivial
  | cons label rest ih =>
      exact ⟨hall _ _ List.mem_cons_self, ih fun s l hl => hall s l (List.mem_cons_of_mem _ hl)⟩

/-- What every step that meets the condition keeps holds after every run that meets it. -/
theorem Meets.invariant (hmeets : Meets step condition state labels) (inv : σ → Prop)
    (hstate : inv state)
    (hstep : ∀ state label, inv state → condition state label → inv (step state label)) :
    inv (after step state labels) := by
  induction labels generalizing state with
  | nil => exact hstate
  | cons label rest ih => exact ih hmeets.2 (hstep state label hstate hmeets.1)

/-- What every step has whose state meets an invariant. -/
theorem Meets.imp_of_invariant {goal : σ → α → Prop} (hmeets : Meets step condition state labels)
    (inv : σ → Prop) (hstate : inv state)
    (hstep : ∀ state label, inv state → condition state label → inv (step state label))
    (hgoal : ∀ state label, inv state → condition state label → goal state label) :
    Meets step goal state labels := by
  induction labels generalizing state with
  | nil => trivial
  | cons label rest ih =>
      exact ⟨hgoal state label hstate hmeets.1, ih hmeets.2 (hstep state label hstate hmeets.1)⟩

/-- What every step keeps holds after every run. -/
theorem invariant (inv : σ → Prop) (hstate : inv state)
    (hstep : ∀ state label, inv state → inv (step state label)) (labels : List α) :
    inv (after step state labels) :=
  (meets_of_forall (fun _ _ _ => trivial) : Meets step (fun _ _ => True) state labels).invariant
    inv hstate fun state label h _ => hstep state label h

/-- Where every step that is not bad keeps an invariant, and a bad one ends in a state that is not good,
exactly the runs without a bad step are good in every state. -/
theorem forall_prefix_iff {inv good : σ → Prop} {bad : σ → α → Prop} (hgood : ∀ state, inv state → good state)
    (hkeeps : ∀ state label, inv state → ¬ bad state label → inv (step state label))
    (hbreaks : ∀ state label, inv state → bad state label → ¬ good (step state label)) (hstate : inv state) :
    (∀ past future, labels = past ++ future → good (after step state past)) ↔
      Meets step (fun state label => ¬ bad state label) state labels := by
  induction labels generalizing state with
  | nil =>
      constructor
      · intro _
        trivial
      · intro _ past future heq
        obtain ⟨rfl, -⟩ := List.append_eq_nil_iff.mp heq.symm
        exact hgood state hstate
  | cons label rest ih =>
      constructor
      · intro hall
        have hnot : ¬ bad state label := fun hbad => hbreaks state label hstate hbad (hall [label] rest rfl)
        refine ⟨hnot, (ih (hkeeps state label hstate hnot)).mp fun past future heq => ?_⟩
        exact hall (label :: past) future (congrArg (label :: ·) heq)
      · intro hmeets past future heq
        cases past with
        | nil => exact hgood state hstate
        | cons first past =>
            obtain ⟨hfirst, hrest⟩ := List.cons.inj heq
            rw [← hfirst]
            exact (ih (hkeeps state label hstate hmeets.1)).mpr hmeets.2 past future hrest

end Run
